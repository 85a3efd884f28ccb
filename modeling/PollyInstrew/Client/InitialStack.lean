import PollyInstrew.Client.Common
import PollyInstrew.Support.StateExcept

/-!
# The initial stack of the guest

`main` maps `STACK_SIZE` bytes, protects the lowest page of them and pushes the
auxiliary vector, the environment, the arguments and their count, from the top
downwards.  A program that starts on this stack reads it upwards: `argc` words
of arguments after the first word, the environment up to a null word, the
auxiliary vector in pairs up to a null type.  Everything that was pushed is
read back, for every image that stays above the protected page.
-/

namespace PollyInstrew.Client

open PollyInstrew.ByteMemory PollyInstrew.StateExcept

/-! ## The mapping -/

/-- `STACK_SIZE`. -/
def stackSize : ℕ := 0x1000000

/-- Size of the lowest page, which `main` makes inaccessible. -/
def stackGuard : ℕ := 0x1000

/-- What `mmap` returned for the stack: a page-aligned address in the lower half
of the address space. -/
structure StackMap where
  base : Word
  aligned : base.toNat % 0x1000 = 0
  fits : base.toNat + stackSize ≤ 2 ^ 47

/-- The word at `a` is in the accessible part of the stack. -/
def StackMap.Accessible (s : StackMap) (a : Word) : Prop :=
  s.base.toNat + stackGuard ≤ a.toNat ∧ a.toNat + 8 ≤ s.base.toNat + stackSize

instance (s : StackMap) (a : Word) : Decidable (s.Accessible a) :=
  inferInstanceAs (Decidable (_ ∧ _))

/-- The memory and the variable `stack_top` of `main`. -/
structure Builder where
  mem : Mem
  stackTop : Word

/-- Why a program ends early: an access outside of the stack, or a search that
has not ended within the steps it was given. -/
inductive StackFault where
  | segv
  | fuel
  deriving DecidableEq

abbrev StackM := Prog Builder StackFault

/-- `*a`. -/
def peek (s : StackMap) (a : Word) : StackM Word := do
  if s.Accessible a then
    let b ← Prog.get
    return load 64 b.mem a
  else
    Prog.fail .segv

/-- `*a = v`. -/
def poke (s : StackMap) (a v : Word) : StackM Unit :=
  if s.Accessible a then
    Prog.modify fun b => { b with mem := store 64 b.mem a v }
  else
    Prog.fail .segv

/-- `stack_top -= n`. -/
def lower (n : ℕ) : StackM Unit :=
  Prog.modify fun b => { b with stackTop := b.stackTop - BitVec.ofNat 64 (8 * n) }

/-- `*(--stack_top) = v`. -/
def push (s : StackMap) (v : Word) : StackM Unit := do
  lower 1
  let b ← Prog.get
  poke s b.stackTop v

/-- `stack_top -= n; for (i = 0; i < n; i++) stack_top[i] = vector[i]`. -/
def pushVector (s : StackMap) (n : ℕ) (vector : ℕ → Word) : StackM Unit := do
  lower n
  Prog.forRange n fun i => do
    let b ← Prog.get
    poke s (b.stackTop + BitVec.ofNat 64 (8 * i)) (vector i)

/-! ## What `main` pushes -/

/-- The types of auxiliary entries `main` provides. -/
inductive AuxType where
  | entry | phdr | phent | phnum | platform | random | uid | euid | gid | egid
  | clktck | pagesz | hwcap | hwcap2 | secure
  deriving DecidableEq

/-- The constants `AT_…`. -/
def AuxType.code : AuxType → Word
  | .entry => 9
  | .phdr => 3
  | .phent => 4
  | .phnum => 5
  | .platform => 15
  | .random => 25
  | .uid => 11
  | .euid => 12
  | .gid => 13
  | .egid => 14
  | .clktck => 17
  | .pagesz => 6
  | .hwcap => 16
  | .hwcap2 => 26
  | .secure => 23

/-- The fields of `BinaryInfo` that go to the stack. -/
structure BinaryInfo where
  elfEntry : Word
  phdr : Word
  phnum : Word
  phent : Word

/-- Where the auxiliary values come from: the loaded binary, the address of
`PLATFORM_STRING` and the auxiliary vector the client itself was started
with. -/
structure AuxSource where
  info : BinaryInfo
  platformString : Word
  getauxval : AuxType → Word

/-- The auxiliary entries in the order in which they are pushed. -/
def auxVector (h : AuxSource) : List (AuxType × Word) :=
  [(.entry, h.info.elfEntry),
    (.phdr, h.info.phdr),
    (.phent, h.info.phent),
    (.phnum, h.info.phnum),
    (.platform, h.platformString),
    (.random, h.getauxval .random),
    (.uid, h.getauxval .uid),
    (.euid, h.getauxval .euid),
    (.gid, h.getauxval .gid),
    (.egid, h.getauxval .egid),
    (.clktck, h.getauxval .clktck),
    (.pagesz, h.getauxval .pagesz),
    (.hwcap, 0x8001),
    (.hwcap2, 0),
    (.secure, 0)]

/-- `*(--stack_top) = value; *(--stack_top) = type`, entry by entry. -/
def pushAux (s : StackMap) : List (AuxType × Word) → StackM Unit
  | [] => pure ()
  | (type, value) :: entries => do
      push s value
      push s type.code
      pushAux s entries

/-- The vector `environ`: pointers that are not null, then a null word. -/
structure Environ where
  ptrs : List Word
  nonnull : ∀ p ∈ ptrs, p ≠ 0

/-- `environ[i]`, for `i` up to the terminating null word. -/
def Environ.word (e : Environ) (i : ℕ) : Word := e.ptrs.getD i 0

/-- `while (environ[envc]) envc++`, at most `fuel` iterations of it. -/
def countFrom (word : ℕ → Word) : ℕ → ℕ → ℕ
  | 0, envc => envc
  | fuel + 1, envc => if word envc ≠ 0 then countFrom word fuel (envc + 1) else envc

def Environ.envc (e : Environ) : ℕ := countFrom e.word (e.ptrs.length + 1) 0

/-- The part of `main` that initialises the stack. -/
def setupStack (s : StackMap) (h : AuxSource) (argv : List Word) (environ : Environ) :
    StackM Unit := do
  let argc := argv.length
  let envc := environ.envc
  lower ((argc + envc) &&& 1)
  push s 0
  pushAux s (auxVector h)
  push s 0
  pushVector s envc environ.word
  push s 0
  pushVector s argc (argv.getD · 0)
  push s (BitVec.ofNat 64 argc)

/-- The state in which the initialisation starts. -/
def stackStart (s : StackMap) (mem : Mem) : Builder where
  mem := mem
  stackTop := s.base + BitVec.ofNat 64 stackSize

/-! ## How a program reads its stack -/

/-- `n` words from `a` on. -/
def readWords (s : StackMap) : ℕ → Word → StackM (List Word)
  | 0, _ => return []
  | n + 1, a => do
      let w ← peek s a
      let ws ← readWords s n (a + 8)
      return w :: ws

/-- The words from `a` on that come before a null word. -/
def readVector (s : StackMap) : ℕ → Word → StackM (List Word)
  | 0, _ => Prog.fail .fuel
  | fuel + 1, a => do
      let w ← peek s a
      if w = 0 then
        return []
      else
        let ws ← readVector s fuel (a + 8)
        return w :: ws

/-- `for (; *aux != 0; ++aux) {}`. -/
def skipVector (s : StackMap) : ℕ → Word → StackM Word
  | 0, _ => Prog.fail .fuel
  | fuel + 1, aux => do
      let w ← peek s aux
      if w ≠ 0 then skipVector s fuel (aux + 8) else return aux

/-- What `__start_main` finds on the stack. -/
structure StartInfo where
  argc : ℤ
  environ : Word
  auxvptr : Word
  deriving DecidableEq

/-- The beginning of `__start_main`. -/
def startMain (s : StackMap) (fuel : ℕ) (initialStack : Word) : StackM StartInfo := do
  let word ← peek s initialStack
  let argc := (word.setWidth 32).toInt
  let localEnviron := initialStack + BitVec.ofInt 64 (8 * (argc + 2))
  let aux ← skipVector s fuel localEnviron
  return ⟨argc, localEnviron, aux + 8⟩

/-- `getauxval`, from the auxiliary vector at `aux` on. -/
def getauxval (s : StackMap) : ℕ → Word → Word → StackM Word
  | 0, _, _ => Prog.fail .fuel
  | fuel + 1, aux, type => do
      let w ← peek s aux
      if w ≠ 0 then
        if w = type then
          peek s (aux + 8)
        else
          getauxval s fuel (aux + 16) type
      else
        return 0

/-! ## Building -/

section Image

variable {s : StackMap} {b : Builder} {words : List Word}

/-- The words from `stack_top` to the end of the stack. -/
structure Built (s : StackMap) (words : List Word) (b : Builder) : Prop where
  top : b.stackTop.toNat + 8 * words.length = s.base.toNat + stackSize
  word : ∀ i (h : i < words.length),
    load 64 b.mem (b.stackTop + BitVec.ofNat 64 (8 * i)) = words[i]

/-- The words stay above the protected page. -/
def Fits (n : ℕ) : Prop := stackGuard + 8 * n ≤ stackSize

theorem Built.toNat_add (h : Built s words b) {i : ℕ} (hi : i ≤ words.length) :
    (b.stackTop + BitVec.ofNat 64 (8 * i)).toNat = b.stackTop.toNat + 8 * i := by
  have htop := h.top
  have hfits := s.fits
  rw [BitVec.toNat_add, BitVec.toNat_ofNat]
  omega

theorem Built.accessible (h : Built s words b) {n i : ℕ} (hn : Fits n)
    (hi : i < words.length) (hle : words.length ≤ n + i) :
    s.Accessible (b.stackTop + BitVec.ofNat 64 (8 * i)) := by
  have htop := h.top
  rw [Fits] at hn
  rw [StackMap.Accessible, h.toNat_add (Nat.le_of_lt hi)]
  omega

theorem built_stackStart (s : StackMap) (mem : Mem) : Built s [] (stackStart s mem) where
  top := by
    have hfits := s.fits
    rw [stackStart, BitVec.toNat_add, BitVec.toNat_ofNat]
    simp only [stackSize, List.length_nil] at hfits ⊢
    omega
  word i hi := absurd hi (Nat.not_lt_zero i)

/-- Lowering `stack_top` takes words in whose content is not known yet. -/
theorem Built.lower (h : Built s words b) {n : ℕ} (hn : Fits (n + words.length)) :
    ∃ pad b', pad.length = n ∧ (lower n).run b = (.ok (), b') ∧ Built s (pad ++ words) b' := by
  have htop := h.top
  have hfits := s.fits
  have hlt := b.stackTop.isLt
  rw [Fits] at hn
  have hsub : (b.stackTop - BitVec.ofNat 64 (8 * n)).toNat = b.stackTop.toNat - 8 * n := by
    rw [BitVec.toNat_sub, BitVec.toNat_ofNat]
    simp only [stackSize, stackGuard] at *
    omega
  refine ⟨(List.range n).map fun i =>
      load 64 b.mem (b.stackTop - BitVec.ofNat 64 (8 * n) + BitVec.ofNat 64 (8 * i)),
    _, by simp, rfl, ?_, ?_⟩
  · simp only [hsub, List.length_append, List.length_map, List.length_range]
    omega
  · intro i hi
    rw [List.length_append, List.length_map, List.length_range] at hi
    by_cases hin : i < n
    · rw [List.getElem_append_left (by simpa using hin), List.getElem_map,
        List.getElem_range]
    · rw [List.getElem_append_right (by simpa using hin)]
      simp only [List.length_map, List.length_range]
      rw [← h.word (i - n) (by omega)]
      congr 1
      rw [show 8 * i = 8 * n + 8 * (i - n) by omega, BitVec.ofNat_add, ← BitVec.add_assoc,
        BitVec.sub_add_cancel]

/-- Storing one of the words. -/
theorem Built.poke (h : Built s words b) (hn : Fits words.length) {i : ℕ}
    (hi : i < words.length) (v : Word) :
    ∃ b', (poke s (b.stackTop + BitVec.ofNat 64 (8 * i)) v).run b = (.ok (), b') ∧
      Built s (words.set i v) b' ∧ b'.stackTop = b.stackTop := by
  have hacc := h.accessible hn hi (Nat.le_add_right _ _)
  have htop := h.top
  have hfits := s.fits
  refine ⟨{ b with mem := store 64 b.mem (b.stackTop + BitVec.ofNat 64 (8 * i)) v },
    by rw [Client.poke, if_pos hacc, Prog.run_modify], ⟨by simpa using h.top, ?_⟩, rfl⟩
  intro j hj
  rw [List.length_set] at hj
  by_cases hij : i = j
  · subst hij
    simp only [List.getElem_set_self]
    exact load_store_64 _ _ _
  · rw [List.getElem_set_of_ne hij, ← h.word j hj]
    apply load_congr (by decide)
    intro x hx
    apply store_of_not_inRange
    rw [inRange_iff (by rw [h.toNat_add (Nat.le_of_lt hj)]; omega)] at hx
    rw [inRange_iff (by rw [h.toNat_add (Nat.le_of_lt hi)]; omega)]
    rw [h.toNat_add (Nat.le_of_lt hj)] at hx
    rw [h.toNat_add (Nat.le_of_lt hi)]
    omega

theorem Built.push (h : Built s words b) (hn : Fits (words.length + 1)) (v : Word) :
    ∃ b', (push s v).run b = (.ok (), b') ∧ Built s (v :: words) b' := by
  obtain ⟨pad, b₁, hlen, hlower, h₁⟩ := h.lower (by rwa [Nat.add_comm])
  obtain ⟨w, rfl⟩ := List.length_eq_one_iff.mp hlen
  obtain ⟨b₂, hpoke, h₂, -⟩ := h₁.poke hn (Nat.zero_lt_succ _) v
  rw [BitVec.add_zero] at hpoke
  exact ⟨b₂, Prog.run_bind_eq_ok.mpr ⟨(), b₁, hlower,
    Prog.run_bind_eq_ok.mpr ⟨b₁, b₁, rfl, hpoke⟩⟩, h₂⟩

theorem set_fill {vs pad : List Word} {j : ℕ} (hlen : pad.length = vs.length)
    (hj : j < vs.length) :
    (vs.take j ++ pad.drop j ++ words).set j vs[j] =
      vs.take (j + 1) ++ pad.drop (j + 1) ++ words := by
  have htake : (vs.take j).length = j := List.length_take_of_le (Nat.le_of_lt hj)
  rw [List.append_assoc, List.set_append_right _ _ (Nat.le_of_eq htake), htake, Nat.sub_self,
    List.drop_eq_getElem_cons (by omega), List.cons_append, List.set_cons_zero,
    List.take_succ_eq_append_getElem hj]
  simp only [List.append_assoc, List.cons_append, List.nil_append]

theorem Built.pushVector (h : Built s words b) {vs : List Word} {vector : ℕ → Word}
    (hn : Fits (vs.length + words.length)) (hvec : ∀ i (hi : i < vs.length), vector i = vs[i]) :
    ∃ b', (pushVector s vs.length vector).run b = (.ok (), b') ∧ Built s (vs ++ words) b' := by
  obtain ⟨pad, b₁, hlen, hlower, h₁⟩ := h.lower hn
  have hfill : ∀ j t, j < vs.length → Built s (vs.take j ++ pad.drop j ++ words) t →
      ∃ t', (do
          let b ← Prog.get
          Client.poke s (b.stackTop + BitVec.ofNat 64 (8 * j)) (vector j)).run t = (.ok (), t') ∧
        Built s (vs.take (j + 1) ++ pad.drop (j + 1) ++ words) t' := by
    intro j t hj ht
    have hlength : (vs.take j ++ pad.drop j ++ words).length = vs.length + words.length := by
      simp only [List.length_append, List.length_take, List.length_drop]
      omega
    obtain ⟨t', hpoke, ht', -⟩ := ht.poke (i := j) (by rwa [hlength]) (by omega) (vector j)
    rw [hvec j hj, set_fill hlen hj] at ht'
    exact ⟨t', Prog.run_bind_eq_ok.mpr ⟨t, t, rfl, hpoke⟩, ht'⟩
  obtain ⟨b₂, hrun, h₂⟩ := Prog.forRange_total (n := vs.length) (s := b₁)
    (I := fun j b => Built s (vs.take j ++ pad.drop j ++ words) b) hfill
    (by simpa using h₁)
  rw [List.take_length, List.drop_eq_nil_of_le (by omega), List.append_nil] at h₂
  exact ⟨b₂, Prog.run_bind_eq_ok.mpr ⟨(), b₁, hlower, hrun⟩, h₂⟩

/-- The words of auxiliary entries as they lie in memory. -/
def auxWords (entries : List (AuxType × Word)) : List Word :=
  entries.flatMap fun e => [e.1.code, e.2]

theorem Built.pushAux :
    ∀ (entries : List (AuxType × Word)) {words : List Word} {b : Builder},
      Built s words b → Fits (2 * entries.length + words.length) →
      ∃ b', (pushAux s entries).run b = (.ok (), b') ∧
        Built s (auxWords entries.reverse ++ words) b' := by
  intro entries
  induction entries with
  | nil =>
      intro words b h _
      exact ⟨b, rfl, h⟩
  | cons e entries ih =>
      intro words b h hn
      obtain ⟨type, value⟩ := e
      rw [Fits, List.length_cons] at hn
      obtain ⟨b₁, hrun₁, h₁⟩ := h.push (by rw [Fits]; omega) value
      obtain ⟨b₂, hrun₂, h₂⟩ := h₁.push (by rw [Fits, List.length_cons]; omega) type.code
      obtain ⟨b₃, hrun₃, h₃⟩ := ih h₂ (by simp only [Fits, List.length_cons]; omega)
      refine ⟨b₃, Prog.run_bind_eq_ok.mpr ⟨(), b₁, hrun₁,
        Prog.run_bind_eq_ok.mpr ⟨(), b₂, hrun₂, hrun₃⟩⟩, ?_⟩
      simpa [auxWords] using h₃

end Image

/-! ## Reading back -/

section Read

variable {s : StackMap} {b : Builder}

/-- The words lie at `a` and after, in the accessible part of the stack. -/
def WordsAt (s : StackMap) (m : Mem) : Word → List Word → Prop
  | _, [] => True
  | a, w :: words => s.Accessible a ∧ load 64 m a = w ∧ WordsAt s m (a + 8) words

theorem add_eight_add (a : Word) (n : ℕ) :
    a + 8 + BitVec.ofNat 64 (8 * n) = a + BitVec.ofNat 64 (8 * (n + 1)) := by
  rw [Nat.mul_add, Nat.add_comm, BitVec.ofNat_add, ← BitVec.add_assoc]
  rfl

theorem wordsAt_append {m : Mem} :
    ∀ {a : Word} (xs ys : List Word),
      WordsAt s m a (xs ++ ys) ↔
        WordsAt s m a xs ∧ WordsAt s m (a + BitVec.ofNat 64 (8 * xs.length)) ys := by
  intro a xs ys
  induction xs generalizing a with
  | nil => simp [WordsAt]
  | cons x xs ih =>
      rw [List.cons_append, WordsAt, WordsAt, ih, add_eight_add, List.length_cons, and_assoc,
        and_assoc]

theorem wordsAt_of_getElem {m : Mem} :
    ∀ {a : Word} (words : List Word),
      (∀ i (h : i < words.length), s.Accessible (a + BitVec.ofNat 64 (8 * i)) ∧
        load 64 m (a + BitVec.ofNat 64 (8 * i)) = words[i]) →
      WordsAt s m a words := by
  intro a words h
  induction words generalizing a with
  | nil => trivial
  | cons w words ih =>
      obtain ⟨hacc, hload⟩ := h 0 (Nat.zero_lt_succ _)
      rw [BitVec.add_zero] at hacc hload
      refine ⟨hacc, hload, ih fun i hi => ?_⟩
      rw [add_eight_add]
      exact h (i + 1) (Nat.succ_lt_succ hi)

theorem Built.wordsAt {words : List Word} (h : Built s words b) (hn : Fits words.length) :
    WordsAt s b.mem b.stackTop words :=
  wordsAt_of_getElem words fun i hi =>
    ⟨h.accessible hn hi (Nat.le_add_right _ _), h.word i hi⟩

theorem peek_cons {a w : Word} {words : List Word} (h : WordsAt s b.mem a (w :: words)) :
    (peek s a).run b = (.ok w, b) := by
  obtain ⟨hacc, hload, -⟩ := h
  rw [peek, if_pos hacc]
  refine Prog.run_bind_eq_ok.mpr ⟨b, b, rfl, ?_⟩
  rw [Prog.run_pure, hload]

theorem readWords_ok {a : Word} (words : List Word) (h : WordsAt s b.mem a words) :
    (readWords s words.length a).run b = (.ok words, b) := by
  induction words generalizing a with
  | nil => rfl
  | cons w words ih =>
      refine Prog.run_bind_eq_ok.mpr ⟨w, b, peek_cons h, ?_⟩
      exact Prog.run_bind_eq_ok.mpr ⟨words, b, ih h.2.2, rfl⟩

theorem readVector_ok {a : Word} {rest : List Word} (words : List Word) {fuel : ℕ}
    (hnonnull : ∀ w ∈ words, w ≠ 0) (hfuel : words.length < fuel)
    (h : WordsAt s b.mem a (words ++ 0 :: rest)) :
    (readVector s fuel a).run b = (.ok words, b) := by
  obtain ⟨fuel, rfl⟩ := Nat.exists_eq_add_of_lt hfuel
  clear hfuel
  induction words generalizing a with
  | nil =>
      refine Prog.run_bind_eq_ok.mpr ⟨0, b, peek_cons h, ?_⟩
      rw [if_pos rfl, Prog.run_pure]
  | cons w words ih =>
      refine Prog.run_bind_eq_ok.mpr ⟨w, b, peek_cons h, ?_⟩
      rw [if_neg (hnonnull w List.mem_cons_self)]
      refine Prog.run_bind_eq_ok.mpr ⟨words, b, ?_, rfl⟩
      rw [List.length_cons, Nat.add_right_comm words.length 1 fuel]
      exact ih (fun w hw => hnonnull w (List.mem_cons_of_mem _ hw)) h.2.2

theorem skipVector_ok {a : Word} {rest : List Word} (words : List Word) {fuel : ℕ}
    (hnonnull : ∀ w ∈ words, w ≠ 0) (hfuel : words.length < fuel)
    (h : WordsAt s b.mem a (words ++ 0 :: rest)) :
    (skipVector s fuel a).run b = (.ok (a + BitVec.ofNat 64 (8 * words.length)), b) := by
  obtain ⟨fuel, rfl⟩ := Nat.exists_eq_add_of_lt hfuel
  clear hfuel
  induction words generalizing a with
  | nil =>
      refine Prog.run_bind_eq_ok.mpr ⟨0, b, peek_cons h, ?_⟩
      rw [if_neg (fun hne => hne rfl), Prog.run_pure, List.length_nil, BitVec.add_zero]
  | cons w words ih =>
      refine Prog.run_bind_eq_ok.mpr ⟨w, b, peek_cons h, ?_⟩
      rw [if_pos (hnonnull w List.mem_cons_self), List.length_cons, ← add_eight_add,
        Nat.add_right_comm words.length 1 fuel]
      exact ih (fun w hw => hnonnull w (List.mem_cons_of_mem _ hw)) h.2.2

theorem AuxType.code_ne_zero (t : AuxType) : t.code ≠ 0 := by
  cases t <;> decide

/-- The value of the first entry of a type, and zero if there is none. -/
def auxLookup (entries : List (AuxType × Word)) (type : Word) : Word :=
  match entries.find? fun e => e.1.code = type with
  | some e => e.2
  | none => 0

theorem getauxval_ok {aux type : Word} {rest : List Word} (entries : List (AuxType × Word))
    {fuel : ℕ} (hfuel : entries.length < fuel)
    (h : WordsAt s b.mem aux (auxWords entries ++ 0 :: rest)) :
    (getauxval s fuel aux type).run b = (.ok (auxLookup entries type), b) := by
  obtain ⟨fuel, rfl⟩ := Nat.exists_eq_add_of_lt hfuel
  clear hfuel
  induction entries generalizing aux with
  | nil =>
      refine Prog.run_bind_eq_ok.mpr ⟨0, b, peek_cons h, ?_⟩
      rw [if_neg (fun hne => hne rfl)]
      rfl
  | cons e entries ih =>
      have hwords : WordsAt s b.mem aux (e.1.code :: e.2 :: (auxWords entries ++ 0 :: rest)) := h
      refine Prog.run_bind_eq_ok.mpr ⟨e.1.code, b, peek_cons hwords, ?_⟩
      rw [if_pos e.1.code_ne_zero]
      by_cases htype : e.1.code = type
      · rw [if_pos htype, auxLookup, List.find?_cons_of_pos (by simpa using htype)]
        exact peek_cons hwords.2.2
      · rw [if_neg htype, auxLookup, List.find?_cons_of_neg (by simpa using htype),
          List.length_cons, Nat.add_right_comm entries.length 1 fuel]
        have hrest := hwords.2.2.2.2
        rw [BitVec.add_assoc] at hrest
        exact ih hrest

end Read

theorem auxLookup_of_mem {h : AuxSource} {e : AuxType × Word} (he : e ∈ auxVector h) :
    auxLookup (auxVector h).reverse e.1.code = e.2 := by
  simp only [auxVector, List.mem_cons, List.not_mem_nil, or_false] at he
  rcases he with rfl | rfl | rfl | rfl | rfl | rfl | rfl | rfl | rfl | rfl | rfl | rfl | rfl |
    rfl | rfl <;> rfl

theorem auxLookup_of_forall_ne {h : AuxSource} {type : Word}
    (hne : ∀ e ∈ auxVector h, e.1.code ≠ type) :
    auxLookup (auxVector h).reverse type = 0 := by
  have hnone : (auxVector h).reverse.find? (fun e => decide (e.1.code = type)) = none := by
    rw [List.find?_eq_none]
    intro e he
    simpa using hne e (List.mem_reverse.mp he)
  rw [auxLookup, hnone]

theorem countFrom_eq (e : Environ) :
    ∀ (fuel envc : ℕ), envc ≤ e.ptrs.length → e.ptrs.length < envc + fuel →
      countFrom e.word fuel envc = e.ptrs.length := by
  intro fuel
  induction fuel with
  | zero =>
      intro envc hle hlt
      omega
  | succ fuel ih =>
      intro envc hle hlt
      rw [countFrom]
      by_cases hin : envc < e.ptrs.length
      · have hword : e.word envc ≠ 0 := by
          rw [Environ.word, List.getD_eq_getElem?_getD, List.getElem?_eq_getElem hin,
            Option.getD_some]
          exact e.nonnull _ (List.getElem_mem hin)
        rw [if_pos hword]
        exact ih (envc + 1) hin (by omega)
      · have hword : e.word envc = 0 := by
          rw [Environ.word, List.getD_eq_getElem?_getD,
            List.getElem?_eq_none (Nat.le_of_not_lt hin), Option.getD_none]
        rw [if_neg (fun hne => hne hword)]
        omega

theorem Environ.envc_eq (e : Environ) : e.envc = e.ptrs.length :=
  countFrom_eq e _ 0 (Nat.zero_le _) (by omega)

/-! ## The image as a whole -/

section Setup

variable {s : StackMap} {h : AuxSource} {argv : List Word} {environ : Environ}

/-- The number of words from the stack pointer to the end of the stack. -/
def imageWords (argv : List Word) (environ : Environ) : ℕ :=
  34 + argv.length + environ.ptrs.length + (argv.length + environ.ptrs.length) % 2

/-- The image from the stack pointer on, with the words of the padding. -/
def stackImage (h : AuxSource) (argv : List Word) (environ : Environ) (pad : List Word) :
    List Word :=
  BitVec.ofNat 64 argv.length :: (argv ++ 0 :: (environ.ptrs ++ 0 ::
    (auxWords (auxVector h).reverse ++ 0 :: pad)))

theorem length_auxWords (entries : List (AuxType × Word)) :
    (auxWords entries).length = 2 * entries.length := by
  induction entries with
  | nil => rfl
  | cons e entries ih =>
      rw [auxWords, List.flatMap_cons, List.length_append, ← auxWords, ih, List.length_cons]
      simp only [List.length_cons, List.length_nil]
      omega

theorem length_auxVector (h : AuxSource) : (auxVector h).length = 15 := rfl

theorem length_stackImage {pad : List Word}
    (hpad : pad.length = (argv.length + environ.ptrs.length) % 2) :
    (stackImage h argv environ pad).length = imageWords argv environ := by
  simp only [stackImage, imageWords, List.length_cons, List.length_append, length_auxWords,
    List.length_reverse, length_auxVector, hpad]
  omega

/-- The state before the arguments are pushed. -/
theorem setupStack_environ (s : StackMap) (h : AuxSource) (argv : List Word)
    (environ : Environ) (mem : Mem)
    (hn : Fits (33 + environ.ptrs.length + (argv.length + environ.ptrs.length) % 2)) :
    ∃ pad b, pad.length = (argv.length + environ.ptrs.length) % 2 ∧
      Built s (0 :: (environ.ptrs ++ 0 :: (auxWords (auxVector h).reverse ++ 0 :: pad))) b ∧
      (setupStack s h argv environ).run (stackStart s mem) =
        (do
          pushVector s argv.length (argv.getD · 0)
          push s (BitVec.ofNat 64 argv.length) : StackM Unit).run b := by
  have hlen := length_auxVector h
  rw [Fits] at hn
  obtain ⟨pad, b₁, hpad, hrun₁, h₁⟩ := (built_stackStart s mem).lower
    (n := (argv.length + environ.ptrs.length) &&& 1)
    (by rw [Fits, Nat.and_one_is_mod, List.length_nil]; omega)
  rw [List.append_nil] at h₁
  rw [Nat.and_one_is_mod] at hpad
  obtain ⟨b₂, hrun₂, h₂⟩ := h₁.push (by rw [Fits]; omega) 0
  obtain ⟨b₃, hrun₃, h₃⟩ := h₂.pushAux (auxVector h)
    (by rw [Fits, List.length_cons]; omega)
  have hlen₃ : (auxWords (auxVector h).reverse ++ 0 :: pad).length = 31 + pad.length := by
    rw [List.length_append, length_auxWords, List.length_reverse, hlen, List.length_cons]
    omega
  obtain ⟨b₄, hrun₄, h₄⟩ := h₃.push (by rw [Fits]; omega) 0
  have hword : ∀ i (hi : i < environ.ptrs.length), environ.word i = environ.ptrs[i] := by
    intro i hi
    rw [Environ.word, List.getD_eq_getElem?_getD, List.getElem?_eq_getElem hi, Option.getD_some]
  obtain ⟨b₅, hrun₅, h₅⟩ := h₄.pushVector (by rw [Fits, List.length_cons]; omega) hword
  obtain ⟨b₆, hrun₆, h₆⟩ := h₅.push
    (by rw [Fits, List.length_append, List.length_cons]; omega) 0
  refine ⟨pad, b₆, hpad, h₆, ?_⟩
  rw [← environ.envc_eq] at hrun₁ hrun₅
  rw [setupStack, Prog.run_bind_of_ok hrun₁, Prog.run_bind_of_ok hrun₂,
    Prog.run_bind_of_ok hrun₃, Prog.run_bind_of_ok hrun₄, Prog.run_bind_of_ok hrun₅,
    Prog.run_bind_of_ok hrun₆]

theorem setupStack_built (s : StackMap) (h : AuxSource) (argv : List Word)
    (environ : Environ) (mem : Mem) (hn : Fits (imageWords argv environ)) :
    ∃ pad b, pad.length = (argv.length + environ.ptrs.length) % 2 ∧
      Built s (stackImage h argv environ pad) b ∧
      (setupStack s h argv environ).run (stackStart s mem) = (.ok (), b) := by
  rw [Fits, imageWords] at hn
  obtain ⟨pad, b₁, hpad, h₁, hrun⟩ := setupStack_environ s h argv environ mem
    (by rw [Fits]; omega)
  have hlen : (stackImage h argv environ pad).length = imageWords argv environ :=
    length_stackImage hpad
  rw [stackImage, List.length_cons, List.length_append, imageWords] at hlen
  have hargv : ∀ i (hi : i < argv.length), argv.getD i 0 = argv[i] := by
    intro i hi
    rw [List.getD_eq_getElem?_getD, List.getElem?_eq_getElem hi, Option.getD_some]
  obtain ⟨b₂, hrun₂, h₂⟩ := h₁.pushVector (by rw [Fits]; omega) hargv
  obtain ⟨b₃, hrun₃, h₃⟩ := h₂.push (by rw [Fits, List.length_append]; omega)
    (BitVec.ofNat 64 argv.length)
  refine ⟨pad, b₃, hpad, h₃, ?_⟩
  rw [hrun, Prog.run_bind_of_ok hrun₂, hrun₃]

/-- What a program that starts on the stack reads. -/
structure Parsed (s : StackMap) (h : AuxSource) (argv : List Word) (environ : Environ)
    (fuel : ℕ) (b : Builder) : Prop where
  aligned : b.stackTop.toNat % 16 = 0
  argcWord : (peek s b.stackTop).run b = (.ok (BitVec.ofNat 64 argv.length), b)
  argvWords : (readWords s argv.length (b.stackTop + 8)).run b = (.ok argv, b)
  argvEnd : (peek s (b.stackTop + BitVec.ofNat 64 (8 * (argv.length + 1)))).run b = (.ok 0, b)
  start : ∃ info, (startMain s fuel b.stackTop).run b = (.ok info, b) ∧
    info.argc = argv.length ∧
    (readVector s fuel info.environ).run b = (.ok environ.ptrs, b) ∧
    (∀ e ∈ auxVector h, (getauxval s fuel info.auxvptr e.1.code).run b = (.ok e.2, b)) ∧
    ∀ type, (∀ e ∈ auxVector h, e.1.code ≠ type) →
      (getauxval s fuel info.auxvptr type).run b = (.ok 0, b)

theorem toInt_setWidth_ofNat {n : ℕ} (hn : n < 2 ^ 31) :
    ((BitVec.ofNat 64 n).setWidth 32).toInt = n := by
  rw [BitVec.toInt_eq_toNat_of_lt, BitVec.toNat_setWidth, BitVec.toNat_ofNat]
  · omega
  · rw [BitVec.toNat_setWidth, BitVec.toNat_ofNat]
    omega

theorem Built.aligned {pad : List Word} {b : Builder}
    (hpad : pad.length = (argv.length + environ.ptrs.length) % 2)
    (hb : Built s (stackImage h argv environ pad) b) : b.stackTop.toNat % 16 = 0 := by
  have htop := hb.top
  have hbase := s.aligned
  rw [length_stackImage hpad, imageWords, stackSize] at htop
  omega

/-- The environment and the auxiliary vector start where `__start_main` looks
for them. -/
theorem Built.startMain {pad : List Word} {b : Builder} {fuel : ℕ}
    (hn : Fits (stackImage h argv environ pad).length)
    (hb : Built s (stackImage h argv environ pad) b) (hfuel : environ.ptrs.length < fuel) :
    ∃ info, (startMain s fuel b.stackTop).run b = (.ok info, b) ∧ info.argc = argv.length ∧
      WordsAt s b.mem info.environ
        (environ.ptrs ++ 0 :: (auxWords (auxVector h).reverse ++ 0 :: pad)) ∧
      WordsAt s b.mem info.auxvptr (auxWords (auxVector h).reverse ++ 0 :: pad) := by
  have hwords := hb.wordsAt hn
  have hargc : argv.length < 2 ^ 31 := by
    rw [Fits, stackImage, List.length_cons, List.length_append, stackSize] at hn
    omega
  have henv := ((wordsAt_append _ _).mp hwords.2.2).2.2.2
  rw [add_eight_add, BitVec.add_assoc, show (8 : Word) = BitVec.ofNat 64 (8 * 1) from rfl,
    ← BitVec.ofNat_add, ← Nat.mul_add] at henv
  have haux := ((wordsAt_append _ _).mp henv).2.2.2
  have hofInt : BitVec.ofInt 64 (8 * ((argv.length : ℤ) + 2)) =
      BitVec.ofNat 64 (8 * (argv.length + 1 + 1)) := by
    rw [← BitVec.ofInt_natCast]
    congr 1
  refine ⟨⟨argv.length, _, _⟩, ?_, rfl, henv, haux⟩
  rw [Client.startMain, Prog.run_bind_of_ok (peek_cons hwords)]
  simp only [toInt_setWidth_ofNat hargc, hofInt]
  rw [Prog.run_bind_of_ok (skipVector_ok environ.ptrs environ.nonnull hfuel henv),
    Prog.run_pure]

end Setup

/-- **The initial stack parses back.**  Every image that stays above the
protected page is built, and a program that starts on it reads what was pushed;
the searches end within as many steps as the image has words. -/
theorem setupStack_parses (s : StackMap) (h : AuxSource) (argv : List Word)
    (environ : Environ) (mem : Mem)
    (hsize : stackGuard + 8 * imageWords argv environ ≤ stackSize) :
    ∃ b, (setupStack s h argv environ).run (stackStart s mem) = (.ok (), b) ∧
      ∀ fuel, imageWords argv environ ≤ fuel → Parsed s h argv environ fuel b := by
  obtain ⟨pad, b, hpad, hb, hrun⟩ := setupStack_built s h argv environ mem hsize
  refine ⟨b, hrun, ?_⟩
  intro fuel hfuel
  have hfits : Fits (stackImage h argv environ pad).length := by
    rw [length_stackImage hpad]
    exact hsize
  rw [imageWords] at hfuel
  have hwords := hb.wordsAt hfits
  obtain ⟨hargv, hrest⟩ := (wordsAt_append _ _).mp hwords.2.2
  rw [add_eight_add] at hrest
  have henough : environ.ptrs.length < fuel := by omega
  obtain ⟨info, hstart, hinfo, henv, haux⟩ := hb.startMain hfits henough
  have hlookup : ∀ type, (getauxval s fuel info.auxvptr type).run b =
      (.ok (auxLookup (auxVector h).reverse type), b) := by
    intro type
    refine getauxval_ok _ ?_ haux
    rw [List.length_reverse, length_auxVector]
    omega
  exact
    { aligned := hb.aligned hpad
      argcWord := peek_cons hwords
      argvWords := readWords_ok argv hargv
      argvEnd := peek_cons hrest
      start := ⟨info, hstart, hinfo, readVector_ok _ environ.nonnull (by omega) henv,
        fun e he => by rw [hlookup, auxLookup_of_mem he],
        fun type hne => by rw [hlookup, auxLookup_of_forall_ne hne]⟩ }

/-- A stack, auxiliary values and one argument with one variable. -/
def sampleStack : StackMap := ⟨0x7f0000000000, by decide, by decide⟩

def sampleAux : AuxSource := ⟨⟨0x401000, 0x400040, 11, 56⟩, 0x2000, fun _ => 0x1000⟩

def sampleEnviron : Environ := ⟨[0x3008], by simp⟩

theorem setupStack_parses_sample :
    stackGuard + 8 * imageWords [0x3000] sampleEnviron ≤ stackSize ∧
      ∃ b, (setupStack sampleStack sampleAux [0x3000] sampleEnviron).run
          (stackStart sampleStack fun _ => 0) = (.ok (), b) ∧
        ∀ fuel, imageWords [0x3000] sampleEnviron ≤ fuel →
          Parsed sampleStack sampleAux [0x3000] sampleEnviron fuel b :=
  ⟨by decide, setupStack_parses sampleStack sampleAux [0x3000] sampleEnviron _ (by decide)⟩

/-- A vector that reaches into the protected page is not stored. -/
theorem pushVector_segv {s : StackMap} {words : List Word} {b : Builder} {n : ℕ}
    {vector : ℕ → Word} (h : Built s words b) (hpos : 0 < n)
    (hlow : stackSize < stackGuard + 8 * (n + words.length))
    (hle : 8 * (n + words.length) ≤ stackSize) :
    ((pushVector s n vector).run b).1 = .error .segv := by
  have htop := h.top
  have hfits := s.fits
  have hlower : (lower n).run b =
      (.ok (), { b with stackTop := b.stackTop - BitVec.ofNat 64 (8 * n) }) := rfl
  have hacc : ¬s.Accessible (b.stackTop - BitVec.ofNat 64 (8 * n)) := by
    rw [StackMap.Accessible, BitVec.toNat_sub, BitVec.toNat_ofNat]
    simp only [stackSize, stackGuard] at *
    omega
  obtain ⟨k, rfl⟩ := Nat.exists_eq_succ_of_ne_zero (Nat.ne_of_gt hpos)
  rw [pushVector, Prog.run_bind_of_ok hlower, Prog.forRange, Prog.loopFrom, Prog.run_bind,
    Prog.run_bind_of_ok (Prog.run_get _), Nat.mul_zero, BitVec.add_zero, poke, if_neg hacc]
  rfl

/-- An image of exactly `STACK_SIZE` bytes is not built. -/
theorem setupStack_segv_full :
    ∃ (argv : List Word) (environ : Environ), 1 ≤ argv.length ∧
      8 * imageWords argv environ ≤ stackSize ∧
      ∀ mem, ((setupStack sampleStack sampleAux argv environ).run
        (stackStart sampleStack mem)).1 = .error .segv := by
  have hlen : (List.replicate 0x1fffde (0x3000 : Word)).length = 0x1fffde :=
    List.length_replicate
  refine ⟨List.replicate 0x1fffde 0x3000, ⟨[], by simp⟩, by rw [hlen]; decide,
    by rw [imageWords, hlen]; decide, ?_⟩
  intro mem
  obtain ⟨pad, b, hpad, hb, hrun⟩ := setupStack_environ sampleStack sampleAux
    (List.replicate 0x1fffde 0x3000) ⟨[], by simp⟩ mem (by rw [hlen, Fits]; decide)
  rw [hlen] at hpad hrun
  have hwords := length_auxWords (auxVector sampleAux).reverse
  rw [List.length_reverse, length_auxVector] at hwords
  have hsegv : ((pushVector sampleStack 0x1fffde
      ((List.replicate 0x1fffde (0x3000 : Word)).getD · 0)).run b).1 = .error .segv :=
    pushVector_segv hb (by decide)
      (by simp only [List.length_cons, List.length_append, hwords, hpad, List.length_nil]; decide)
      (by simp only [List.length_cons, List.length_append, hwords, hpad, List.length_nil]; decide)
  rw [hrun, Prog.run_bind]
  generalize (pushVector sampleStack 0x1fffde _).run b = r at hsegv
  obtain ⟨out, b'⟩ := r
  obtain rfl : out = .error .segv := hsegv
  rfl

end PollyInstrew.Client
