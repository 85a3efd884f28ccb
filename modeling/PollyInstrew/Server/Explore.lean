import Mathlib.Data.Fintype.Card
import PollyInstrew.Server.Predecode

/-!
# What pre-decoding explores

The instructions `Predecode` lists are those control flow reaches from the
start address, each once.  An instruction starts a block unless it only follows
the normal instruction listed before it.
-/

namespace PollyInstrew.Server

open PollyInstrew.ByteMemory

/-! ## Control flow -/

/-- Where control goes after the instruction at `addr`. -/
def successors (callret : Bool) (g : Guest) (addr : Word) : List Word :=
  let res := g.decode addr
  match res.result with
  | .normal => [res.next addr]
  | .branch => [res.branchTarget]
  | .condBranch => [res.branchTarget, res.next addr]
  | .call => if callret then [res.next addr] else []
  | .unknownTgt => []
  | .failed => []

/-- An instruction decodes at `addr`. -/
def Guest.Decodes (g : Guest) (addr : Word) : Prop := (g.decode addr).result ≠ .failed

instance (g : Guest) (addr : Word) : Decidable (g.Decodes addr) :=
  inferInstanceAs (Decidable (_ ≠ _))

def Guest.IsNormal (g : Guest) (addr : Word) : Prop := (g.decode addr).result = .normal

instance (g : Guest) (addr : Word) : Decidable (g.IsNormal addr) :=
  inferInstanceAs (Decidable (_ = _))

/-- The successors `Predecode` follows: none, only those of normal instructions
or all, depending on the granularity. -/
def explored (cfg : PredecodeConfig) (g : Guest) (addr : Word) : List Word :=
  if cfg.granularity ≤ 0 ∨ (cfg.granularity ≤ 1 ∧ ¬g.IsNormal addr) then []
  else successors cfg.callret g addr

/-- Control reaches the address along explored successors. -/
def Reached (cfg : PredecodeConfig) (g : Guest) (start : Word) : Word → Prop :=
  Relation.ReflTransGen (fun a b => b ∈ explored cfg g a) start

theorem successors_normal {callret : Bool} {g : Guest} {addr : Word} (h : g.IsNormal addr) :
    successors callret g addr = [(g.decode addr).next addr] := by
  unfold Guest.IsNormal at h
  simp [successors, h]

theorem explored_normal {cfg : PredecodeConfig} {g : Guest} {addr : Word}
    (hgran : 0 < cfg.granularity) (h : g.IsNormal addr) :
    explored cfg g addr = [(g.decode addr).next addr] := by
  have hcond : ¬(cfg.granularity ≤ 0 ∨ (cfg.granularity ≤ 1 ∧ ¬g.IsNormal addr)) := by
    rintro (hle | ⟨-, hn⟩)
    · omega
    · exact hn h
  rw [explored, if_neg hcond, successors_normal h]

theorem explored_eq_successors {cfg : PredecodeConfig} (hgran : 2 ≤ cfg.granularity)
    (g : Guest) (addr : Word) : explored cfg g addr = successors cfg.callret g addr := by
  rw [explored, if_neg (by rintro (hle | ⟨hle, -⟩) <;> omega)]

theorem granularity_pos_of_mem_explored {cfg : PredecodeConfig} {g : Guest} {a b : Word}
    (h : b ∈ explored cfg g a) :
    0 < cfg.granularity ∧ (g.IsNormal a ∨ 2 ≤ cfg.granularity) := by
  unfold explored at h
  split at h
  · exact absurd h List.not_mem_nil
  · next hcond =>
    rw [not_or, not_and_or, not_not] at hcond
    refine ⟨by omega, ?_⟩
    rcases hcond.2 with hgran | hnormal
    · exact Or.inr (by omega)
    · exact Or.inl hnormal

theorem decodes_of_mem_explored {cfg : PredecodeConfig} {g : Guest} {a b : Word}
    (h : b ∈ explored cfg g a) : g.Decodes a := by
  intro hfail
  simp [explored, successors, hfail] at h

/-! ## One round of the inner loop -/

/-- Addresses an instruction that ends its block adds to the queue. -/
def pushed (cfg : PredecodeConfig) (g : Guest) (addr : Word) : List Word :=
  if cfg.granularity ≤ 0 ∨ g.IsNormal addr then [] else successors cfg.callret g addr

theorem pushed_eq_explored {cfg : PredecodeConfig} (hgran : 2 ≤ cfg.granularity) {g : Guest}
    {addr : Word} (hn : ¬g.IsNormal addr) : pushed cfg g addr = explored cfg g addr := by
  have hcond : ¬(cfg.granularity ≤ 0 ∨ g.IsNormal addr) := by
    rintro (hle | hn')
    · omega
    · exact hn hn'
  rw [pushed, if_neg hcond, explored_eq_successors hgran]

theorem decodeBlock_succ (cfg : PredecodeConfig) (g : Guest) (start : Word) (fuel : ℕ)
    (addr : Word) (newBlock : Bool) (s : Predecoder) :
    decodeBlock cfg g start (fuel + 1) addr newBlock s =
      match s.addrMap addr with
      | some idx => some (s.setNewBlock idx)
      | none =>
          if ¬g.Decodes addr then some s
          else if 0 < cfg.granularity ∧ g.IsNormal addr then
            decodeBlock cfg g start fuel ((g.decode addr).next addr) false
              (s.addInst g start addr newBlock)
          else some ((s.addInst g start addr newBlock).enqueue (pushed cfg g addr)) := by
  have hnil : ∀ t : Predecoder, t.enqueue [] = t := by
    intro t
    simp [Predecoder.enqueue]
  rw [decodeBlock]
  cases s.addrMap addr with
  | some idx => rfl
  | none =>
      unfold pushed successors
      obtain ⟨kind, hres⟩ : ∃ kind, (g.decode addr).result = kind := ⟨_, rfl⟩
      by_cases hgran : cfg.granularity ≤ 0
      · cases kind <;>
          simp [Guest.Decodes, hres, hgran, hnil, Int.not_lt.mpr hgran]
      · have hpos : 0 < cfg.granularity := by omega
        cases hcall : cfg.callret <;> cases kind <;>
          simp [Guest.Decodes, Guest.IsNormal, hres, hgran, hpos, hnil]

/-! ## The invariant -/

def Predecoder.addrs (s : Predecoder) : List Word := s.insts.map DecodedInst.addr

def Predecoder.flags (s : Predecoder) : List Bool := s.insts.map DecodedInst.newBlock

theorem addrs_eq_some {s : Predecoder} {k : ℕ} {inst : DecodedInst}
    (hk : s.insts[k]? = some inst) : s.addrs[k]? = some inst.addr := by
  rw [Predecoder.addrs, List.getElem?_map, hk]
  rfl

theorem flags_eq_some {s : Predecoder} {k : ℕ} {inst : DecodedInst}
    (hk : s.insts[k]? = some inst) : s.flags[k]? = some inst.newBlock := by
  rw [Predecoder.flags, List.getElem?_map, hk]
  rfl

@[simp] theorem length_flags (s : Predecoder) : s.flags.length = s.addrs.length := by
  simp [Predecoder.flags, Predecoder.addrs]

@[simp] theorem addrs_setNewBlock (s : Predecoder) (idx : ℕ) :
    (s.setNewBlock idx).addrs = s.addrs := by
  apply List.ext_getElem?
  intro k
  simp only [Predecoder.addrs, Predecoder.setNewBlock, List.getElem?_map,
    List.getElem?_modify]
  split
  · cases s.insts[k]? <;> rfl
  · cases s.insts[k]? <;> rfl

theorem flags_setNewBlock (s : Predecoder) (idx k : ℕ) :
    (s.setNewBlock idx).flags[k]? = (s.flags[k]?).map fun b => b || decide (k = idx) := by
  simp only [Predecoder.flags, Predecoder.setNewBlock, List.getElem?_map,
    List.getElem?_modify]
  cases s.insts[k]? with
  | none => simp
  | some inst =>
      by_cases h : idx = k
      · simp [h]
      · simp [h, Ne.symm h]

@[simp] theorem addrs_addInst (s : Predecoder) (g : Guest) (start addr : Word) (nb : Bool) :
    (s.addInst g start addr nb).addrs = s.addrs ++ [addr] := by
  simp [Predecoder.addrs, Predecoder.addInst]

@[simp] theorem flags_addInst (s : Predecoder) (g : Guest) (start addr : Word) (nb : Bool) :
    (s.addInst g start addr nb).flags = s.flags ++ [nb] := by
  simp [Predecoder.flags, Predecoder.addInst]

@[simp] theorem addrs_enqueue (s : Predecoder) (l : List Word) :
    (s.enqueue l).addrs = s.addrs := rfl

@[simp] theorem flags_enqueue (s : Predecoder) (l : List Word) :
    (s.enqueue l).flags = s.flags := rfl

theorem getElem?_concat_eq_some {α : Type*} {l : List α} {x a : α} {k : ℕ} :
    (l ++ [x])[k]? = some a ↔ l[k]? = some a ∨ (k = l.length ∧ x = a) := by
  rcases Nat.lt_trichotomy k l.length with hlt | rfl | hgt
  · rw [List.getElem?_append_left hlt]
    simp [Nat.ne_of_lt hlt]
  · simp
  · rw [List.getElem?_eq_none (by simp; omega), List.getElem?_eq_none (by omega)]
    simp [Nat.ne_of_gt hgt]

theorem flags_concat_eq_some {s : Predecoder} {nb b : Bool} {k : ℕ} :
    (s.flags ++ [nb])[k]? = some b ↔
      s.flags[k]? = some b ∨ (k = s.addrs.length ∧ nb = b) := by
  rw [getElem?_concat_eq_some, length_flags]

/-- The pending address after the instruction at `addr` has been added. -/
def nextPending (cfg : PredecodeConfig) (g : Guest) (addr : Word) : Option (Word × Bool) :=
  if 0 < cfg.granularity ∧ g.IsNormal addr then some ((g.decode addr).next addr, false)
  else none

theorem nextPending_ne_block {cfg : PredecodeConfig} {g : Guest} {addr : Word} (y : Word) :
    nextPending cfg g addr ≠ some (y, true) := by
  unfold nextPending
  split <;> simp

section Explore

variable (cfg : PredecodeConfig) (g : Guest) (start : Word)

/-- `addr` is the start or follows an instruction of `addrs` that is not normal. -/
def JumpTarget (addrs : List Word) (addr : Word) : Prop :=
  addr = start ∨ ∃ a ∈ addrs, ¬g.IsNormal a ∧ addr ∈ explored cfg g a

/-- A normal instruction, not the one right before index `j`, falls through to
`addr`. -/
def NormalJoin (addrs : List Word) (j : ℕ) (addr : Word) : Prop :=
  ∃ k a, addrs[k]? = some a ∧ g.IsNormal a ∧ addr ∈ explored cfg g a ∧ k + 1 ≠ j

/-- The successor `y` of the instruction at index `k` is taken care of. -/
inductive Settled (s : Predecoder) (pending : Option (Word × Bool)) (k : ℕ) (a y : Word) :
    Prop
  | queued (hgran : 2 ≤ cfg.granularity) (hq : y ∈ s.addrQueue)
  | pendingBlock (hp : pending = some (y, true))
  | pendingNext (hp : pending = some (y, false)) (hn : g.IsNormal a)
      (hk : k + 1 = s.addrs.length)
  | undecodable (hy : ¬g.Decodes y)
  | flagged {j : ℕ} (hj : s.addrs[j]? = some y) (hf : s.flags[j]? = some true)
  | next (hj : s.addrs[k + 1]? = some y) (hn : g.IsNormal a)

/-- What holds while `Predecode` runs; `pending` is the address decoded next
within a block, with the flag it would get. -/
structure ExploreInv (s : Predecoder) (pending : Option (Word × Bool)) : Prop where
  map_iff : ∀ a i, s.addrMap a = some i ↔ s.addrs[i]? = some a
  decodes : ∀ a ∈ s.addrs, g.Decodes a
  sizes : ∀ inst ∈ s.insts, inst.size = (g.decode inst.addr).size
  reached : ∀ a ∈ s.addrs, Reached cfg g start a
  queue : 2 ≤ cfg.granularity → ∀ q ∈ s.addrQueue, JumpTarget cfg g start s.addrs q
  chained : ∀ k a, s.addrs[k + 1]? = some a →
    s.flags[k + 1]? = some false ∨ cfg.granularity ≤ 1 →
    ∃ prev, s.addrs[k]? = some prev ∧ g.IsNormal prev ∧ (g.decode prev).next prev = a
  first : s.flags[0]? ≠ some false
  closed : ∀ k a, s.addrs[k]? = some a → ∀ y ∈ explored cfg g a,
    Settled cfg g s pending k a y
  flagged : ∀ j a, s.addrs[j]? = some a → s.flags[j]? = some true →
    JumpTarget cfg g start s.addrs a ∨ NormalJoin cfg g s.addrs j a
  start_done : pending = some (start, true) ∨ ¬g.Decodes start ∨
    ∃ j : ℕ, s.addrs[j]? = some start ∧ s.flags[j]? = some true
  block : ∀ y, pending = some (y, true) → JumpTarget cfg g start s.addrs y
  fresh : cfg.granularity ≤ 1 → ∀ y, pending = some (y, true) → s.addrs = []
  follow : ∀ y, pending = some (y, false) → ∃ prev, s.addrs.getLast? = some prev ∧
    g.IsNormal prev ∧ y ∈ explored cfg g prev

variable {cfg g start}

theorem JumpTarget.mono {addrs addrs' : List Word} (hsub : ∀ a ∈ addrs, a ∈ addrs')
    {addr : Word} (h : JumpTarget cfg g start addrs addr) :
    JumpTarget cfg g start addrs' addr := by
  rcases h with h | ⟨a, ha, hn, he⟩
  · exact Or.inl h
  · exact Or.inr ⟨a, hsub a ha, hn, he⟩

theorem NormalJoin.append {addrs : List Word} {j : ℕ} {addr : Word}
    (h : NormalJoin cfg g addrs j addr) (l : List Word) :
    NormalJoin cfg g (addrs ++ l) j addr := by
  obtain ⟨k, a, hk, hn, he, hne⟩ := h
  have hlt := (List.getElem?_eq_some_iff.mp hk).1
  exact ⟨k, a, by rw [List.getElem?_append_left hlt]; exact hk, hn, he, hne⟩

variable {s : Predecoder} {addr : Word} {nb : Bool}
  (h : ExploreInv cfg g start s (some (addr, nb)))
include h

/-- The pending address is reachable. -/
theorem ExploreInv.pending_reached : Reached cfg g start addr := by
  cases nb with
  | true =>
      rcases h.block addr rfl with rfl | ⟨a, ha, -, he⟩
      · exact Relation.ReflTransGen.refl
      · exact (h.reached a ha).tail he
  | false =>
      obtain ⟨prev, hprev, -, he⟩ := h.follow addr rfl
      exact (h.reached prev (List.mem_of_getLast? hprev)).tail he

/-- The pending address does not decode: its block ends. -/
theorem ExploreInv.fail (hfail : ¬g.Decodes addr) : ExploreInv cfg g start s none := by
  refine
    { h with
      closed := ?_
      start_done := ?_
      block := by simp
      fresh := by simp
      follow := by simp }
  · intro k a hk y hy
    cases h.closed k a hk y hy with
    | queued hgran hq => exact .queued hgran hq
    | pendingBlock hp =>
        obtain ⟨rfl, -⟩ := Prod.mk.inj (Option.some.inj hp)
        exact .undecodable hfail
    | pendingNext hp =>
        obtain ⟨rfl, -⟩ := Prod.mk.inj (Option.some.inj hp)
        exact .undecodable hfail
    | undecodable hy => exact .undecodable hy
    | flagged hj hf => exact .flagged hj hf
    | next hj hn => exact .next hj hn
  · rcases h.start_done with hp | hrest
    · obtain ⟨rfl, -⟩ := Prod.mk.inj (Option.some.inj hp)
      exact Or.inr (Or.inl hfail)
    · exact Or.inr hrest

/-- The pending address has been decoded before: it starts a block. -/
theorem ExploreInv.hit {idx : ℕ} (hidx : s.addrMap addr = some idx) :
    ExploreInv cfg g start (s.setNewBlock idx) none := by
  have haddr := (h.map_iff addr idx).mp hidx
  have hlt := (List.getElem?_eq_some_iff.mp haddr).1
  have hset : (s.setNewBlock idx).flags[idx]? = some true := by
    obtain ⟨b, hb⟩ : ∃ b, s.flags[idx]? = some b :=
      ⟨_, List.getElem?_eq_getElem (by rw [length_flags]; exact hlt)⟩
    rw [flags_setNewBlock, hb]
    simp
  have hkeep : ∀ {j : ℕ}, s.flags[j]? = some true →
      (s.setNewBlock idx).flags[j]? = some true := by
    intro j hj
    rw [flags_setNewBlock, hj]
    rfl
  have hfalse : ∀ {j : ℕ}, (s.setNewBlock idx).flags[j]? = some false →
      s.flags[j]? = some false := by
    intro j hj
    rw [flags_setNewBlock] at hj
    obtain ⟨b, hb, hor⟩ := Option.map_eq_some_iff.mp hj
    rw [hb, (Bool.or_eq_false_iff.mp hor).1]
  have htrue : ∀ {j : ℕ}, (s.setNewBlock idx).flags[j]? = some true → j ≠ idx →
      s.flags[j]? = some true := by
    intro j hj hne
    rw [flags_setNewBlock] at hj
    obtain ⟨b, hb, hor⟩ := Option.map_eq_some_iff.mp hj
    rw [hb]
    simpa [hne] using hor
  refine
    { map_iff := by rw [addrs_setNewBlock]; exact h.map_iff
      decodes := by rw [addrs_setNewBlock]; exact h.decodes
      sizes := ?_
      reached := by rw [addrs_setNewBlock]; exact h.reached
      queue := by rw [addrs_setNewBlock]; exact h.queue
      chained := ?_
      first := fun hf => h.first (hfalse hf)
      closed := ?_
      flagged := ?_
      start_done := ?_
      block := by simp
      fresh := by simp
      follow := by simp }
  · intro inst hinst
    obtain ⟨k, hk⟩ := List.mem_iff_getElem?.mp hinst
    simp only [Predecoder.setNewBlock, List.getElem?_modify] at hk
    obtain ⟨old, hold, rfl⟩ := Option.map_eq_some_iff.mp hk
    have := h.sizes old (List.mem_of_getElem? hold)
    split
    · exact this
    · exact this
  · intro k a hk hf
    rw [addrs_setNewBlock] at hk ⊢
    exact h.chained k a hk (hf.imp_left hfalse)
  · intro k a hk y hy
    rw [addrs_setNewBlock] at hk
    cases h.closed k a hk y hy with
    | queued hgran hq => exact .queued hgran hq
    | pendingBlock hp =>
        obtain ⟨rfl, -⟩ := Prod.mk.inj (Option.some.inj hp)
        exact .flagged (by rw [addrs_setNewBlock]; exact haddr) hset
    | pendingNext hp =>
        obtain ⟨rfl, -⟩ := Prod.mk.inj (Option.some.inj hp)
        exact .flagged (by rw [addrs_setNewBlock]; exact haddr) hset
    | undecodable hy => exact .undecodable hy
    | flagged hj hf => exact .flagged (by rw [addrs_setNewBlock]; exact hj) (hkeep hf)
    | next hj hn => exact .next (by rw [addrs_setNewBlock]; exact hj) hn
  · intro j a hj hf
    rw [addrs_setNewBlock] at hj ⊢
    by_cases hne : j = idx
    · subst hne
      rw [haddr] at hj
      obtain rfl := Option.some.inj hj
      cases nb with
      | true => exact Or.inl (h.block addr rfl)
      | false =>
          obtain ⟨prev, hprev, hn, he⟩ := h.follow addr rfl
          refine Or.inr ⟨s.addrs.length - 1, prev, ?_, hn, he, by omega⟩
          rw [← List.getLast?_eq_getElem?]
          exact hprev
    · exact h.flagged j a hj (htrue hf hne)
  · rw [addrs_setNewBlock]
    rcases h.start_done with hp | hfail | ⟨j, hj, hf⟩
    · obtain ⟨rfl, -⟩ := Prod.mk.inj (Option.some.inj hp)
      exact Or.inr (Or.inr ⟨idx, haddr, hset⟩)
    · exact Or.inr (Or.inl hfail)
    · exact Or.inr (Or.inr ⟨j, hj, hkeep hf⟩)

theorem ExploreInv.add_map_iff (hnew : s.addrMap addr = none) (a : Word) (i : ℕ) :
    (s.addInst g start addr nb).addrMap a = some i ↔ (s.addrs ++ [addr])[i]? = some a := by
  change Function.update s.addrMap addr (some s.insts.length) a = some i ↔ _
  have hlen : s.insts.length = s.addrs.length := by simp [Predecoder.addrs]
  rw [getElem?_concat_eq_some, hlen]
  by_cases ha : a = addr
  · subst ha
    rw [Function.update_self, Option.some.injEq]
    constructor
    · rintro rfl
      exact Or.inr ⟨rfl, rfl⟩
    · rintro (hi | ⟨rfl, -⟩)
      · rw [(h.map_iff a i).mpr hi] at hnew
        cases hnew
      · rfl
  · rw [Function.update_of_ne ha, h.map_iff]
    simp [Ne.symm ha]

theorem ExploreInv.add_queue (hgran : 2 ≤ cfg.granularity) {q : Word}
    (hq : q ∈ s.addrQueue ++ pushed cfg g addr) :
    JumpTarget cfg g start (s.addrs ++ [addr]) q := by
  rcases List.mem_append.mp hq with hq | hq
  · exact (h.queue hgran q hq).mono fun a ha => List.mem_append_left _ ha
  · by_cases hn : g.IsNormal addr
    · rw [pushed, if_pos (Or.inr hn)] at hq
      exact absurd hq List.not_mem_nil
    · rw [pushed_eq_explored hgran hn] at hq
      exact Or.inr ⟨addr, by simp, hn, hq⟩

/-- An instruction that does not start a block follows the one before it. -/
theorem ExploreInv.add_chained {k : ℕ} {a : Word} (hk : (s.addrs ++ [addr])[k + 1]? = some a)
    (hf : (s.flags ++ [nb])[k + 1]? = some false ∨ cfg.granularity ≤ 1) :
    ∃ prev, (s.addrs ++ [addr])[k]? = some prev ∧ g.IsNormal prev ∧
      (g.decode prev).next prev = a := by
  rcases getElem?_concat_eq_some.mp hk with hk | ⟨hlen, rfl⟩
  · have hlt := (List.getElem?_eq_some_iff.mp hk).1
    have hold : s.flags[k + 1]? = some false ∨ cfg.granularity ≤ 1 := by
      refine hf.imp_left fun hf => ?_
      rcases flags_concat_eq_some.mp hf with hf | ⟨hlen, -⟩
      · exact hf
      · omega
    obtain ⟨prev, hprev, hn, hnext⟩ := h.chained k a hk hold
    exact ⟨prev, getElem?_concat_eq_some.mpr (Or.inl hprev), hn, hnext⟩
  · cases nb with
    | true =>
        rcases hf with hf | hgran
        · rcases flags_concat_eq_some.mp hf with hf | ⟨-, hfalse⟩
          · have hlt := (List.getElem?_eq_some_iff.mp hf).1
            rw [length_flags] at hlt
            omega
          · cases hfalse
        · rw [h.fresh hgran addr rfl] at hlen
          cases hlen
    | false =>
        obtain ⟨prev, hprev, hn, he⟩ := h.follow addr rfl
        rw [explored_normal (granularity_pos_of_mem_explored he).1 hn,
          List.mem_singleton] at he
        rw [List.getLast?_eq_getElem?, ← hlen, Nat.add_sub_cancel] at hprev
        exact ⟨prev, getElem?_concat_eq_some.mpr (Or.inl hprev), hn, he.symm⟩

theorem ExploreInv.add_first : (s.flags ++ [nb])[0]? ≠ some false := by
  intro hf
  rcases flags_concat_eq_some.mp hf with hf | ⟨hlen, rfl⟩
  · exact h.first hf
  · obtain ⟨prev, hprev, -, -⟩ := h.follow addr rfl
    rw [List.getLast?_eq_getElem?] at hprev
    have := (List.getElem?_eq_some_iff.mp hprev).1
    omega

/-- The successors of the new instruction are pending or queued, those that were
pending are settled by it. -/
theorem ExploreInv.add_closed {k : ℕ} {a : Word} (hk : (s.addrs ++ [addr])[k]? = some a)
    {y : Word} (hy : y ∈ explored cfg g a) :
    Settled cfg g ((s.addInst g start addr nb).enqueue (pushed cfg g addr))
      (nextPending cfg g addr) k a y := by
  rcases getElem?_concat_eq_some.mp hk with hk | ⟨rfl, rfl⟩
  · cases h.closed k a hk y hy with
    | queued hgran hq => exact .queued hgran (List.mem_append_left _ hq)
    | pendingBlock hp =>
        cases hp
        refine .flagged (j := s.addrs.length) ?_ ?_
        · simp
        · simp only [flags_enqueue, flags_addInst]
          exact flags_concat_eq_some.mpr (Or.inr ⟨rfl, rfl⟩)
    | pendingNext hp hn hlen =>
        cases hp
        refine .next ?_ hn
        rw [hlen]
        simp
    | undecodable hy => exact .undecodable hy
    | @flagged j hj hf =>
        refine .flagged (j := j) ?_ ?_
        · simp only [addrs_enqueue, addrs_addInst]
          exact getElem?_concat_eq_some.mpr (Or.inl hj)
        · simp only [flags_enqueue, flags_addInst]
          exact getElem?_concat_eq_some.mpr (Or.inl hf)
    | next hj hn =>
        refine .next ?_ hn
        simp only [addrs_enqueue, addrs_addInst]
        exact getElem?_concat_eq_some.mpr (Or.inl hj)
  · obtain ⟨hgran, hkind⟩ := granularity_pos_of_mem_explored hy
    by_cases hn : g.IsNormal addr
    · rw [explored_normal hgran hn, List.mem_singleton] at hy
      refine .pendingNext ?_ hn (by simp)
      rw [nextPending, if_pos ⟨hgran, hn⟩, hy]
    · have hgran2 := hkind.resolve_left hn
      refine .queued hgran2 (List.mem_append_right _ ?_)
      rw [pushed_eq_explored hgran2 hn]
      exact hy

theorem ExploreInv.add_flagged {j : ℕ} {a : Word} (hj : (s.addrs ++ [addr])[j]? = some a)
    (hf : (s.flags ++ [nb])[j]? = some true) :
    JumpTarget cfg g start (s.addrs ++ [addr]) a ∨ NormalJoin cfg g (s.addrs ++ [addr]) j a := by
  have hsub : ∀ a ∈ s.addrs, a ∈ s.addrs ++ [addr] := fun a ha => List.mem_append_left _ ha
  rcases getElem?_concat_eq_some.mp hj with hj | ⟨rfl, rfl⟩
  · have hlt := (List.getElem?_eq_some_iff.mp hj).1
    rcases flags_concat_eq_some.mp hf with hf | ⟨hlen, -⟩
    · exact (h.flagged j a hj hf).imp (JumpTarget.mono hsub) (NormalJoin.append · _)
    · omega
  · rcases flags_concat_eq_some.mp hf with hf | ⟨-, rfl⟩
    · have hlt := (List.getElem?_eq_some_iff.mp hf).1
      rw [length_flags] at hlt
      omega
    · exact Or.inl ((h.block addr rfl).mono hsub)

theorem ExploreInv.add_start_done :
    ¬g.Decodes start ∨ ∃ j : ℕ, (s.addrs ++ [addr])[j]? = some start ∧
      (s.flags ++ [nb])[j]? = some true := by
  rcases h.start_done with hp | hfail | ⟨j, hj, hf⟩
  · cases hp
    exact Or.inr ⟨s.addrs.length, getElem?_concat_eq_some.mpr (Or.inr ⟨rfl, rfl⟩),
      flags_concat_eq_some.mpr (Or.inr ⟨rfl, rfl⟩)⟩
  · exact Or.inl hfail
  · exact Or.inr ⟨j, getElem?_concat_eq_some.mpr (Or.inl hj),
      getElem?_concat_eq_some.mpr (Or.inl hf)⟩

/-- The pending address decodes: the instruction is added. -/
theorem ExploreInv.add (hnew : s.addrMap addr = none) (hdec : g.Decodes addr) :
    ExploreInv cfg g start ((s.addInst g start addr nb).enqueue (pushed cfg g addr))
      (nextPending cfg g addr) := by
  have hmem : ∀ {P : Word → Prop}, (∀ a ∈ s.addrs, P a) → P addr →
      ∀ a ∈ s.addrs ++ [addr], P a := by
    intro P hold haddr a ha
    rcases List.mem_append.mp ha with ha | ha
    · exact hold a ha
    · rw [List.mem_singleton.mp ha]
      exact haddr
  refine
    { map_iff := ?map_iff
      decodes := ?decodes
      sizes := ?sizes
      reached := ?reached
      queue := ?queue
      chained := ?chained
      first := ?first
      closed := ?closed
      flagged := ?flagged
      start_done := ?start_done
      block := ?block
      fresh := ?fresh
      follow := ?follow }
  case sizes =>
    intro inst hinst
    rcases List.mem_append.mp hinst with hinst | hinst
    · exact h.sizes inst hinst
    · rw [List.mem_singleton.mp hinst]
  all_goals simp only [addrs_enqueue, flags_enqueue, addrs_addInst, flags_addInst]
  case map_iff => exact h.add_map_iff hnew
  case decodes => exact hmem h.decodes hdec
  case reached => exact hmem h.reached h.pending_reached
  case queue => exact fun hgran q hq => h.add_queue hgran hq
  case chained => exact fun k a hk hf => h.add_chained hk hf
  case first => exact h.add_first
  case closed => exact fun k a hk y hy => h.add_closed hk hy
  case flagged => exact fun j a hj hf => h.add_flagged hj hf
  case start_done => exact Or.inr h.add_start_done
  case block => exact fun y hp => absurd hp (nextPending_ne_block y)
  case fresh => exact fun _ y hp => absurd hp (nextPending_ne_block y)
  case follow =>
    intro y hp
    unfold nextPending at hp
    split at hp
    · next hcond =>
      obtain ⟨rfl, -⟩ := Prod.mk.inj (Option.some.inj hp)
      refine ⟨addr, by simp, hcond.2, ?_⟩
      rw [explored_normal hcond.1 hcond.2]
      exact List.mem_singleton_self _
    · cases hp

/-- A normal instruction is added within its block. -/
theorem ExploreInv.add_next (hnew : s.addrMap addr = none) (hdec : g.Decodes addr)
    (hcont : 0 < cfg.granularity ∧ g.IsNormal addr) :
    ExploreInv cfg g start (s.addInst g start addr nb)
      (some ((g.decode addr).next addr, false)) := by
  have hadd := h.add hnew hdec
  have hnil : pushed cfg g addr = [] := if_pos (Or.inr hcont.2)
  rw [nextPending, if_pos hcont, hnil] at hadd
  simpa [Predecoder.enqueue] using hadd

end Explore

/-! ## Runs of the loops -/

theorem length_pushed_le (cfg : PredecodeConfig) (g : Guest) (addr : Word) :
    (pushed cfg g addr).length ≤ 2 := by
  unfold pushed successors
  dsimp only
  split
  · exact Nat.zero_le _
  · cases cfg.callret <;> cases (g.decode addr).result <;> simp

section Loops

variable {cfg : PredecodeConfig} {g : Guest} {start : Word}

theorem ExploreInv.nodup {s : Predecoder} {p : Option (Word × Bool)}
    (h : ExploreInv cfg g start s p) : s.addrs.Nodup := by
  rw [List.nodup_iff_injective_get]
  intro i j hij
  have hi : s.addrMap (s.addrs.get i) = some i.val :=
    (h.map_iff _ _).mpr (List.getElem?_eq_getElem i.isLt)
  have hj : s.addrMap (s.addrs.get j) = some j.val :=
    (h.map_iff _ _).mpr (List.getElem?_eq_getElem j.isLt)
  rw [hij, hj] at hi
  exact Fin.ext (Option.some.inj hi).symm

/-- There are only so many addresses. -/
theorem ExploreInv.length_le {s : Predecoder} {p : Option (Word × Bool)}
    (h : ExploreInv cfg g start s p) : s.addrs.length ≤ 2 ^ 64 := by
  have hinj : Function.Injective (BitVec.toFin (w := 64)) :=
    fun _ _ heq => BitVec.eq_of_toFin_eq heq
  have hle := (h.nodup.map hinj).length_le_card
  rwa [List.length_map, Fintype.card_fin] at hle

/-- What the inner loop does with the sizes of list and queue. -/
structure BlockGrowth (s s' : Predecoder) : Prop where
  addrs_le : s.addrs.length ≤ s'.addrs.length
  queue_le : s'.addrQueue.length + 2 * s.addrs.length ≤
    s.addrQueue.length + 2 * s'.addrs.length

theorem decodeBlock_ok :
    ∀ (fuel : ℕ) {s : Predecoder} {addr : Word} {nb : Bool},
      ExploreInv cfg g start s (some (addr, nb)) → 2 ^ 64 < fuel + s.addrs.length →
      ∃ s', decodeBlock cfg g start fuel addr nb s = some s' ∧
        ExploreInv cfg g start s' none ∧ BlockGrowth s s' := by
  intro fuel
  induction fuel with
  | zero =>
      intro s addr nb h hfuel
      have := h.length_le
      omega
  | succ fuel ih =>
      intro s addr nb h hfuel
      rw [decodeBlock_succ]
      cases hmap : s.addrMap addr with
      | some idx =>
          refine ⟨_, rfl, h.hit hmap, ⟨?_, ?_⟩⟩
          · rw [addrs_setNewBlock]
          · rw [addrs_setNewBlock]
            exact Nat.le_refl _
      | none =>
          dsimp only
          by_cases hdec : g.Decodes addr
          swap
          · rw [if_pos hdec]
            exact ⟨s, rfl, h.fail hdec, ⟨Nat.le_refl _, Nat.le_refl _⟩⟩
          rw [if_neg (not_not.mpr hdec)]
          have hpush := length_pushed_le cfg g addr
          by_cases hcont : 0 < cfg.granularity ∧ g.IsNormal addr
          · rw [if_pos hcont]
            obtain ⟨s', hrun, hinv, hgrow⟩ :=
              ih (h.add_next hmap hdec hcont) (by simp; omega)
            refine ⟨s', hrun, hinv, ?_, ?_⟩
            · have := hgrow.addrs_le
              rw [addrs_addInst, List.length_append, List.length_singleton] at this
              omega
            · have := hgrow.queue_le
              rw [addrs_addInst, List.length_append, List.length_singleton] at this
              change _ ≤ s.addrQueue.length + _ at this
              omega
          · rw [if_neg hcont]
            have hadd := h.add hmap hdec
            rw [nextPending, if_neg hcont] at hadd
            refine ⟨_, rfl, hadd, ?_, ?_⟩
            · simp
            · simp only [addrs_enqueue, addrs_addInst, List.length_append,
                List.length_singleton]
              change (s.addrQueue ++ pushed cfg g addr).length + _ ≤ _
              rw [List.length_append]
              omega

/-- Taking the next address out of the queue. -/
theorem ExploreInv.pop {s : Predecoder} (hgran : 2 ≤ cfg.granularity)
    (h : ExploreInv cfg g start s none) {addr : Word} {rest : List Word}
    (hq : s.addrQueue = addr :: rest) :
    ExploreInv cfg g start { s with addrQueue := rest } (some (addr, true)) := by
  have hmem : ∀ q ∈ rest, q ∈ s.addrQueue := by
    intro q hmem
    rw [hq]
    exact List.mem_cons_of_mem _ hmem
  refine
    { h with
      queue := fun hg q hr => h.queue hg q (hmem q hr)
      closed := ?_
      start_done := Or.inr (h.start_done.resolve_left (by simp))
      block := ?_
      fresh := by omega
      follow := by simp }
  · intro k a hk y hy
    cases h.closed k a hk y hy with
    | queued hg hy =>
        rw [hq] at hy
        rcases List.mem_cons.mp hy with rfl | hy
        · exact .pendingBlock rfl
        · exact .queued hg hy
    | pendingBlock hp => cases hp
    | pendingNext hp => cases hp
    | undecodable hy => exact .undecodable hy
    | flagged hj hf => exact .flagged hj hf
    | next hj hn => exact .next hj hn
  · intro y hp
    obtain ⟨rfl, -⟩ := Prod.mk.inj (Option.some.inj hp)
    exact h.queue hgran addr (by rw [hq]; exact List.mem_cons_self)

theorem decodeQueue_ok (hgran : 2 ≤ cfg.granularity) :
    ∀ (fuel : ℕ) {s : Predecoder}, ExploreInv cfg g start s none →
      s.addrQueue.length + 2 * 2 ^ 64 < fuel + 2 * s.addrs.length →
      ∃ s', decodeQueue cfg g start fuel s = some s' ∧ ExploreInv cfg g start s' none ∧
        s'.addrQueue = [] := by
  intro fuel
  induction fuel with
  | zero =>
      intro s h hfuel
      have := h.length_le
      omega
  | succ fuel ih =>
      intro s h hfuel
      rw [decodeQueue]
      cases hq : s.addrQueue with
      | nil => exact ⟨s, rfl, h, hq⟩
      | cons addr rest =>
          have hpop := h.pop hgran hq
          obtain ⟨t, hrun, ht, hgrow⟩ := decodeBlock_ok blockFuel hpop (by unfold blockFuel; omega)
          have hle := hgrow.queue_le
          have hge := hgrow.addrs_le
          change _ + 2 * s.addrs.length ≤ rest.length + _ at hle
          rw [hq, List.length_cons] at hfuel
          obtain ⟨s', hrun', hs', hempty⟩ := ih ht (by omega)
          refine ⟨s', ?_, hs', hempty⟩
          dsimp only
          rw [hrun]
          change (if cfg.granularity ≤ 1 then some t else decodeQueue cfg g start fuel t) = _
          rw [if_neg (by omega)]
          exact hrun'

/-- Before anything is decoded only the start is pending. -/
theorem ExploreInv.init :
    ExploreInv cfg g start ⟨[], fun _ => none, [], []⟩ (some (start, true)) where
  map_iff := by simp [Predecoder.addrs]
  decodes := by simp [Predecoder.addrs]
  sizes := by simp
  reached := by simp [Predecoder.addrs]
  queue := by simp
  chained := by simp [Predecoder.addrs]
  first := by simp [Predecoder.flags]
  closed := by simp [Predecoder.addrs]
  flagged := by simp [Predecoder.addrs]
  start_done := Or.inl rfl
  block := by
    intro y hp
    exact Or.inl (Prod.mk.inj (Option.some.inj hp)).1.symm
  fresh := fun _ _ _ => rfl
  follow := by simp

/-- `Predecode` terminates, for every granularity. -/
theorem predecode_ok (cfg : PredecodeConfig) (g : Guest) (start : Word) :
    ∃ s, predecode cfg g start = some s ∧ ExploreInv cfg g start s none ∧
      (2 ≤ cfg.granularity → s.addrQueue = []) := by
  have hinit : ExploreInv cfg g start ⟨[], fun _ => none, [], []⟩ (some (start, true)) := .init
  obtain ⟨t, hrun, ht, hgrow⟩ := decodeBlock_ok blockFuel hinit (by unfold blockFuel; omega)
  have hunfold : predecode cfg g start =
      if cfg.granularity ≤ 1 then some t else decodeQueue cfg g start (2 * 2 ^ 64 + 1) t := by
    change (decodeBlock cfg g start blockFuel start true _).bind _ = _
    rw [hrun]
    rfl
  by_cases hgran : cfg.granularity ≤ 1
  · rw [hunfold, if_pos hgran]
    exact ⟨t, rfl, ht, by omega⟩
  · have hle := hgrow.queue_le
    change _ + 2 * 0 ≤ 0 + _ at hle
    obtain ⟨s, hs, hinv, hempty⟩ :=
      decodeQueue_ok (by omega) (2 * 2 ^ 64 + 1) ht (by omega)
    rw [hunfold, if_neg hgran]
    exact ⟨s, hs, hinv, fun _ => hempty⟩

/-- When `Predecode` is done, explored successors that decode are in the list,
as block starts or right after a normal instruction. -/
theorem ExploreInv.successor_listed {s : Predecoder} (h : ExploreInv cfg g start s none)
    (hempty : 2 ≤ cfg.granularity → s.addrQueue = []) {k : ℕ} {a y : Word}
    (hk : s.addrs[k]? = some a) (hy : y ∈ explored cfg g a) (hdec : g.Decodes y) :
    ∃ j : ℕ, s.addrs[j]? = some y ∧
      (s.flags[j]? = some true ∨ (g.IsNormal a ∧ j = k + 1)) := by
  cases h.closed k a hk y hy with
  | queued hgran hq =>
      rw [hempty hgran] at hq
      exact absurd hq List.not_mem_nil
  | pendingBlock hp => cases hp
  | pendingNext hp => cases hp
  | undecodable hy => exact absurd hdec hy
  | flagged hj hf => exact ⟨_, hj, Or.inl hf⟩
  | next hj hn => exact ⟨_, hj, Or.inr ⟨hn, rfl⟩⟩

theorem ExploreInv.index_unique {s : Predecoder} {p : Option (Word × Bool)}
    (h : ExploreInv cfg g start s p) {a : Word} {i j : ℕ} (hi : s.addrs[i]? = some a)
    (hj : s.addrs[j]? = some a) : i = j :=
  Option.some.inj (((h.map_iff a i).mpr hi).symm.trans ((h.map_iff a j).mpr hj))

/-- Block starts are the jump targets and the joins of normal instructions. -/
theorem ExploreInv.flag_iff {s : Predecoder} (h : ExploreInv cfg g start s none)
    (hempty : 2 ≤ cfg.granularity → s.addrQueue = []) {j : ℕ} {y : Word}
    (hj : s.addrs[j]? = some y) :
    s.flags[j]? = some true ↔
      JumpTarget cfg g start s.addrs y ∨ NormalJoin cfg g s.addrs j y := by
  have hdec := h.decodes y (List.mem_of_getElem? hj)
  constructor
  · exact h.flagged j y hj
  · rintro ((rfl | ⟨a, ha, hn, he⟩) | ⟨k, a, hk, -, he, hne⟩)
    · rcases h.start_done with hp | hfail | ⟨i, hi, hf⟩
      · cases hp
      · exact absurd hdec hfail
      · rw [h.index_unique hj hi]
        exact hf
    · obtain ⟨k, hk⟩ := List.mem_iff_getElem?.mp ha
      obtain ⟨i, hi, hf | ⟨hn', -⟩⟩ := h.successor_listed hempty hk he hdec
      · rw [h.index_unique hj hi]
        exact hf
      · exact absurd hn' hn
    · obtain ⟨i, hi, hf | ⟨-, hik⟩⟩ := h.successor_listed hempty hk he hdec
      · rw [h.index_unique hj hi]
        exact hf
      · exact absurd ((h.index_unique hj hi).trans hik).symm hne

/-- The list is what control flow reaches. -/
theorem ExploreInv.mem_addrs_iff {s : Predecoder} (h : ExploreInv cfg g start s none)
    (hempty : 2 ≤ cfg.granularity → s.addrQueue = []) (a : Word) :
    a ∈ s.addrs ↔ Reached cfg g start a ∧ g.Decodes a := by
  constructor
  · intro ha
    exact ⟨h.reached a ha, h.decodes a ha⟩
  · rintro ⟨hreach, hdec⟩
    induction hreach with
    | refl =>
        rcases h.start_done with hp | hfail | ⟨j, hj, -⟩
        · cases hp
        · exact absurd hdec hfail
        · exact List.mem_of_getElem? hj
    | @tail b c _ hbc ih =>
        obtain ⟨k, hk⟩ := List.mem_iff_getElem?.mp (ih (decodes_of_mem_explored hbc))
        obtain ⟨j, hj, -⟩ := h.successor_listed hempty hk hbc hdec
        exact List.mem_of_getElem? hj

end Loops

/-! ## Lift -/

/-- The instruction at index `k` belongs to the block at `blockAddr`: the last
block start up to `k` lies there. -/
def InBlock (insts : List DecodedInst) (k : ℕ) (blockAddr : Word) : Prop :=
  ∃ j leader, j ≤ k ∧ insts[j]? = some leader ∧ leader.newBlock = true ∧
    leader.addr = blockAddr ∧
    ∀ m inst, j < m → m ≤ k → insts[m]? = some inst → inst.newBlock = false

theorem InBlock.step {insts : List DecodedInst} {i : ℕ} {inst : DecodedInst} {b : Word}
    (hi : insts[i]? = some inst) (hfirst : ∀ inst, insts[0]? = some inst → inst.newBlock = true)
    (hb : i ≠ 0 → InBlock insts (i - 1) b) :
    InBlock insts i (if inst.newBlock then inst.addr else b) := by
  cases hnew : inst.newBlock with
  | true =>
      refine ⟨i, inst, Nat.le_refl _, hi, hnew, rfl, ?_⟩
      intro m _ hlt hle
      omega
  | false =>
      have hne : i ≠ 0 := by
        rintro rfl
        rw [hfirst inst hi] at hnew
        cases hnew
      obtain ⟨j, leader, hj, hleader, hflag, haddr, hbetween⟩ := hb hne
      refine ⟨j, leader, by omega, hleader, hflag, haddr, ?_⟩
      intro m inst' hlt hle hm
      by_cases hmi : m = i
      · subst hmi
        rw [hi] at hm
        obtain rfl := Option.some.inj hm
        exact hnew
      · exact hbetween m inst' hlt (by omega) hm

/-- Every call passes the block its instruction belongs to. -/
theorem liftLoop_inBlock {insts : List DecodedInst} (ret : ℕ → ℤ)
    (hfirst : ∀ inst, insts[0]? = some inst → inst.newBlock = true) :
    ∀ (rest : List DecodedInst) (i : ℕ) (skip : Bool) (b : Word), insts.drop i = rest →
      (i ≠ 0 → InBlock insts (i - 1) b) → ∀ call ∈ (liftLoop ret i skip b rest).1,
        ∃ k inst, insts[k]? = some inst ∧ call.addr = inst.addr ∧
          InBlock insts k call.blockAddr := by
  intro rest
  induction rest with
  | nil =>
      intro i skip b _ _ call hcall
      exact absurd hcall List.not_mem_nil
  | cons inst rest ih =>
      intro i skip b hdrop hb call hcall
      have hi : insts[i]? = some inst := by
        have hget : (insts.drop i)[0]? = insts[i + 0]? := List.getElem?_drop
        rw [hdrop] at hget
        exact hget.symm
      have hrest : insts.drop (i + 1) = rest := by
        rw [← List.drop_drop, hdrop]
        rfl
      have hblock := InBlock.step hi hfirst hb
      unfold liftLoop at hcall
      dsimp only at hcall
      split at hcall
      · exact ih (i + 1) true _ hrest (fun _ => hblock) call hcall
      split at hcall
      · rw [List.mem_singleton] at hcall
        subst hcall
        exact ⟨i, inst, hi, rfl, hblock⟩
      · rcases List.mem_cons.mp hcall with rfl | hcall
        · exact ⟨i, inst, hi, rfl, hblock⟩
        · exact ih (i + 1) _ _ hrest (fun _ => hblock) call hcall

/-- If every instruction lifts, all are passed on in order. -/
theorem liftLoop_complete (ret : ℕ → ℤ) :
    ∀ (insts : List DecodedInst) (i : ℕ) (b : Word),
      (∀ k inst, insts[k]? = some inst → ret (i + k) = inst.size.toNat) →
      (liftLoop ret i false b insts).2 = true ∧
        (liftLoop ret i false b insts).1.map AddInstr.addr = insts.map DecodedInst.addr := by
  intro insts
  induction insts with
  | nil => exact fun _ _ _ => ⟨rfl, rfl⟩
  | cons inst insts ih =>
      intro i b hret
      have hhead := hret 0 inst rfl
      rw [Nat.add_zero] at hhead
      have htail := ih (i + 1) (if inst.newBlock then inst.addr else b) (by
        intro k inst' hk
        rw [Nat.add_right_comm]
        exact hret (k + 1) inst' hk)
      unfold liftLoop
      simpa [hhead] using htail

/-- `Predecode` explores exactly the reachable code and cuts it into blocks.
The list has every reachable instruction once; one that does not start a block
follows the normal instruction listed before it; and every other way to reach a
listed instruction makes it a block start.  So `Lift` passes each instruction
with the address of a block start from which it is reached through normal
instructions only. -/
theorem predecode_explores (cfg : PredecodeConfig) (g : Guest) (start : Word)
    (hgran : 2 ≤ cfg.granularity) :
    ∃ s, predecode cfg g start = some s ∧
      (s.insts.map DecodedInst.addr).Nodup ∧
      (∀ a, a ∈ s.insts.map DecodedInst.addr ↔
        Relation.ReflTransGen (fun a b => b ∈ successors cfg.callret g a) start a ∧
          g.Decodes a) ∧
      (∀ inst ∈ s.insts, inst.size = (g.decode inst.addr).size) ∧
      (∀ k inst, s.insts[k]? = some inst → inst.newBlock = false →
        ∃ j prev, k = j + 1 ∧ s.insts[j]? = some prev ∧ g.IsNormal prev.addr ∧
          inst.addr = prev.addr + prev.size.setWidth 64) ∧
      (∀ k inst, s.insts[k]? = some inst → ∀ y ∈ successors cfg.callret g inst.addr,
        ∀ j inst', s.insts[j]? = some inst' → inst'.addr = y →
          inst'.newBlock = true ∨ (g.IsNormal inst.addr ∧ j = k + 1)) ∧
      ∀ ret : ℕ → ℤ,
        (∀ call ∈ (lift ret s.insts).1, ∃ k inst, s.insts[k]? = some inst ∧
          call.addr = inst.addr ∧ InBlock s.insts k call.blockAddr) ∧
        ((∀ k inst, s.insts[k]? = some inst → ret k = inst.size.toNat) →
          (lift ret s.insts).2 = true ∧
            (lift ret s.insts).1.map AddInstr.addr = s.insts.map DecodedInst.addr) := by
  obtain ⟨s, hrun, h, hempty⟩ := predecode_ok cfg g start
  have hfirst : ∀ inst, s.insts[0]? = some inst → inst.newBlock = true := by
    intro inst h0
    cases hnew : inst.newBlock with
    | true => rfl
    | false => exact absurd (hnew ▸ flags_eq_some h0) h.first
  have hsucc : (fun a b => b ∈ explored cfg g a) =
      fun a b => b ∈ successors cfg.callret g a := by
    funext a b
    rw [explored_eq_successors hgran]
  refine ⟨s, hrun, h.nodup, ?_, h.sizes, ?_, ?_, ?_⟩
  · intro a
    rw [← hsucc]
    exact h.mem_addrs_iff hempty a
  · intro k inst hk hnew
    obtain ⟨j, rfl⟩ : ∃ j, k = j + 1 := by
      cases k with
      | zero => exact absurd (hfirst inst hk) (by simp [hnew])
      | succ j => exact ⟨j, rfl⟩
    obtain ⟨prevAddr, hprev, hn, hnext⟩ := h.chained j inst.addr (addrs_eq_some hk)
      (Or.inl (hnew ▸ flags_eq_some hk))
    rw [Predecoder.addrs, List.getElem?_map] at hprev
    obtain ⟨prev, hget, rfl⟩ := Option.map_eq_some_iff.mp hprev
    refine ⟨j, prev, rfl, hget, hn, ?_⟩
    rw [h.sizes prev (List.mem_of_getElem? hget)]
    exact hnext.symm
  · intro k inst hk y hy j inst' hj hyj
    rw [← explored_eq_successors hgran] at hy
    have hj' := addrs_eq_some hj
    rw [hyj] at hj'
    obtain ⟨i, hi, hcase⟩ := h.successor_listed hempty (addrs_eq_some hk) hy
      (h.decodes y (List.mem_of_getElem? hj'))
    obtain rfl : i = j := h.index_unique hi hj'
    refine hcase.imp ?_ id
    intro hf
    rw [flags_eq_some hj] at hf
    exact Option.some.inj hf
  · intro ret
    refine ⟨?_, ?_⟩
    · exact liftLoop_inBlock ret hfirst s.insts 0 false 0#64 rfl (fun hne => absurd rfl hne)
    · intro hret
      exact liftLoop_complete ret s.insts 0 0#64 fun k inst hk => by
        rw [Nat.zero_add]
        exact hret k inst hk

/-- Code that jumps to a normal instruction followed by a jump to itself, which
becomes a block start after it was decoded. -/
def jmpGuest : Guest where
  decodeFn := fun addr _ =>
    if addr = 0x1000 then ⟨.branch, 2, 0x1002⟩
    else if addr = 0x1002 then ⟨.normal, 1, 0⟩
    else if addr = 0x1003 then ⟨.branch, 2, 0x1003⟩
    else ⟨.failed, 0, 0⟩
  readmem := fun _ => []

theorem predecode_explores_jmp :
    ∃ s, predecode ⟨2, false⟩ jmpGuest 0x1000 = some s ∧
      s.insts = [⟨0x1000, 2, true⟩, ⟨0x1002, 1, true⟩, ⟨0x1003, 2, true⟩] ∧
      (s.insts.map DecodedInst.addr).Nodup := by
  obtain ⟨s, hrun, hnodup, -⟩ := predecode_explores ⟨2, false⟩ jmpGuest 0x1000 (by decide)
  have hinsts : (predecode ⟨2, false⟩ jmpGuest 0x1000).map Predecoder.insts =
      some [⟨0x1000, 2, true⟩, ⟨0x1002, 1, true⟩, ⟨0x1003, 2, true⟩] := by
    decide +kernel
  rw [hrun, Option.map_some, Option.some.injEq] at hinsts
  exact ⟨s, hrun, hinsts, hnodup⟩

end PollyInstrew.Server
