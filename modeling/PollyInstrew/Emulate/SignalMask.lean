import PollyInstrew.Client.Signals

/-!
# The guest's signal mask

`signal_sigprocmask` updates the guest mask member by member.  On AArch64
`sigsetptr` divides the signal number and not the number of its bit, so that the
last signal is looked up and noted in the word behind the set: everything is set
algebra except for that signal.
-/

namespace PollyInstrew.Emulate

open PollyInstrew.Client

variable {signum : ℕ} {w : Word} {s : SigState}

/-! ## Members of a set -/

/-- `sigsetptr`: the index of the word, counted from the beginning of the set. -/
def sigsetptr (arch : Arch) (signum : ℤ) : ℕ :=
  match arch with
  | .x86_64 => 0
  | .aarch64 => signum.toNat / 8 / 8

def sigaddset (arch : Arch) (set : SigWords) (signum : ℤ) : ℤ × SigWords :=
  if signum ≤ 0 ∨ 64 < signum then
    (-EINVAL, set)
  else
    (0, Client.sigaddset arch set signum.toNat)

def sigdelset (arch : Arch) (set : SigWords) (signum : ℤ) : ℤ × SigWords :=
  if signum ≤ 0 ∨ 64 < signum then
    (-EINVAL, set)
  else
    (0, Client.sigdelset arch set signum.toNat)

def sigismember (arch : Arch) (set : SigWords) (signum : ℤ) : ℤ :=
  if signum ≤ 0 ∨ 64 < signum then
    -EINVAL
  else if Client.sigismember arch set signum.toNat then
    1
  else
    0

/-! ## The mask of the guest -/

/-- What `signal_sigprocmask` uses of `struct CpuState`. -/
structure SigCpu where
  sigpending : ℤ
  sigmask : SigWords
  deriving DecidableEq

/-- What `signal_sigprocmask` returns, stores and passes to the host. -/
structure MaskResult where
  ret : ℤ
  cpu : SigCpu
  /-- the value stored to `*oldset` -/
  old : Option Word
  /-- the mask the host is told to install -/
  installed : Option Word
  deriving DecidableEq

/-- The mask `signal_update_hostmask` passes to the host. -/
def signalUpdateHostmask (arch : Arch) (sigmask : SigWords) : Word :=
  (sigdelset arch (sigdelset arch sigmask SIGSEGV).2 SIGBUS).2.set

/-- `for (int i = 1; i <= _NSIG; i++) if (sigismember(set, i)) op(&sigmask, i)`, for the
given signals. -/
def maskLoop (arch : Arch) (op : Arch → SigWords → ℤ → ℤ × SigWords) (set : SigWords)
    (signums : List ℕ) (sigmask : SigWords) : SigWords :=
  signums.foldl
    (fun (sigmask : SigWords) (i : ℕ) =>
      if sigismember arch set i ≠ 0 then (op arch sigmask i).2 else sigmask)
    sigmask

/-- The end of `signal_sigprocmask`, after the mask is computed. -/
def maskFinish (arch : Arch) (hostRet : ℤ) (cpu : SigCpu) (old : Option Word)
    (sigmask : SigWords) : MaskResult :=
  let sigmask := (sigdelset arch (sigdelset arch sigmask SIGKILL).2 SIGSTOP).2
  if cpu.sigpending = 0 then
    ⟨hostRet, { cpu with sigmask := sigmask }, old, some (signalUpdateHostmask arch sigmask)⟩
  else
    ⟨0, { cpu with sigmask := sigmask }, old, none⟩

/-- `hostRet` is what the host's `sigprocmask` returns if it is called. -/
def signalSigprocmask (arch : Arch) (hostRet : ℤ) (cpu : SigCpu) (how : ℤ)
    (set : Option SigWords) (oldset : Bool) : MaskResult :=
  let old := if oldset then some cpu.sigmask.set else none
  match set with
  | none => ⟨0, cpu, old, none⟩
  | some set =>
      if how = 0 then
        maskFinish arch hostRet cpu old
          (maskLoop arch sigaddset set (List.range' 1 64) cpu.sigmask)
      else if how = 1 then
        maskFinish arch hostRet cpu old
          (maskLoop arch sigdelset set (List.range' 1 64) cpu.sigmask)
      else if how = 2 then
        maskFinish arch hostRet cpu old { cpu.sigmask with set := set.set }
      else
        ⟨-EINVAL, cpu, old, none⟩

/-! ## Sets of signals -/

/-- The members of a set of one word. -/
def signals (w : Word) : Set ℕ := {n | 1 ≤ n ∧ n ≤ 64 ∧ w.getLsbD (n - 1) = true}

/-- The signals that are looked up behind the set. -/
def lost (arch : Arch) : Set ℕ := {n | beyondSet arch n = true}

theorem sigsetmsk_getLsbD {n : ℕ} (hpos : 1 ≤ signum) (hle : signum ≤ 64) (hn : n ≤ 64)
    (hone : 1 ≤ n) : (sigsetmsk signum).getLsbD (n - 1) = decide (n = signum) := by
  have hmod : (signum - 1) % 64 = signum - 1 := Nat.mod_eq_of_lt (by omega)
  have heq : signum - 1 = n - 1 ↔ n = signum := by omega
  rw [sigsetmsk, ← BitVec.twoPow_eq, BitVec.getLsbD_twoPow, hmod,
    decide_eq_true (show signum - 1 < 64 by omega), Bool.true_and, decide_eq_decide.mpr heq]

theorem and_sigsetmsk_ne_zero (hpos : 1 ≤ signum) (hle : signum ≤ 64) :
    w &&& sigsetmsk signum ≠ 0 ↔ signum ∈ signals w := by
  have hmod : (signum - 1) % 64 = signum - 1 := Nat.mod_eq_of_lt (by omega)
  rw [sigsetmsk, ← BitVec.twoPow_eq, BitVec.and_twoPow, hmod]
  cases hbit : w.getLsbD (signum - 1) with
  | true =>
      have hne : BitVec.twoPow 64 (signum - 1) ≠ 0 := by
        intro h
        have hzero := congrArg (fun y : BitVec 64 => y.getLsbD (signum - 1)) h
        simp [show signum - 1 < 64 by omega] at hzero
      simpa [signals, hpos, hle, hbit] using hne
  | false => simp [signals, hbit]

theorem signals_or (hpos : 1 ≤ signum) (hle : signum ≤ 64) :
    signals (w ||| sigsetmsk signum) = insert signum (signals w) := by
  ext n
  simp only [signals, Set.mem_ofPred_eq, Set.mem_insert_iff, BitVec.getLsbD_or, Bool.or_eq_true]
  constructor
  · rintro ⟨hone, hn, hbit | hbit⟩
    · exact .inr ⟨hone, hn, hbit⟩
    · rw [sigsetmsk_getLsbD hpos hle hn hone, decide_eq_true_eq] at hbit
      exact .inl hbit
  · rintro (rfl | ⟨hone, hn, hbit⟩)
    · refine ⟨hpos, hle, .inr ?_⟩
      rw [sigsetmsk_getLsbD hpos hle hle hpos, decide_eq_true rfl]
    · exact ⟨hone, hn, .inl hbit⟩

theorem signals_and_not (hpos : 1 ≤ signum) (hle : signum ≤ 64) :
    signals (w &&& ~~~sigsetmsk signum) = signals w \ {signum} := by
  ext n
  simp only [signals, Set.mem_ofPred_eq, Set.mem_sdiff, Set.mem_singleton_iff, BitVec.getLsbD_and,
    BitVec.getLsbD_not, Bool.and_eq_true, Bool.not_eq_true']
  constructor
  · rintro ⟨hone, hn, hbit, -, hmask⟩
    rw [sigsetmsk_getLsbD hpos hle hn hone, decide_eq_false_iff_not] at hmask
    exact ⟨⟨hone, hn, hbit⟩, hmask⟩
  · rintro ⟨⟨hone, hn, hbit⟩, hne⟩
    refine ⟨hone, hn, hbit, ?_, ?_⟩
    · simpa using (by omega : n - 1 < 64)
    · rw [sigsetmsk_getLsbD hpos hle hn hone, decide_eq_false hne]

theorem beyondSet_iff {arch : Arch} {n : ℕ} (hn : n ≤ 64) :
    beyondSet arch n = true ↔ arch = .aarch64 ∧ n = 64 := by
  rw [beyondSet, Bool.and_eq_true, decide_eq_true_eq, decide_eq_true_eq]
  constructor
  · rintro ⟨harch, hdiv⟩
    exact ⟨harch, by omega⟩
  · rintro ⟨harch, rfl⟩
    exact ⟨harch, by decide⟩

theorem mem_lost {arch : Arch} {n : ℕ} (hn : n ≤ 64) :
    n ∈ lost arch ↔ arch = .aarch64 ∧ n = 64 :=
  beyondSet_iff hn

section Members

variable {arch : Arch} {set : SigWords} {n : ℕ} (hpos : 1 ≤ n) (hle : n ≤ 64)
include hpos hle

theorem in_range : ¬((n : ℤ) ≤ 0 ∨ 64 < (n : ℤ)) := by omega

theorem sigaddset_eq : sigaddset arch set n = (0, Client.sigaddset arch set n) := by
  rw [sigaddset, if_neg (in_range hpos hle), Int.toNat_natCast]

theorem sigdelset_eq : sigdelset arch set n = (0, Client.sigdelset arch set n) := by
  rw [sigdelset, if_neg (in_range hpos hle), Int.toNat_natCast]

theorem sigismember_eq :
    sigismember arch set n = if Client.sigismember arch set n then 1 else 0 := by
  rw [sigismember, if_neg (in_range hpos hle), Int.toNat_natCast]

theorem signals_sigaddset (hin : ¬beyondSet arch n) :
    signals (sigaddset arch set n).2.set = insert n (signals set.set) := by
  rw [sigaddset_eq hpos hle, Client.sigaddset, if_neg hin]
  exact signals_or hpos hle

theorem sigaddset_beyond (hout : beyondSet arch n) : (sigaddset arch set n).2.set = set.set := by
  rw [sigaddset_eq hpos hle, Client.sigaddset, if_pos hout]

theorem signals_sigdelset (hin : ¬beyondSet arch n) :
    signals (sigdelset arch set n).2.set = signals set.set \ {n} := by
  rw [sigdelset_eq hpos hle, Client.sigdelset, if_neg hin]
  exact signals_and_not hpos hle

theorem sigdelset_beyond (hout : beyondSet arch n) : (sigdelset arch set n).2.set = set.set := by
  rw [sigdelset_eq hpos hle, Client.sigdelset, if_pos hout]

theorem sigismember_ne_zero (hin : ¬beyondSet arch n) :
    sigismember arch set n ≠ 0 ↔ n ∈ signals set.set := by
  rw [sigismember_eq hpos hle, Client.sigismember, if_neg hin, ← and_sigsetmsk_ne_zero hpos hle]
  by_cases h : set.set &&& sigsetmsk n = 0 <;> simp [h]

end Members

/-! ## The loops -/

/-- An operation makes a signal a member or not, as `v` says, unless it goes beyond
the set. -/
structure Sets (arch : Arch) (op : Arch → SigWords → ℤ → ℤ × SigWords) (v : Prop) : Prop where
  inside : ∀ (m : SigWords) (i : ℕ), 1 ≤ i → i ≤ 64 → ¬beyondSet arch i → ∀ n,
    n ∈ signals (op arch m i).2.set ↔ (n = i ∧ v) ∨ (n ≠ i ∧ n ∈ signals m.set)
  beyond : ∀ (m : SigWords) (i : ℕ), 1 ≤ i → i ≤ 64 → beyondSet arch i →
    (op arch m i).2.set = m.set

theorem sets_sigaddset (arch : Arch) : Sets arch sigaddset True := by
  refine ⟨fun m i hpos hle hin n => ?_, fun m i hpos hle hout => sigaddset_beyond hpos hle hout⟩
  rw [signals_sigaddset hpos hle hin, Set.mem_insert_iff]
  tauto

theorem sets_sigdelset (arch : Arch) : Sets arch sigdelset False := by
  refine ⟨fun m i hpos hle hin n => ?_, fun m i hpos hle hout => sigdelset_beyond hpos hle hout⟩
  rw [signals_sigdelset hpos hle hin, Set.mem_sdiff, Set.mem_singleton_iff]
  tauto

/-- The loop treats the members of the set it finds in `signums`. -/
theorem mem_maskLoop {arch : Arch} {op : Arch → SigWords → ℤ → ℤ × SigWords} {v : Prop}
    (hop : Sets arch op v) {set : SigWords} {signums : List ℕ}
    (hrange : ∀ i ∈ signums, 1 ≤ i ∧ i ≤ 64) (sigmask : SigWords) (n : ℕ) :
    n ∈ signals (maskLoop arch op set signums sigmask).set ↔
      ((n ∈ signums ∧ n ∈ signals set.set \ lost arch) ∧ v) ∨
        (¬(n ∈ signums ∧ n ∈ signals set.set \ lost arch) ∧ n ∈ signals sigmask.set) := by
  induction signums generalizing sigmask with
  | nil => simp [maskLoop]
  | cons i signums ih =>
      obtain ⟨hpos, hle⟩ := hrange i List.mem_cons_self
      have ih := ih fun j hj => hrange j (List.mem_cons_of_mem _ hj)
      rw [maskLoop, List.foldl_cons, ← maskLoop, ih]
      -- what the iteration for `i` does to `n`
      have hiter : n ∈ signals (if sigismember arch set i ≠ 0 then (op arch sigmask i).2
          else sigmask).set ↔ ((n = i ∧ i ∈ signals set.set \ lost arch) ∧ v) ∨
            (¬(n = i ∧ i ∈ signals set.set \ lost arch) ∧ n ∈ signals sigmask.set) := by
        by_cases hout : beyondSet arch i
        · have hlost : i ∉ signals set.set \ lost arch := fun h => h.2 hout
          have hsame : (if sigismember arch set i ≠ 0 then (op arch sigmask i).2
              else sigmask).set = sigmask.set := by
            split
            · exact hop.beyond sigmask i hpos hle hout
            · rfl
          rw [hsame]
          tauto
        · have hlost : i ∈ signals set.set \ lost arch ↔ i ∈ signals set.set :=
            ⟨fun h => h.1, fun h => ⟨h, hout⟩⟩
          rw [hlost, ← sigismember_ne_zero hpos hle hout]
          by_cases hmember : sigismember arch set i ≠ 0
          · rw [if_pos hmember, hop.inside sigmask i hpos hle hout]
            tauto
          · rw [if_neg hmember]
            tauto
      rw [hiter, List.mem_cons]
      by_cases hn : n = i
      · subst hn
        by_cases hset : n ∈ signals set.set \ lost arch <;> by_cases hmem : n ∈ signums <;>
          simp [hset, hmem]
      · simp [hn]

theorem range'_range : ∀ i ∈ List.range' 1 64, 1 ≤ i ∧ i ≤ 64 := by
  intro i hi
  rw [List.mem_range'_1] at hi
  omega

theorem mem_range'_of_mem_signals {n : ℕ} (h : n ∈ signals w) :
    n ∈ List.range' 1 64 := by
  rw [List.mem_range'_1]
  exact ⟨h.1, by have := h.2.1; omega⟩

theorem signals_block (arch : Arch) (set sigmask : SigWords) :
    signals (maskLoop arch sigaddset set (List.range' 1 64) sigmask).set =
      signals sigmask.set ∪ (signals set.set \ lost arch) := by
  ext n
  rw [mem_maskLoop (sets_sigaddset arch) range'_range, Set.mem_union]
  have hrange : n ∈ signals set.set \ lost arch → n ∈ List.range' 1 64 :=
    fun h => mem_range'_of_mem_signals h.1
  tauto

theorem signals_unblock (arch : Arch) (set sigmask : SigWords) :
    signals (maskLoop arch sigdelset set (List.range' 1 64) sigmask).set =
      signals sigmask.set \ (signals set.set \ lost arch) := by
  ext n
  have hdiff : n ∈ signals sigmask.set \ (signals set.set \ lost arch) ↔
      n ∈ signals sigmask.set ∧ n ∉ signals set.set \ lost arch := Iff.rfl
  rw [mem_maskLoop (sets_sigdelset arch) range'_range, hdiff]
  have hrange : n ∈ signals set.set \ lost arch → n ∈ List.range' 1 64 :=
    fun h => mem_range'_of_mem_signals h.1
  tauto

/-! ## What `signal_sigprocmask` does -/

theorem not_beyond {arch : Arch} {n : ℕ} (hn : n < 64) : ¬beyondSet arch n := by
  rw [beyondSet_iff hn.le]
  omega

theorem signals_sigdelset_two (arch : Arch) (m : SigWords) {i j : ℕ} (hi : 1 ≤ i ∧ i < 64)
    (hj : 1 ≤ j ∧ j < 64) :
    signals (sigdelset arch (sigdelset arch m i).2 j).2.set = signals m.set \ {i, j} := by
  rw [signals_sigdelset hj.1 hj.2.le (not_beyond hj.2),
    signals_sigdelset hi.1 hi.2.le (not_beyond hi.2), Set.sdiff_sdiff, Set.singleton_union]

section Finish

variable {arch : Arch} {hostRet : ℤ} {cpu : SigCpu} {old : Option Word} {m : SigWords}

theorem signals_maskFinish :
    signals (maskFinish arch hostRet cpu old m).cpu.sigmask.set =
      signals m.set \ {SIGKILL, SIGSTOP} := by
  have h := signals_sigdelset_two arch m (i := SIGKILL) (j := SIGSTOP) (by decide)
    (by decide)
  rw [maskFinish]
  split
  · exact h
  · exact h

theorem maskFinish_old : (maskFinish arch hostRet cpu old m).old = old := by
  rw [maskFinish]
  split
  · rfl
  · rfl

theorem maskFinish_installed :
    ((maskFinish arch hostRet cpu old m).installed.isSome ↔ cpu.sigpending = 0) ∧
      ∀ w ∈ (maskFinish arch hostRet cpu old m).installed,
        signals w = signals (maskFinish arch hostRet cpu old m).cpu.sigmask.set \
          {SIGSEGV, SIGBUS} := by
  rw [maskFinish]
  split
  · rename_i hpending
    refine ⟨by simpa using hpending, fun w hw => ?_⟩
    obtain rfl := Option.some.inj hw
    exact signals_sigdelset_two _ _ (by decide) (by decide)
  · rename_i hpending
    exact ⟨by simpa using hpending, fun w hw => by simp at hw⟩

end Finish

/-- The mask is updated as a set, the old one is reported, and the host is told the
new one if and only if no signal is pending. -/
structure MaskRight (cpu : SigCpu) (how : ℤ) (set : SigWords) (oldset : Bool)
    (res : MaskResult) : Prop where
  block : how = 0 → signals res.cpu.sigmask.set =
    (signals cpu.sigmask.set ∪ signals set.set) \ {SIGKILL, SIGSTOP}
  unblock : how = 1 → signals res.cpu.sigmask.set =
    (signals cpu.sigmask.set \ signals set.set) \ {SIGKILL, SIGSTOP}
  setmask : how = 2 → signals res.cpu.sigmask.set = signals set.set \ {SIGKILL, SIGSTOP}
  other : how ≠ 0 → how ≠ 1 → how ≠ 2 →
    res.ret = -EINVAL ∧ res.cpu.sigmask.set = cpu.sigmask.set ∧ res.installed = none
  old : res.old = if oldset then some cpu.sigmask.set else none
  installed : how = 0 ∨ how = 1 ∨ how = 2 → (res.installed.isSome ↔ cpu.sigpending = 0) ∧
    ∀ w ∈ res.installed, signals w = signals res.cpu.sigmask.set \ {SIGSEGV, SIGBUS}

/-- The last signal is to be added or removed on AArch64. -/
def LosesLast (arch : Arch) (mask : Word) (how : ℤ) (set : Word) : Prop :=
  arch = .aarch64 ∧ 64 ∈ signals set ∧
    (how = 0 ∧ 64 ∉ signals mask ∨ how = 1 ∧ 64 ∈ signals mask)

section Right

variable {arch : Arch} {hostRet : ℤ} {cpu : SigCpu} {how : ℤ} {set : SigWords} {oldset : Bool}

/-- A member that is not lost. -/
theorem mem_sdiff_lost {n : ℕ} (h : n ∈ signals w) :
    n ∈ signals w \ lost arch ↔ ¬(arch = .aarch64 ∧ n = 64) := by
  rw [← mem_lost h.2.1]
  exact ⟨fun hn => hn.2, fun hn => ⟨h, hn⟩⟩

theorem block_eq_iff (arch : Arch) (mask set : Word) :
    (signals mask ∪ (signals set \ lost arch)) \ {SIGKILL, SIGSTOP} =
        (signals mask ∪ signals set) \ {SIGKILL, SIGSTOP} ↔
      ¬(arch = .aarch64 ∧ 64 ∈ signals set ∧ 64 ∉ signals mask) := by
  constructor
  · rintro h ⟨harch, hset, hmask⟩
    have hin : 64 ∈ (signals mask ∪ signals set) \ {SIGKILL, SIGSTOP} :=
      ⟨.inr hset, by decide⟩
    rw [← h] at hin
    rcases hin.1 with hin | hin
    · exact hmask hin
    · exact (mem_sdiff_lost hset).mp hin ⟨harch, rfl⟩
  · intro h
    ext n
    have hmem : n ∈ signals mask ∪ (signals set \ lost arch) ↔
        n ∈ signals mask ∪ signals set := by
      constructor
      · rintro (hn | hn)
        · exact .inl hn
        · exact .inr hn.1
      · rintro (hn | hn)
        · exact .inl hn
        · by_cases hlost : arch = .aarch64 ∧ n = 64
          · obtain ⟨harch, rfl⟩ := hlost
            exact .inl (by_contra fun hmask => h ⟨harch, hn, hmask⟩)
          · exact .inr ((mem_sdiff_lost hn).mpr hlost)
    rw [Set.mem_sdiff, Set.mem_sdiff, hmem]

theorem unblock_eq_iff (arch : Arch) (mask set : Word) :
    (signals mask \ (signals set \ lost arch)) \ {SIGKILL, SIGSTOP} =
        (signals mask \ signals set) \ {SIGKILL, SIGSTOP} ↔
      ¬(arch = .aarch64 ∧ 64 ∈ signals set ∧ 64 ∈ signals mask) := by
  constructor
  · rintro h ⟨harch, hset, hmask⟩
    have hin : 64 ∈ (signals mask \ (signals set \ lost arch)) \ {SIGKILL, SIGSTOP} :=
      ⟨⟨hmask, fun hn => (mem_sdiff_lost hset).mp hn ⟨harch, rfl⟩⟩, by decide⟩
    rw [h] at hin
    exact hin.1.2 hset
  · intro h
    ext n
    have hmem : n ∈ signals mask \ (signals set \ lost arch) ↔ n ∈ signals mask \ signals set := by
      constructor
      · rintro ⟨hn, hset⟩
        refine ⟨hn, fun hin => ?_⟩
        by_cases hlost : arch = .aarch64 ∧ n = 64
        · obtain ⟨harch, rfl⟩ := hlost
          exact h ⟨harch, hin, hn⟩
        · exact hset ((mem_sdiff_lost hin).mpr hlost)
      · rintro ⟨hn, hset⟩
        exact ⟨hn, fun hin => hset hin.1⟩
    rw [Set.mem_sdiff, Set.mem_sdiff (s := signals mask \ signals set), hmem]

/-- The end of the call does its part for any mask. -/
theorem maskRight_finish (hhow : how = 0 ∨ how = 1 ∨ how = 2) (m : SigWords)
    (hmask : (how = 0 → signals m.set \ {SIGKILL, SIGSTOP} =
        (signals cpu.sigmask.set ∪ signals set.set) \ {SIGKILL, SIGSTOP}) ∧
      (how = 1 → signals m.set \ {SIGKILL, SIGSTOP} =
        (signals cpu.sigmask.set \ signals set.set) \ {SIGKILL, SIGSTOP}) ∧
      (how = 2 → signals m.set \ {SIGKILL, SIGSTOP} = signals set.set \ {SIGKILL, SIGSTOP})) :
    MaskRight cpu how set oldset
      (maskFinish arch hostRet cpu (if oldset then some cpu.sigmask.set else none) m) := by
  obtain ⟨hblock, hunblock, hset⟩ := hmask
  refine ⟨fun h => ?_, fun h => ?_, fun h => ?_, fun h0 h1 h2 => ?_, maskFinish_old,
    fun _ => maskFinish_installed⟩
  · rw [signals_maskFinish, hblock h]
  · rw [signals_maskFinish, hunblock h]
  · rw [signals_maskFinish, hset h]
  · exact absurd hhow (by tauto)

theorem maskRight_iff :
    MaskRight cpu how set oldset
        (signalSigprocmask arch hostRet cpu how (some set) oldset) ↔
      ¬LosesLast arch cpu.sigmask.set how set.set := by
  rw [signalSigprocmask]
  dsimp only
  by_cases h0 : how = 0
  · subst h0
    have hiff := block_eq_iff arch cpu.sigmask.set set.set
    rw [if_pos rfl]
    constructor
    · rintro h ⟨harch, hset, hmask⟩
      have hblock := h.block rfl
      rw [signals_maskFinish, signals_block] at hblock
      exact hiff.mp hblock ⟨harch, hset, by tauto⟩
    · intro h
      refine maskRight_finish (.inl rfl) _ ⟨fun _ => ?_, by omega, by omega⟩
      rw [signals_block]
      refine hiff.mpr fun hlast => h ⟨hlast.1, hlast.2.1, .inl ⟨rfl, hlast.2.2⟩⟩
  rw [if_neg h0]
  by_cases h1 : how = 1
  · subst h1
    have hiff := unblock_eq_iff arch cpu.sigmask.set set.set
    rw [if_pos rfl]
    constructor
    · rintro h ⟨harch, hset, hmask⟩
      have hunblock := h.unblock rfl
      rw [signals_maskFinish, signals_unblock] at hunblock
      exact hiff.mp hunblock ⟨harch, hset, by tauto⟩
    · intro h
      refine maskRight_finish (.inr (.inl rfl)) _ ⟨by omega, fun _ => ?_, by omega⟩
      rw [signals_unblock]
      refine hiff.mpr fun hlast => h ⟨hlast.1, hlast.2.1, .inr ⟨rfl, hlast.2.2⟩⟩
  rw [if_neg h1]
  have hkeeps : ¬LosesLast arch cpu.sigmask.set how set.set := by
    rintro ⟨-, -, h⟩
    tauto
  refine iff_of_true ?_ hkeeps
  by_cases h2 : how = 2
  · rw [if_pos h2]
    exact maskRight_finish (.inr (.inr h2)) _ ⟨by tauto, by tauto, fun _ => rfl⟩
  · rw [if_neg h2]
    exact ⟨by tauto, by tauto, by tauto, fun _ _ _ => ⟨rfl, rfl, rfl⟩, rfl, by tauto⟩

end Right

/-! ## Single members -/

/-- The three functions act on one member of the set and stay within it. -/
structure MemberRight (arch : Arch) (signum : ℕ) : Prop where
  add : ∀ set : SigWords, (sigaddset arch set signum).1 = 0 ∧
    signals (sigaddset arch set signum).2.set = insert signum (signals set.set) ∧
    (sigaddset arch set signum).2.next = set.next
  del : ∀ set : SigWords, (sigdelset arch set signum).1 = 0 ∧
    signals (sigdelset arch set signum).2.set = signals set.set \ {signum} ∧
    (sigdelset arch set signum).2.next = set.next
  member : ∀ set : SigWords, (sigismember arch set signum = 1 ∧ signum ∈ signals set.set) ∨
    (sigismember arch set signum = 0 ∧ signum ∉ signals set.set)
  /-- a set is one word -/
  inside : sigsetptr arch signum < 1

theorem sigsetptr_lt_iff {arch : Arch} :
    sigsetptr arch signum < 1 ↔ ¬beyondSet arch signum := by
  cases arch with
  | x86_64 => simp [sigsetptr, beyondSet]
  | aarch64 => simp [sigsetptr, beyondSet]

theorem memberRight_iff {arch : Arch} (hpos : 1 ≤ signum) (hle : signum ≤ 64) :
    MemberRight arch signum ↔ ¬(arch = .aarch64 ∧ signum = 64) := by
  rw [← beyondSet_iff hle]
  constructor
  · intro h
    exact sigsetptr_lt_iff.mp h.inside
  · intro hin
    refine ⟨fun set => ⟨?_, signals_sigaddset hpos hle hin, ?_⟩,
      fun set => ⟨?_, signals_sigdelset hpos hle hin, ?_⟩, fun set => ?_,
      sigsetptr_lt_iff.mpr hin⟩
    · rw [sigaddset_eq hpos hle]
    · rw [sigaddset_eq hpos hle, Client.sigaddset, if_neg hin]
    · rw [sigdelset_eq hpos hle]
    · rw [sigdelset_eq hpos hle, Client.sigdelset, if_neg hin]
    · have hmember : sigismember arch set signum ≠ 0 ↔ signum ∈ signals set.set :=
        sigismember_ne_zero hpos hle hin
      rw [sigismember_eq hpos hle] at hmember ⊢
      by_cases h : Client.sigismember arch set signum
      · rw [if_pos h] at hmember ⊢
        exact .inl ⟨rfl, hmember.mp (by decide)⟩
      · rw [if_neg h] at hmember ⊢
        exact .inr ⟨rfl, fun hin => hmember.mpr hin rfl⟩

/-- Guest masks are updated as sets, and single members are looked up and changed
within the set, except for the last signal on AArch64. -/
theorem guest_mask_set_algebra_iff (arch : Arch) :
    (∀ hostRet cpu how set oldset, MaskRight cpu how set oldset
        (signalSigprocmask arch hostRet cpu how (some set) oldset) ↔
      ¬LosesLast arch cpu.sigmask.set how set.set) ∧
    ∀ signum, 1 ≤ signum ∧ signum ≤ 64 →
      (MemberRight arch signum ↔ ¬(arch = .aarch64 ∧ signum = 64)) :=
  ⟨fun _ _ _ _ _ => maskRight_iff, fun _ h => memberRight_iff h.1 h.2⟩

/-- Blocking all signals. -/
def blockAll (arch : Arch) : MaskResult :=
  signalSigprocmask arch 0 ⟨0, ⟨0, 0⟩⟩ 0 (some ⟨~~~0, ~~~0⟩) false

/-- Blocking all signals on AArch64 leaves the last one unblocked and writes into the
word behind the mask. -/
theorem last_signal_not_blocked :
    (blockAll .aarch64).cpu.sigmask = ⟨0x7ffffffffffbfeff#64, 0x8000000000000000#64⟩ ∧
      ¬MaskRight ⟨0, ⟨0, 0⟩⟩ 0 ⟨~~~0, ~~~0⟩ false (blockAll .aarch64) := by
  refine ⟨by decide +kernel, fun h => maskRight_iff.mp h ?_⟩
  exact ⟨rfl, ⟨by decide, by decide, by decide⟩, .inl ⟨rfl, fun h => absurd h.2.2 (by decide)⟩⟩

/-! ## The signal machine -/

section Machine

variable {arch : Arch} {set : SigWords}

/-- What the loop does with a signal it finds. -/
def maskOp (add : Bool) : Arch → SigWords → ℤ → ℤ × SigWords :=
  if add then sigaddset else sigdelset

theorem tick_maskLoop {add : Bool} {i : ℕ} (hpos : 1 ≤ i) (hle : i ≤ 64)
    (hpoint : s.point = .maskLoop add set i) :
    tick arch s = some { s with
      sigmask := maskLoop arch (maskOp add) set [i] s.sigmask
      point := .maskLoop add set (i + 1) } := by
  have hmember : sigismember arch set i ≠ 0 ↔ Client.sigismember arch set i = true := by
    rw [sigismember_eq hpos hle]
    by_cases h : Client.sigismember arch set i = true <;> simp [h]
  have hmask : maskLoop arch (maskOp add) set [i] s.sigmask =
      if Client.sigismember arch set i then
        if add then Client.sigaddset arch s.sigmask i else Client.sigdelset arch s.sigmask i
      else s.sigmask := by
    rw [maskLoop, List.foldl_cons, List.foldl_nil, if_congr hmember rfl rfl]
    cases add with
    | true => simp only [maskOp, if_true, sigaddset_eq hpos hle]
    | false => simp only [maskOp, Bool.false_eq_true, if_false, sigdelset_eq hpos hle]
  rw [tick, hpoint]
  dsimp only
  rw [if_pos hle, hmask]

/-- The loop of the machine, from signal `i` on. -/
theorem run_maskLoop {add : Bool} {k i : ℕ} (hpos : 1 ≤ i) (hk : i + k = 65)
    (hpoint : s.point = .maskLoop add set i) (events : List SigEvent) :
    Transition.run (sigStep arch) s (List.replicate k .tick ++ events) =
      Transition.run (sigStep arch) { s with
        sigmask := maskLoop arch (maskOp add) set (List.range' i k) s.sigmask
        point := .maskLoop add set 65 } events := by
  induction k generalizing i s with
  | zero =>
      obtain rfl : i = 65 := by omega
      rw [List.replicate_zero, List.nil_append, List.range'_zero, ← hpoint]
      rfl
  | succ k ih =>
      rw [List.replicate_succ, List.cons_append, Transition.run, sigStep,
        tick_maskLoop hpos (by omega) hpoint, Option.bind_some,
        ih (by omega) (by omega) rfl, List.range'_succ]
      rfl

theorem sigdelset_natCast {n : ℕ} (hpos : 1 ≤ n) (hle : n ≤ 64) (m : SigWords) :
    (sigdelset arch m n).2 = Client.sigdelset arch m n := by
  rw [sigdelset_eq hpos hle]

/-- The end of the call in the machine. -/
theorem run_maskTrim (arch : Arch) (hpoint : s.point = .maskTrim) (hostRet : ℤ) (old : Option Word)
    (m : SigWords) :
    ∃ n, Transition.run (sigStep arch) s (List.replicate n .tick) = some { s with
      sigmask := (maskFinish arch hostRet ⟨s.sigpending, m⟩ old s.sigmask).cpu.sigmask
      hostMask := ((maskFinish arch hostRet ⟨s.sigpending, m⟩ old
        s.sigmask).installed.map kernelMask).getD s.hostMask
      point := .done } := by
  have htrim : (sigdelset arch (sigdelset arch s.sigmask SIGKILL).2 SIGSTOP).2 =
      Client.sigdelset arch (Client.sigdelset arch s.sigmask SIGKILL) SIGSTOP := by
    rw [sigdelset_natCast (by decide) (by decide), sigdelset_natCast (by decide) (by decide)]
  have hhost : ∀ m, signalUpdateHostmask arch m = hostMaskOf m.set := by
    intro m
    rw [signalUpdateHostmask, sigdelset_natCast (by decide) (by decide),
      sigdelset_natCast (by decide) (by decide), Client.sigdelset,
      if_neg (not_beyond (by decide)), Client.sigdelset, if_neg (not_beyond (by decide))]
    rfl
  by_cases hpending : s.sigpending = 0
  · have hpending' : (s.sigpending : ℤ) = 0 := by omega
    refine ⟨3, ?_⟩
    rw [maskFinish, if_pos hpending', htrim, hhost]
    simp only [List.replicate, Transition.run, sigStep, tick, hpoint, SigState.goto, hpending,
      Option.bind_some, if_true, Option.map_some, Option.getD_some]
  · have hpending' : ¬(s.sigpending : ℤ) = 0 := by omega
    refine ⟨2, ?_⟩
    rw [maskFinish, if_neg hpending', htrim]
    simp only [List.replicate, Transition.run, sigStep, tick, hpoint, SigState.goto, hpending,
      Option.bind_some, if_false, Option.map_none, Option.getD_none]

/-- The loop of the machine and the end of the call. -/
theorem run_maskLoop_trim (add : Bool) (hpoint : s.point = .maskLoop add set 1) (hostRet : ℤ)
    (old : Option Word) (m : SigWords) :
    ∃ n, Transition.run (sigStep arch) s (List.replicate n .tick) = some { s with
      sigmask := (maskFinish arch hostRet ⟨s.sigpending, m⟩ old
        (maskLoop arch (maskOp add) set (List.range' 1 64) s.sigmask)).cpu.sigmask
      hostMask := ((maskFinish arch hostRet ⟨s.sigpending, m⟩ old
        (maskLoop arch (maskOp add) set (List.range' 1 64) s.sigmask)).installed.map
          kernelMask).getD s.hostMask
      point := .done } := by
  obtain ⟨n, hn⟩ := run_maskTrim arch (s := { s with
    sigmask := maskLoop arch (maskOp add) set (List.range' 1 64) s.sigmask
    point := .maskTrim }) rfl hostRet old m
  refine ⟨64 + (1 + n), ?_⟩
  rw [List.replicate_add, run_maskLoop (by decide) (by decide) hpoint, Nat.add_comm,
    List.replicate_succ]
  exact hn

/-- Without signals in between, the machine computes what the function does. -/
theorem run_signalSigprocmask (hguest : s.point = .guest) (how hostRet : ℤ) (oldset : Bool) :
    ∃ n, Transition.run (sigStep arch) s
        (.syscall (.rtSigprocmask 8 how (some set)) :: List.replicate n .tick) = some { s with
      sigmask := (signalSigprocmask arch hostRet ⟨s.sigpending, s.sigmask⟩ how (some set)
        oldset).cpu.sigmask
      hostMask := ((signalSigprocmask arch hostRet ⟨s.sigpending, s.sigmask⟩ how (some set)
        oldset).installed.map kernelMask).getD s.hostMask
      point := .done } := by
  have hstart : ∀ n, Transition.run (sigStep arch) s
      (.syscall (.rtSigprocmask 8 how (some set)) :: List.replicate n .tick) =
        Transition.run (sigStep arch) (Client.signalSigprocmask s how (some set))
          (List.replicate n .tick) := by
    intro n
    rw [Transition.run, sigStep, if_pos hguest]
    rfl
  simp only [hstart]
  rw [Client.signalSigprocmask, signalSigprocmask]
  dsimp only
  by_cases h0 : how = 0
  · rw [if_pos h0, if_pos h0]
    exact run_maskLoop_trim true rfl hostRet _ _
  rw [if_neg h0, if_neg h0]
  by_cases h1 : how = 1
  · rw [if_pos h1, if_pos h1]
    exact run_maskLoop_trim false rfl hostRet _ _
  rw [if_neg h1, if_neg h1]
  by_cases h2 : how = 2
  · rw [if_pos h2, if_pos h2]
    exact run_maskTrim arch rfl hostRet _ _
  rw [if_neg h2, if_neg h2]
  exact ⟨0, rfl⟩

end Machine

theorem run_signalSigprocmask_block :
    ∃ n s, Transition.run (sigStep .x86_64) signalInit
        (.syscall (.rtSigprocmask 8 0 (some ⟨2, 0⟩)) :: List.replicate n .tick) = some s ∧
      s.sigmask.set = 2 :=
  ⟨_, _, (run_signalSigprocmask (s := signalInit) rfl 0 0 false).choose_spec, by decide +kernel⟩

end PollyInstrew.Emulate
