import PollyInstrew.Client.Printf

/-!
# System calls that are not supported

`unhandled_syscall` notes in a bit map which numbers it has reported.  The mask of
a number is computed in `int`, so that a word of the map has room for thirty-two
numbers only: two numbers that differ by 32 within a word are taken for the same.
-/

namespace PollyInstrew.Emulate

open PollyInstrew.ByteMemory PollyInstrew.Client

def ENOSYS : ℤ := 38

/-- A system call of the guest. -/
structure GuestCall where
  nr : Word
  arg0 : Word
  arg1 : Word
  arg2 : Word
  arg3 : Word
  arg4 : Word
  arg5 : Word
  deriving DecidableEq

/-- The words of `warnmap`. -/
abbrev Warnmap := ℕ → Word

/-- The static map before the first call. -/
def warnmapInit : Warnmap := fun _ => 0

/-- `1 << nr % 64`: the shift instructions of both hosts take the count of an `int`
modulo 32, and the result is widened with its sign. -/
def warnMask (nr : Word) : Word := (1#32 <<< (nr.toNat % 64 % 32)).signExtend 64

def unhandledFormat : List Byte :=
  literal "unhandled syscall %u (%lx %lx %lx %lx %lx %lx) = -ENOSYS" ++
    literal " -- please file a bug with these numbers and the architecture\n"

/-- What `unhandled_syscall` returns, prints and notes. -/
structure Unhandled where
  res : ℤ
  printed : Option (List Byte × List VaArg)
  warnmap : Warnmap

/-- The call of `dprintf`. -/
def GuestCall.report (call : GuestCall) : List Byte × List VaArg :=
  (unhandledFormat, [.int (call.nr.setWidth 32), .long call.arg0, .long call.arg1,
    .long call.arg2, .long call.arg3, .long call.arg4, .long call.arg5])

def unhandledSyscall (warnmap : Warnmap) (call : GuestCall) : Unhandled :=
  if call.nr.toNat < 16 * 8 * 8 then
    if warnmap (call.nr.toNat / 64) &&& warnMask call.nr ≠ 0 then
      ⟨-ENOSYS, none, warnmap⟩
    else
      ⟨-ENOSYS, some call.report, Function.update warnmap (call.nr.toNat / 64)
        (warnmap (call.nr.toNat / 64) ||| warnMask call.nr)⟩
  else
    ⟨-ENOSYS, some call.report, warnmap⟩

/-- The map after some calls. -/
def warnmapAfter (calls : List GuestCall) : Warnmap :=
  calls.foldl (fun warnmap call => (unhandledSyscall warnmap call).warnmap) warnmapInit

/-- Every call is reported if and only if no earlier one had its number. -/
def ReportedOnce (calls : List GuestCall) : Prop :=
  ∀ before call after, calls = before ++ call :: after →
    ((unhandledSyscall (warnmapAfter before) call).printed.isSome ↔
      ∀ earlier ∈ before, earlier.nr ≠ call.nr)

/-! ## What the map holds -/

/-- Two numbers have one mask in one word. -/
def SameBit (a b : Word) : Prop :=
  a.toNat / 64 = b.toNat / 64 ∧ a.toNat % 32 = b.toNat % 32

instance (a b : Word) : Decidable (SameBit a b) := inferInstanceAs (Decidable (_ ∧ _))

/-- The map is that of thirty-two numbers a word, widened with its sign. -/
structure Notes (calls : List GuestCall) (warnmap : Warnmap) : Prop where
  bits : ∃ low : ℕ → BitVec 32, (∀ k, warnmap k = (low k).signExtend 64) ∧
    ∀ k r, r < 32 → ((low k).getLsbD r = true ↔
      ∃ call ∈ calls, call.nr.toNat / 64 = k ∧ call.nr.toNat % 32 = r)

theorem signExtend_eq_zero {x : BitVec 32} : x.signExtend 64 = 0 ↔ x = 0 := by
  constructor
  · intro h
    refine BitVec.eq_of_getLsbD_eq fun i hi => ?_
    have hbit := congrArg (fun y : BitVec 64 => y.getLsbD i) h
    simp only [BitVec.getLsbD_signExtend, hi, if_true, decide_eq_true (show i < 64 by omega),
      Bool.true_and] at hbit
    simpa using hbit
  · rintro rfl
    decide

theorem and_shift_one_ne_zero {x : BitVec 32} {r : ℕ} (hr : r < 32) :
    x &&& (1#32 <<< r) ≠ 0 ↔ x.getLsbD r = true := by
  rw [← BitVec.twoPow_eq, BitVec.and_twoPow]
  cases x.getLsbD r with
  | true =>
      have hne : BitVec.twoPow 32 r ≠ 0 := by
        intro h
        have hbit := congrArg (fun y : BitVec 32 => y.getLsbD r) h
        simp [hr] at hbit
      simpa using hne
  | false => simp

theorem mod_mod_32 (n : ℕ) : n % 64 % 32 = n % 32 := Nat.mod_mod_of_dvd n (by decide)

section Step

variable {calls : List GuestCall} {warnmap : Warnmap}

theorem notes_init : Notes [] warnmapInit :=
  ⟨fun _ => 0, fun _ => (signExtend_eq_zero.mpr rfl).symm, fun _ _ _ => by simp⟩

/-- The test of `unhandled_syscall`. -/
theorem Notes.test (h : Notes calls warnmap) (nr : Word) :
    warnmap (nr.toNat / 64) &&& warnMask nr ≠ 0 ↔ ∃ call ∈ calls, SameBit call.nr nr := by
  obtain ⟨low, hlow, hbits⟩ := h.bits
  have hr : nr.toNat % 32 < 32 := Nat.mod_lt _ (by decide)
  rw [hlow, warnMask, mod_mod_32, ← BitVec.signExtend_and, ne_eq, signExtend_eq_zero, ← ne_eq,
    and_shift_one_ne_zero hr]
  exact hbits _ _ hr

theorem Notes.step (h : Notes calls warnmap) {call : GuestCall} (hlt : call.nr.toNat < 1024) :
    Notes (calls ++ [call]) (unhandledSyscall warnmap call).warnmap := by
  have htest := h.test call.nr
  obtain ⟨low, hlow, hbits⟩ := h.bits
  rw [unhandledSyscall, if_pos hlt]
  by_cases hseen : warnmap (call.nr.toNat / 64) &&& warnMask call.nr ≠ 0
  · rw [if_pos hseen]
    obtain ⟨earlier, hmem, hdiv, hmod⟩ := htest.mp hseen
    refine ⟨low, hlow, fun k r hr => ?_⟩
    rw [hbits k r hr]
    simp only [List.mem_append, List.mem_singleton]
    constructor
    · rintro ⟨c, hc, hcond⟩
      exact ⟨c, .inl hc, hcond⟩
    · rintro ⟨c, hc | rfl, hcond⟩
      · exact ⟨c, hc, hcond⟩
      · exact ⟨earlier, hmem, hdiv.trans hcond.1, hmod.trans hcond.2⟩
  · rw [if_neg hseen]
    refine ⟨Function.update low (call.nr.toNat / 64)
      (low (call.nr.toNat / 64) ||| 1#32 <<< (call.nr.toNat % 32)), fun k => ?_, fun k r hr => ?_⟩
    · dsimp only
      by_cases hk : k = call.nr.toNat / 64
      · rw [hk, Function.update_self, Function.update_self, hlow, warnMask, mod_mod_32,
          BitVec.signExtend_or]
      · rw [Function.update_of_ne hk, Function.update_of_ne hk, hlow]
    · simp only [List.mem_append, List.mem_singleton]
      by_cases hk : k = call.nr.toNat / 64
      · rw [hk, Function.update_self, BitVec.getLsbD_or, Bool.or_eq_true, hbits _ _ hr,
          ← BitVec.twoPow_eq, BitVec.getLsbD_twoPow]
        constructor
        · rintro (⟨c, hc, hcond⟩ | hbit)
          · exact ⟨c, .inl hc, hcond⟩
          · refine ⟨call, .inr rfl, rfl, ?_⟩
            exact (by simpa using hbit : _ ∧ _).2
        · rintro ⟨c, hc | rfl, hcond⟩
          · exact .inl ⟨c, hc, hcond⟩
          · exact .inr (by simp [hr, hcond.2])
      · rw [Function.update_of_ne hk, hbits k r hr]
        constructor
        · rintro ⟨c, hc, hcond⟩
          exact ⟨c, .inl hc, hcond⟩
        · rintro ⟨c, hc | rfl, hcond⟩
          · exact ⟨c, hc, hcond⟩
          · exact absurd hcond.1.symm hk

end Step

theorem warnmapAfter_append (calls : List GuestCall) (call : GuestCall) :
    warnmapAfter (calls ++ [call]) =
      (unhandledSyscall (warnmapAfter calls) call).warnmap := by
  simp [warnmapAfter, List.foldl_append]

theorem notes_after {calls : List GuestCall} (h : ∀ call ∈ calls, call.nr.toNat < 1024) :
    Notes calls (warnmapAfter calls) := by
  induction calls using List.reverseRecOn with
  | nil => exact notes_init
  | append_singleton calls call ih =>
      rw [warnmapAfter_append]
      refine (ih fun c hc => h c ?_).step (h call ?_)
      · exact List.mem_append_left _ hc
      · simp

/-- A call is reported if and only if no earlier number has its bit. -/
theorem printed_isSome_iff {before : List GuestCall} {call : GuestCall}
    (hbefore : ∀ c ∈ before, c.nr.toNat < 1024) (hlt : call.nr.toNat < 1024) :
    (unhandledSyscall (warnmapAfter before) call).printed.isSome ↔
      ∀ earlier ∈ before, ¬SameBit earlier.nr call.nr := by
  have htest := (notes_after hbefore).test call.nr
  rw [unhandledSyscall, if_pos hlt]
  by_cases hseen : warnmapAfter before (call.nr.toNat / 64) &&& warnMask call.nr ≠ 0
  · obtain ⟨earlier, hmem, hsame⟩ := htest.mp hseen
    rw [if_pos hseen]
    simp only [Option.isSome_none, Bool.false_eq_true, false_iff, not_forall, not_not]
    exact ⟨earlier, hmem, hsame⟩
  · rw [if_neg hseen]
    simp only [Option.isSome_some, true_iff]
    intro earlier hmem hsame
    exact hseen (htest.mpr ⟨earlier, hmem, hsame⟩)

theorem SameBit.symm {a b : Word} (h : SameBit a b) : SameBit b a := ⟨h.1.symm, h.2.symm⟩

theorem SameBit.of_eq {a b : Word} (h : a = b) : SameBit a b := by
  rw [h]
  exact ⟨rfl, rfl⟩

theorem ReportedOnce.init {calls : List GuestCall} {call : GuestCall}
    (h : ReportedOnce (calls ++ [call])) : ReportedOnce calls := by
  intro before c after hcalls
  refine h before c (after ++ [call]) ?_
  rw [hcalls, List.append_assoc, List.cons_append]

theorem separate_of_reportedOnce {calls : List GuestCall}
    (hlt : ∀ call ∈ calls, call.nr.toNat < 1024) (hreported : ReportedOnce calls) :
    ∀ call ∈ calls, ∀ other ∈ calls, SameBit call.nr other.nr → call.nr = other.nr := by
  induction calls using List.reverseRecOn with
  | nil => simp
  | append_singleton calls last ih =>
      have hlt' : ∀ call ∈ calls, call.nr.toNat < 1024 :=
        fun call hcall => hlt call (List.mem_append_left _ hcall)
      have hsep := ih hlt' hreported.init
      -- the last number against an earlier one
      have hlast : ∀ call ∈ calls, SameBit call.nr last.nr → call.nr = last.nr := by
        intro call hcall hsame
        have hprint := hreported calls last [] rfl
        rw [printed_isSome_iff hlt' (hlt last (by simp))] at hprint
        have hold : ¬∀ earlier ∈ calls, earlier.nr ≠ last.nr :=
          fun hnew => hprint.mpr hnew call hcall hsame
        push Not at hold
        obtain ⟨earlier, hmem, heq⟩ := hold
        rw [← heq] at hsame ⊢
        exact hsep call hcall earlier hmem hsame
      intro call hcall other hother hsame
      rw [List.mem_append, List.mem_singleton] at hcall hother
      rcases hcall with hcall | rfl
      · rcases hother with hother | rfl
        · exact hsep call hcall other hother hsame
        · exact hlast call hcall hsame
      · rcases hother with hother | rfl
        · exact (hlast other hother hsame.symm).symm
        · rfl

/-- Every unsupported number is reported once exactly if no two numbers of the run
have the same bit. -/
theorem reportedOnce_iff (calls : List GuestCall) (hlt : ∀ call ∈ calls, call.nr.toNat < 1024) :
    ReportedOnce calls ↔
      ∀ call ∈ calls, ∀ other ∈ calls, SameBit call.nr other.nr → call.nr = other.nr := by
  constructor
  · exact separate_of_reportedOnce hlt
  · intro hsep before call after hcalls
    have hmem : ∀ c ∈ before, c ∈ calls := by
      intro c hc
      rw [hcalls]
      exact List.mem_append_left _ hc
    have hcall : call ∈ calls := by
      rw [hcalls]
      simp
    rw [printed_isSome_iff (fun c hc => hlt c (hmem c hc)) (hlt call hcall)]
    constructor
    · intro h earlier hearlier heq
      exact h earlier hearlier (.of_eq heq)
    · intro h earlier hearlier hsame
      exact h earlier hearlier (hsep earlier (hmem earlier hearlier) call hcall hsame)

/-- A call without arguments. -/
def plainCall (nr : Word) : GuestCall := ⟨nr, 0, 0, 0, 0, 0, 0⟩

theorem reportedOnce_vfork_getdents :
    ReportedOnce [plainCall 58, plainCall 78, plainCall 58] :=
  (reportedOnce_iff [plainCall 58, plainCall 78, plainCall 58] (by decide)).mpr (by decide)

/-- `syslog` is not reported after `msgctl`. -/
theorem not_reportedOnce :
    ¬ReportedOnce [plainCall 71, plainCall 103] ∧
      (unhandledSyscall (warnmapAfter [plainCall 71]) (plainCall 103)).printed = none := by
  have hnone : (unhandledSyscall (warnmapAfter [plainCall 71]) (plainCall 103)).printed = none := by
    decide
  refine ⟨fun h => ?_, hnone⟩
  have hprint := (h [plainCall 71] (plainCall 103) [] rfl).mpr (by decide)
  rw [hnone] at hprint
  exact absurd hprint (by decide)

end PollyInstrew.Emulate
