import PollyInstrew.Client.Elf
import Mathlib.Tactic.IntervalCases

/-!
# The names of translated functions

`rtld_elf_decode_name` reads a guest address from a name: a letter, octal
digits, then the end of the name or an underscore.  At any other character it
returns zero without an address, and its callers go on with address zero.
-/

namespace PollyInstrew.Client

open PollyInstrew.ByteMemory PollyInstrew.StateExcept

/-! ## Names -/

/-- An octal digit. -/
def IsOctal (b : Byte) : Prop := ¬(b < 0x30#8 ∨ 0x38#8 ≤ b)

/-- The end of a name, or the underscore before its ignored part. -/
def IsNameEnd (b : Byte) : Prop := b = 0#8 ∨ b = 0x5f#8

/-- The name starts with `Z` or `S`. -/
def HasLetter (name : CStr) : Prop := name 0 = 0x5a#8 ∨ name 0 = 0x53#8

/-- The digits after the letter end before position `n`, where the name ends. -/
structure EndsAt (name : CStr) (n : ℕ) : Prop where
  pos : 1 ≤ n
  digits : ∀ k, 1 ≤ k → k < n → IsOctal (name k)
  stop : IsNameEnd (name n)

/-- The names that stand for guest addresses. -/
def GuestName (name : CStr) : Prop := HasLetter name ∧ ∃ n, EndsAt name n

/-- Value of the digits at the positions `1, …, n`. -/
def octalValue (name : CStr) : ℕ → ℕ
  | 0 => 0
  | n + 1 => 8 * octalValue name n + ((name (n + 1)).toNat - 0x30)

/-- The guest address of a name that ends at position `n`. -/
def nameAddr (skew : Word) (name : CStr) (n : ℕ) : Word :=
  if name 0 = 0x53#8 then BitVec.ofNat 64 (octalValue name (n - 1)) + skew
  else BitVec.ofNat 64 (octalValue name (n - 1))

theorem IsOctal.not_isNameEnd {b : Byte} (h : IsOctal b) : ¬IsNameEnd b := by
  rintro (rfl | rfl) <;> exact h (by decide)

/-- A name ends at one position only. -/
theorem EndsAt.unique {name : CStr} {n n' : ℕ} (h : EndsAt name n) (h' : EndsAt name n') :
    n = n' := by
  rcases Nat.lt_trichotomy n n' with hlt | heq | hgt
  · exact absurd h.stop (h'.digits n h.pos hlt).not_isNameEnd
  · exact heq
  · exact absurd h'.stop (h.digits n' h'.pos hgt).not_isNameEnd

/-! ## The digit loop -/

/-- One more octal digit. -/
theorem shift_or_digit (v : ℕ) {d : ℕ} (hd : d < 8) :
    (BitVec.ofNat 64 v <<< 3) ||| ((BitVec.ofNat 8 (0x30 + d) - 0x30#8).setWidth 64) =
      BitVec.ofNat 64 (8 * v + d) := by
  have hdigit : (BitVec.ofNat 8 (0x30 + d) - 0x30#8).setWidth 64 = BitVec.ofNat 64 d := by
    interval_cases d <;> decide
  have hdisj : (BitVec.ofNat 64 v <<< 3) &&& BitVec.ofNat 64 d = 0#64 := by
    apply BitVec.eq_of_getLsbD_eq
    intro i hi
    simp only [BitVec.getLsbD_and, BitVec.getLsbD_shiftLeft, BitVec.getLsbD_ofNat]
    by_cases hlow : i < 3
    · simp [hlow]
    · have hpow : 2 ^ 3 ≤ 2 ^ i := Nat.pow_le_pow_right (by decide) (Nat.le_of_not_lt hlow)
      have : d.testBit i = false := Nat.testBit_lt_two_pow (Nat.lt_of_lt_of_le hd hpow)
      simp [this]
  rw [hdigit, ← BitVec.add_eq_or_of_and_eq_zero _ _ hdisj]
  apply BitVec.eq_of_toNat_eq
  rw [BitVec.toNat_add, BitVec.toNat_shiftLeft, BitVec.toNat_ofNat, BitVec.toNat_ofNat,
    BitVec.toNat_ofNat, Nat.shiftLeft_eq]
  omega

theorem IsOctal.eq_ofNat {b : Byte} (h : IsOctal b) :
    b.toNat - 0x30 < 8 ∧ b = BitVec.ofNat 8 (0x30 + (b.toNat - 0x30)) := by
  have hlo : ¬b.toNat < 0x30 := fun hlt => h (Or.inl hlt)
  have hhi : ¬0x38 ≤ b.toNat := fun hle => h (Or.inr hle)
  refine ⟨by omega, BitVec.eq_of_toNat_eq ?_⟩
  rw [BitVec.toNat_ofNat]
  omega

theorem decodeDigits_stop {name : CStr} {k : ℕ} (h : IsNameEnd (name k)) (fuel : ℕ)
    (addr : Word) : decodeDigits name (fuel + 1) k addr = some addr := by
  unfold IsNameEnd at h
  rw [decodeDigits, if_pos h]

theorem decodeDigits_digit {name : CStr} {k : ℕ} (h : IsOctal (name (k + 1))) (fuel : ℕ) :
    decodeDigits name (fuel + 1) (k + 1) (BitVec.ofNat 64 (octalValue name k)) =
      decodeDigits name fuel (k + 2) (BitVec.ofNat 64 (octalValue name (k + 1))) := by
  obtain ⟨hd, hchar⟩ := h.eq_ofNat
  have hend := h.not_isNameEnd
  unfold IsNameEnd at hend
  unfold IsOctal at h
  rw [decodeDigits, if_neg hend, if_neg h, octalValue, ← shift_or_digit _ hd, ← hchar]

/-- The loop reads the digits up to the end of the name. -/
theorem decodeDigits_of_ends {name : CStr} {n : ℕ} (hstop : IsNameEnd (name n)) :
    ∀ (fuel k : ℕ), k < n → n ≤ k + fuel →
      (∀ j, k < j → j < n → IsOctal (name j)) →
      decodeDigits name fuel (k + 1) (BitVec.ofNat 64 (octalValue name k)) =
        some (BitVec.ofNat 64 (octalValue name (n - 1))) := by
  intro fuel
  induction fuel with
  | zero =>
      intro k hlt hle
      omega
  | succ fuel ih =>
      intro k hlt hle hdigits
      rcases Nat.lt_or_eq_of_le (Nat.succ_le_of_lt hlt) with hmore | rfl
      · rw [decodeDigits_digit (hdigits (k + 1) (Nat.lt_succ_self k) hmore)]
        exact ih (k + 1) hmore (by omega) fun j hj => hdigits j (by omega)
      · exact decodeDigits_stop hstop fuel _

/-- Where the loop has stopped, the name ends. -/
theorem ends_of_decodeDigits {name : CStr} :
    ∀ (fuel k : ℕ) {addr v : Word}, decodeDigits name fuel k addr = some v →
      ∃ n, k ≤ n ∧ n < k + fuel ∧ (∀ j, k ≤ j → j < n → IsOctal (name j)) ∧
        IsNameEnd (name n) := by
  intro fuel
  induction fuel with
  | zero =>
      intro k addr v h
      cases h
  | succ fuel ih =>
      intro k addr v h
      rw [decodeDigits] at h
      split at h
      · next hstop =>
        exact ⟨k, Nat.le_refl k, by omega, fun j hle hlt => by omega, hstop⟩
      split at h
      · cases h
      next hoct =>
      obtain ⟨n, hle, hlt, hdigits, hstop⟩ := ih (k + 1) h
      refine ⟨n, by omega, by omega, ?_, hstop⟩
      intro j hj hjn
      rcases Nat.lt_or_eq_of_le hj with hj | rfl
      · exact hdigits j hj hjn
      · exact hoct

/-! ## The grammar -/

/-- What the lookup in the PLT makes of a name. -/
def pltLookup (host : Host) (name : CStr) (c : State) : Except ℤ Word :=
  match pltIndex host.arch name with
  | some i => .ok (c.plt + BitVec.ofNat 64 (i * pltFuncSize))
  | none => .error (-EINVAL)

/-- Names of guest addresses are accepted, with their address; every other name
is an error, which makes the linker look it up in the PLT. -/
structure DecodesGrammar (skew : Word) (name : CStr) : Prop where
  accepts : ∀ addr, rtldElfDecodeName skew name = .ok (some addr) ↔
    HasLetter name ∧ ∃ n, EndsAt name n ∧ addr = nameAddr skew name n
  rejects : ¬GuestName name → ∃ e < 0, rtldElfDecodeName skew name = .error e
  falls : ¬GuestName name → startsWith name (literal "glob_") 0 = false →
    equals name (literal "instrew_baseaddr") 0 = false →
    ∀ (host : Host) (re : RtldElf) (pd : RtldPatchData) (c : State), re.skew = skew →
      (resolveUndefined host re name pd).run c = (pltLookup host name c, c)

theorem rtldElfDecodeName_of_not_letter {name : CStr} (h : ¬HasLetter name) (skew : Word) :
    rtldElfDecodeName skew name = .error (-EINVAL) := by
  rw [HasLetter, not_or] at h
  rw [rtldElfDecodeName, if_pos h]

theorem rtldElfDecodeName_of_letter {name : CStr} (h : HasLetter name) (skew : Word) :
    rtldElfDecodeName skew name = .ok ((decodeDigits name (2 ^ 32 - 1) 1 0#64).map
      fun addr => if name 0 = 0x53#8 then addr + skew else addr) := by
  rw [rtldElfDecodeName, if_neg]
  rw [← not_or, not_not]
  exact h

theorem rtldElfDecodeName_of_endsAt {name : CStr} (h : HasLetter name) {n : ℕ}
    (hends : EndsAt name n) (hn : n < 2 ^ 32) (skew : Word) :
    rtldElfDecodeName skew name = .ok (some (nameAddr skew name n)) := by
  have hdec := decodeDigits_of_ends hends.stop (2 ^ 32 - 1) 0 hends.pos (by omega)
    fun j hj => hends.digits j hj
  rw [rtldElfDecodeName_of_letter h]
  exact congrArg (fun o => Except.ok (Option.map _ o)) hdec

theorem resolveUndefined_of_error {host : Host} {re : RtldElf} {name : CStr} {e : ℤ}
    (hglob : startsWith name (literal "glob_") 0 = false)
    (hbase : equals name (literal "instrew_baseaddr") 0 = false)
    (hdec : rtldElfDecodeName re.skew name = .error e) (pd : RtldPatchData) (c : State) :
    (resolveUndefined host re name pd).run c = (pltLookup host name c, c) := by
  rw [resolveUndefined, hglob, hbase, hdec, pltLookup]
  dsimp only [Bool.false_eq_true, if_false]
  rw [if_neg Bool.false_ne_true, if_neg Bool.false_ne_true, Prog.run_bind, Prog.run_get]
  cases pltIndex host.arch name with
  | none => rfl
  | some i => rfl

theorem decodesGrammar_of_not_letter {name : CStr} (hletter : ¬HasLetter name) (skew : Word) :
    DecodesGrammar skew name := by
  have hdec := rtldElfDecodeName_of_not_letter hletter skew
  refine ⟨?_, fun _ => ⟨-EINVAL, by decide, hdec⟩, ?_⟩
  · intro addr
    rw [hdec]
    exact ⟨nofun, fun hok => absurd hok.1 hletter⟩
  · rintro - hglob hbase host re pd c rfl
    exact resolveUndefined_of_error hglob hbase hdec pd c

theorem decodesGrammar_of_endsAt {name : CStr} (hletter : HasLetter name) {n : ℕ}
    (hends : EndsAt name n) (hn : n < 2 ^ 32) (skew : Word) : DecodesGrammar skew name := by
  have hdec := rtldElfDecodeName_of_endsAt hletter hends hn skew
  have hguest : GuestName name := ⟨hletter, n, hends⟩
  refine ⟨?_, fun hnot => absurd hguest hnot, fun hnot => absurd hguest hnot⟩
  intro addr
  rw [hdec]
  constructor
  · intro h
    exact ⟨hletter, n, hends, (Option.some.inj (Except.ok.inj h)).symm⟩
  · rintro ⟨-, n', hends', rfl⟩
    rw [hends.unique hends']

/-- The function follows its grammar on exactly the names that do not start with
`Z` or `S` and those that stand for guest addresses, with less than `2 ^ 32 - 1`
digits. -/
theorem decodesGrammar_iff (skew : Word) (name : CStr) :
    DecodesGrammar skew name ↔ ¬HasLetter name ∨ ∃ n < 2 ^ 32, EndsAt name n := by
  constructor
  · intro h
    by_cases hletter : HasLetter name
    swap
    · exact Or.inl hletter
    right
    have hdec := rtldElfDecodeName_of_letter hletter skew
    by_cases hguest : GuestName name
    · obtain ⟨-, n, hends⟩ := hguest
      rw [(h.accepts _).mpr ⟨hletter, n, hends, rfl⟩] at hdec
      obtain ⟨addr, haddr, -⟩ := Option.map_eq_some_iff.mp (Except.ok.inj hdec).symm
      obtain ⟨n', hpos, hlt, hdigits, hstop⟩ := ends_of_decodeDigits _ _ haddr
      exact ⟨n', by omega, hpos, hdigits, hstop⟩
    · obtain ⟨e, -, herr⟩ := h.rejects hguest
      rw [herr] at hdec
      cases hdec
  · rintro (hletter | ⟨n, hn, hends⟩)
    · exact decodesGrammar_of_not_letter hletter skew
    · by_cases hletter : HasLetter name
      · exact decodesGrammar_of_endsAt hletter hends hn skew
      · exact decodesGrammar_of_not_letter hletter skew

/-- The name `Z9` is no name of a guest address, yet the function returns zero,
and an undefined symbol of that name is linked to guest address zero. -/
theorem not_decodesGrammar_z9 :
    (¬GuestName (literalCStr "Z9") ∧ ∀ skew, ¬DecodesGrammar skew (literalCStr "Z9")) ∧
      (∀ skew, rtldElfDecodeName skew (literalCStr "Z9") = .ok none) ∧
      ∀ host re pd, resolveUndefined host re (literalCStr "Z9") pd =
        resolveGuestAddr host pd 0#64 := by
  have hnone : ∀ skew, rtldElfDecodeName skew (literalCStr "Z9") = .ok none := fun _ => rfl
  have hguest : ¬GuestName (literalCStr "Z9") := by
    rintro ⟨-, n, hends⟩
    have hpos := hends.pos
    rcases Nat.lt_or_eq_of_le hpos with hlt | rfl
    · exact hends.digits 1 (Nat.le_refl 1) hlt (by decide)
    · exact absurd hends.stop (by unfold IsNameEnd; decide)
  refine ⟨⟨hguest, ?_⟩, hnone, fun _ _ _ => rfl⟩
  intro skew h
  obtain ⟨e, -, herr⟩ := h.rejects hguest
  rw [hnone] at herr
  cases herr

end PollyInstrew.Client
