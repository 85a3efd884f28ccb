import PollyInstrew.Client.DecodeName
import PollyInstrew.Server.CallConv

/-!
# Guest addresses in symbol names

The server writes guest addresses into the names of functions, the client reads
them back from the symbol table of an object.
-/

namespace PollyInstrew.Protocol

open PollyInstrew.ByteMemory
open PollyInstrew.Client (CStr decodeDigits rtldElfDecodeName shift_or_digit)
open PollyInstrew.Server

/-- A string in memory, with the byte that ends it. -/
def cstr (bytes : List Byte) : CStr := fun k => (bytes[k]?).getD 0

/-- From position `k` on, `name` is the string `bytes`. -/
def HoldsAt (name : CStr) (k : ℕ) (bytes : List Byte) : Prop :=
  ∀ i, name (k + i) = (bytes[i]?).getD 0

theorem HoldsAt.head {name : CStr} {k : ℕ} {b : Byte} {bytes : List Byte}
    (h : HoldsAt name k (b :: bytes)) : name k = b :=
  h 0

theorem HoldsAt.tail {name : CStr} {k : ℕ} {b : Byte} {bytes : List Byte}
    (h : HoldsAt name k (b :: bytes)) : HoldsAt name (k + 1) bytes := by
  intro i
  have := h (i + 1)
  rw [Nat.add_assoc, Nat.add_comm 1 i]
  simpa using this

theorem holdsAt_cstr (b : Byte) (bytes : List Byte) : HoldsAt (cstr (b :: bytes)) 1 bytes := by
  have h : HoldsAt (cstr (b :: bytes)) 0 (b :: bytes) := by
    intro i
    rw [Nat.zero_add]
    rfl
  exact h.tail

/-- What may follow the digits: nothing, or an underscore and anything. -/
def IsSuffix (suffix : List Byte) : Prop := suffix = [] ∨ suffix.head? = some 0x5f#8

/-- The loop of `rtld_elf_decode_name` over octal digits. -/
theorem decodeDigits_eq {name : CStr} {suffix : List Byte} (hsuffix : IsSuffix suffix) :
    ∀ {digits : List ℕ} {fuel k v : ℕ}, (∀ d ∈ digits, d < 8) → digits.length < fuel →
      HoldsAt name k (digits.map (fun d => BitVec.ofNat 8 (0x30 + d)) ++ suffix) →
      decodeDigits name fuel k (BitVec.ofNat 64 v) =
        some (BitVec.ofNat 64 (digits.foldl (fun v d => 8 * v + d) v)) := by
  intro digits
  induction digits with
  | nil =>
      intro fuel k v _ hfuel hname
      obtain ⟨fuel, rfl⟩ := Nat.exists_eq_succ_of_ne_zero (Nat.ne_zero_of_lt hfuel)
      have hend : name k = 0#8 ∨ name k = 0x5f#8 := by
        obtain rfl | hhead := hsuffix
        · exact Or.inl (hname 0)
        · obtain ⟨tail, rfl⟩ := List.head?_eq_some_iff.mp hhead
          exact Or.inr hname.head
      rw [decodeDigits, if_pos hend]
      rfl
  | cons d digits ih =>
      intro fuel k v hdigits hfuel hname
      obtain ⟨fuel, rfl⟩ := Nat.exists_eq_succ_of_ne_zero (Nat.ne_zero_of_lt hfuel)
      have hd := hdigits d List.mem_cons_self
      have hk : name k = BitVec.ofNat 8 (0x30 + d) := hname.head
      have hchar : ¬ (name k = 0#8 ∨ name k = 0x5f#8) ∧ ¬ (name k < 0x30#8 ∨ 0x38#8 ≤ name k) := by
        rw [hk]
        interval_cases d <;> decide
      rw [decodeDigits, if_neg hchar.1, if_neg hchar.2, hk, shift_or_digit v hd]
      exact ih (fun d' hd' => hdigits d' (List.mem_cons_of_mem _ hd'))
        (Nat.lt_of_succ_lt_succ hfuel) hname.tail

/-- The digits `oct` writes are read back. -/
theorem decodeDigits_oct {c : Byte} {suffix : List Byte} (hsuffix : IsSuffix suffix)
    (v : Addr) {fuel : ℕ} (hfuel : 22 < fuel) :
    decodeDigits (cstr (c :: (oct v ++ suffix))) fuel 1 0#64 = some v := by
  obtain ⟨digits, hoct, hdigits, hlen, hvalue⟩ := oct_spec v
  have hname := holdsAt_cstr c (oct v ++ suffix)
  rw [hoct] at hname
  have hdec := decodeDigits_eq hsuffix (v := 0) hdigits (Nat.lt_of_le_of_lt hlen hfuel) hname
  rw [hoct]
  refine hdec.trans ?_
  have hfold : digits.foldl (fun v d => 8 * v + d) 0 = v.toNat := hvalue
  rw [hfold, BitVec.ofNat_toNat, BitVec.setWidth_eq]

theorem decodeName_z {suffix : List Byte} (hsuffix : IsSuffix suffix) (skew v : Addr) :
    rtldElfDecodeName skew (cstr (0x5a#8 :: (oct v ++ suffix))) = .ok (some v) := by
  have hc : cstr (0x5a#8 :: (oct v ++ suffix)) 0 = 0x5a#8 := rfl
  rw [rtldElfDecodeName, hc, if_neg (by decide), decodeDigits_oct hsuffix v (by decide)]
  rfl

theorem decodeName_s {suffix : List Byte} (hsuffix : IsSuffix suffix) (skew v : Addr) :
    rtldElfDecodeName skew (cstr (0x53#8 :: (oct v ++ suffix))) = .ok (some (v + skew)) := by
  have hc : cstr (0x53#8 :: (oct v ++ suffix)) 0 = 0x53#8 := rfl
  rw [rtldElfDecodeName, hc, if_neg (by decide), decodeDigits_oct hsuffix v (by decide)]
  rfl

theorem isSuffix_suffix (cc : CallConv) : IsSuffix cc.suffix := by
  cases cc
  · exact Or.inl rfl
  all_goals exact Or.inr rfl

/-- The globals as the client resolves them: `instrew_baseaddr` is the skew. -/
def globals (skew : Addr) (other : List Byte → Addr) (name : List Byte) : Addr :=
  if name = chars "instrew_baseaddr" then skew else other name

/-- A name that `FuncConstName` makes denotes the constant it was made from. -/
theorem decodeName_funcConstName {suffix : List Byte} (hsuffix : IsSuffix suffix) (skew : Addr)
    (other : List Byte → Addr) {pc : PcValue} {name : List Byte}
    (hname : funcConstName pc = some name) :
    ∃ v, pc.eval (globals skew other) = some v ∧
      rtldElfDecodeName skew (cstr (name ++ suffix)) = .ok (some v) := by
  unfold funcConstName at hname
  split at hname
  · next v =>
    obtain rfl := Option.some.inj hname
    exact ⟨v, rfl, decodeName_z hsuffix skew v⟩
  · next base v =>
    split at hname
    · next hbase =>
      obtain rfl := Option.some.inj hname
      refine ⟨skew + v, ?_, ?_⟩
      · simp [PcValue.eval, globals, hbase]
      · rw [BitVec.add_comm]
        exact decodeName_s hsuffix skew v
    · exact absurd hname nofun
  · exact absurd hname nofun

/-- Guest addresses survive the symbol names: the two forms of a name, the names
of `FuncConstName`, of the requested function (with the requested address as the
skew) and of the functions of a tool. -/
theorem decodeName_server (t b : Addr) {suffix : List Byte} (hsuffix : IsSuffix suffix) :
    rtldElfDecodeName b (cstr (chars "Z" ++ oct t ++ suffix)) = .ok (some t) ∧
      rtldElfDecodeName b (cstr (chars "S" ++ oct (t - b) ++ suffix)) = .ok (some t) ∧
      (∀ (other : List Byte → Addr) (pc : PcValue) (name : List Byte),
        funcConstName pc = some name → ∃ v, pc.eval (globals b other) = some v ∧
          rtldElfDecodeName b (cstr (name ++ suffix)) = .ok (some v)) ∧
      (∀ cc, rtldElfDecodeName t (cstr (liftName cc)) = .ok (some t)) ∧
      ∀ n fn, rtldElfDecodeName b (cstr (toolName n fn)) =
        .ok (some (BitVec.ofNat 64 (2 ^ 63 + n))) := by
  refine ⟨decodeName_z hsuffix b t, ?_, ?_, ?_, ?_⟩
  · have h := decodeName_s hsuffix b (t - b)
    rw [BitVec.sub_add_cancel] at h
    exact h
  · intro other pc name hname
    exact decodeName_funcConstName hsuffix b other hname
  · intro cc
    have h := decodeName_s (isSuffix_suffix cc) t 0#64
    rw [BitVec.zero_add] at h
    exact h
  · intro n fn
    have hsuffix : IsSuffix (chars "_" ++ fn) := Or.inr rfl
    have h := decodeName_z hsuffix b (BitVec.ofNat 64 (2 ^ 63 + n))
    rw [← List.append_assoc] at h
    exact h

theorem decodeName_server_pic :
    rtldElfDecodeName 0x401000 (cstr (chars "S1777777777777777777770_hhvm")) =
      .ok (some 0x400ff8) := by
  have hoct : oct (0x400ff8 - 0x401000) = chars "1777777777777777777770" := by decide +kernel
  have hsuffix : IsSuffix (chars "_hhvm") := Or.inr rfl
  have h := (decodeName_server 0x400ff8 0x401000 hsuffix).2.1
  rw [hoct] at h
  exact h

end PollyInstrew.Protocol
