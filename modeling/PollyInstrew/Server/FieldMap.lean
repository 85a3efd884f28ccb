import PollyInstrew.Support.ByteMemory

/-!
# The fields of the CPU state that are passed in registers

`CreateSptrMap` marks the first byte of every field of a table with its index and
the other bytes with -1, in an array of plain `char`.  Whether such a byte is
negative when it is read back depends on the signedness of `char`.
-/

namespace PollyInstrew.Server

open PollyInstrew.ByteMemory

/-- `SptrField`, without the positions of the argument and of the result. -/
structure SptrField where
  offset : ℕ
  size : ℕ
  deriving DecidableEq

def sptrMaxCnt : ℕ := 16
def sptrMaxOff : ℕ := 0x1a0

abbrev SptrFieldMap := ℕ → BitVec 8

/-- The value of a plain `char`. -/
def charVal (signed : Bool) (c : BitVec 8) : ℤ := if signed then c.toInt else c.toNat

/-- One iteration of `CreateSptrMap`. -/
def setField (res : SptrFieldMap) (i : ℕ) (field : SptrField) : SptrFieldMap := fun x =>
  if x = field.offset then
    BitVec.ofNat 8 (i + 1)
  else if field.offset < x ∧ x < field.offset + field.size then
    BitVec.ofInt 8 (-1)
  else
    res x

def createSptrMapFrom : ℕ → List SptrField → SptrFieldMap → SptrFieldMap
  | _, [], res => res
  | i, field :: fields, res => createSptrMapFrom (i + 1) fields (setField res i field)

/-- `CreateSptrMap`. -/
def createSptrMap (fields : List SptrField) : SptrFieldMap :=
  createSptrMapFrom 0 fields fun _ => 0

/-- `CCState::GetFieldIdx`. -/
def getFieldIdx (signed : Bool) (fields : List SptrField) (idx : ℕ) : ℤ :=
  if idx < sptrMaxOff then charVal signed (createSptrMap fields idx) else 0

/-! ## Tables of fields -/

/-- A byte of the field. -/
def SptrField.Covers (f : SptrField) (x : ℕ) : Prop := f.offset ≤ x ∧ x < f.offset + f.size

instance (f : SptrField) (x : ℕ) : Decidable (f.Covers x) :=
  inferInstanceAs (Decidable (_ ∧ _))

/-- A table: the fields are not empty, lie in the array and do not overlap. -/
structure FieldTable where
  fields : List SptrField
  count : fields.length ≤ sptrMaxCnt
  pos : ∀ f ∈ fields, 0 < f.size
  bound : ∀ f ∈ fields, f.offset + f.size ≤ sptrMaxOff
  disjoint : fields.Pairwise fun f g =>
    f.offset + f.size ≤ g.offset ∨ g.offset + g.size ≤ f.offset

theorem FieldTable.ne_of_covers (t : FieldTable) {i j : ℕ} {f g : SptrField}
    (hf : t.fields[i]? = some f) (hg : t.fields[j]? = some g) (hne : i ≠ j) :
    f.offset + f.size ≤ g.offset ∨ g.offset + g.size ≤ f.offset := by
  obtain ⟨hi, rfl⟩ := List.getElem?_eq_some_iff.mp hf
  obtain ⟨hj, rfl⟩ := List.getElem?_eq_some_iff.mp hg
  have hpair := List.pairwise_iff_getElem.mp t.disjoint
  rcases Nat.lt_or_gt_of_ne hne with hlt | hlt
  · exact hpair i j hi hj hlt
  · exact (hpair j i hj hi hlt).symm

theorem createSptrMapFrom_of_not_covers {fields : List SptrField} (i : ℕ) (res : SptrFieldMap)
    {x : ℕ} (hpos : ∀ f ∈ fields, 0 < f.size) (hx : ∀ f ∈ fields, ¬f.Covers x) :
    createSptrMapFrom i fields res x = res x := by
  induction fields generalizing i res with
  | nil => rfl
  | cons f fields ih =>
      have hf := hx f List.mem_cons_self
      have hsize := hpos f List.mem_cons_self
      rw [createSptrMapFrom, ih _ _ (fun g hg => hpos g (List.mem_cons_of_mem _ hg))
        (fun g hg => hx g (List.mem_cons_of_mem _ hg)), setField]
      unfold SptrField.Covers at hf
      rw [if_neg (by omega), if_neg (by omega)]

theorem createSptrMapFrom_of_covers {fields : List SptrField} (i : ℕ) (res : SptrFieldMap)
    {x j : ℕ} {f : SptrField} (hpos : ∀ f ∈ fields, 0 < f.size)
    (hdisj : fields.Pairwise fun f g =>
      f.offset + f.size ≤ g.offset ∨ g.offset + g.size ≤ f.offset)
    (hf : fields[j]? = some f) (hx : f.Covers x) :
    createSptrMapFrom i fields res x =
      if x = f.offset then BitVec.ofNat 8 (i + j + 1) else BitVec.ofInt 8 (-1) := by
  induction fields generalizing i res j with
  | nil => simp at hf
  | cons g fields ih =>
      have hposRest := fun g' hg => hpos g' (List.mem_cons_of_mem _ hg)
      rw [List.pairwise_cons] at hdisj
      rw [createSptrMapFrom]
      cases j with
      | zero =>
          obtain rfl : g = f := by simpa using hf
          rw [createSptrMapFrom_of_not_covers _ _ hposRest, setField]
          · unfold SptrField.Covers at hx
            by_cases heq : x = g.offset
            · rw [if_pos heq, if_pos heq, Nat.add_zero]
            · rw [if_neg heq, if_neg heq, if_pos (by omega)]
          · intro g' hg' hcovers
            have h := hdisj.1 g' hg'
            unfold SptrField.Covers at hx hcovers
            omega
      | succ j =>
          rw [ih _ _ hposRest hdisj.2 (by simpa using hf)]
          have hidx : i + 1 + j + 1 = i + (j + 1) + 1 := by omega
          rw [hidx]

section Table

variable (t : FieldTable) (signed : Bool)

theorem getFieldIdx_of_not_covers {x : ℕ} (hx : ∀ f ∈ t.fields, ¬f.Covers x) :
    getFieldIdx signed t.fields x = 0 := by
  rw [getFieldIdx, createSptrMap, createSptrMapFrom_of_not_covers 0 _ t.pos hx]
  split
  · cases signed <;> rfl
  · rfl

theorem getFieldIdx_start {i : ℕ} {f : SptrField} (hf : t.fields[i]? = some f) :
    getFieldIdx signed t.fields f.offset = i + 1 := by
  have hmem := List.mem_of_getElem? hf
  have hpos := t.pos f hmem
  have hbound := t.bound f hmem
  obtain ⟨hi, -⟩ := List.getElem?_eq_some_iff.mp hf
  have hcount : i < 16 := Nat.lt_of_lt_of_le hi t.count
  rw [getFieldIdx, if_pos (by omega), createSptrMap,
    createSptrMapFrom_of_covers 0 _ t.pos t.disjoint hf ⟨Nat.le_refl _, by omega⟩, if_pos rfl,
    Nat.zero_add]
  have hall : ∀ i < 16, ∀ signed, charVal signed (BitVec.ofNat 8 (i + 1)) = i + 1 := by decide
  exact hall i hcount signed

/-- A byte inside a field is negative exactly if `char` is signed. -/
theorem getFieldIdx_inside {f : SptrField} (hf : f ∈ t.fields) {x : ℕ} (hx : f.Covers x)
    (hne : x ≠ f.offset) :
    getFieldIdx signed t.fields x = if signed then -1 else 255 := by
  obtain ⟨i, hi⟩ := List.mem_iff_getElem?.mp hf
  have hbound := t.bound f hf
  unfold SptrField.Covers at hx
  rw [getFieldIdx, if_pos (by omega), createSptrMap,
    createSptrMapFrom_of_covers 0 _ t.pos t.disjoint hi hx, if_neg hne]
  cases signed <;> rfl

theorem getFieldIdx_ne_zero {f : SptrField} (hf : f ∈ t.fields) {x : ℕ} (hx : f.Covers x) :
    getFieldIdx signed t.fields x ≠ 0 := by
  by_cases heq : x = f.offset
  · obtain ⟨i, hi⟩ := List.mem_iff_getElem?.mp hf
    rw [heq, getFieldIdx_start t signed hi]
    omega
  · rw [getFieldIdx_inside t signed hf hx heq]
    cases signed <;> decide

/-- No byte inside a field is taken for the start of one. -/
def Distinguishes (signed : Bool) (t : FieldTable) : Prop :=
  signed = true ∨ ∀ f ∈ t.fields, f.size ≤ 1

/-- Every byte inside a field is classified as partial. -/
def PartialNegative (signed : Bool) (t : FieldTable) : Prop :=
  ∀ f ∈ t.fields, ∀ x, f.Covers x → x ≠ f.offset → getFieldIdx signed t.fields x < 0

theorem partialNegative_iff : PartialNegative signed t ↔ Distinguishes signed t := by
  constructor
  · intro h
    cases signed with
    | true => exact .inl rfl
    | false =>
        refine .inr fun f hf => ?_
        by_contra hsize
        have hx : f.Covers (f.offset + 1) := ⟨by omega, by omega⟩
        have hneg := h f hf _ hx (by omega)
        rw [getFieldIdx_inside t false hf hx (by omega)] at hneg
        exact absurd hneg (by decide)
  · rintro (rfl | hsize) f hf x hx hne
    · rw [getFieldIdx_inside t true hf hx hne]
      decide
    · have hle := hsize f hf
      unfold SptrField.Covers at hx
      omega

/-- Then a positive index is that of the field that starts there. -/
theorem Distinguishes.start_of_pos {signed : Bool} {t : FieldTable} (h : Distinguishes signed t)
    {x : ℕ} (hpos : 0 < getFieldIdx signed t.fields x) :
    ∃ (i : ℕ) (f : SptrField), t.fields[i]? = some f ∧ f.offset = x ∧
      getFieldIdx signed t.fields x = i + 1 := by
  by_cases hcov : ∃ f ∈ t.fields, f.Covers x
  · obtain ⟨f, hf, hx⟩ := hcov
    by_cases heq : x = f.offset
    · obtain ⟨i, hi⟩ := List.mem_iff_getElem?.mp hf
      exact ⟨i, f, hi, heq.symm, heq ▸ getFieldIdx_start t signed hi⟩
    · have hneg := (partialNegative_iff t signed).mpr h f hf x hx heq
      omega
  · rw [getFieldIdx_of_not_covers t signed (by simpa using hcov)] at hpos
    exact absurd hpos (by decide)

end Table

end PollyInstrew.Server
