import PollyInstrew.Server.FieldMap

/-!
# Folding stores to the CPU state into calls and returns

`FoldStores` walks back from a call or return and takes the value stored to the
start of a field as the value of that field.  It looks neither at the size of the
store nor at the stores it has passed.
-/

namespace PollyInstrew.Server

open PollyInstrew.ByteMemory

variable {rest later kept : List CcInst} {vals : List (Option Folded)} {i : ℕ} {folded : Folded}
  {bytes : List Byte} {f : SptrField}

/-! ## Instructions and struct memory -/

/-- The bytes of the CPU state, by their offset. -/
abbrev StructMem := ℕ → Byte

def StructMem.write (m : StructMem) (off : ℕ) (bytes : List Byte) : StructMem := fun x =>
  if off ≤ x then bytes[x - off]?.getD (m x) else m x

def StructMem.field (m : StructMem) (f : SptrField) : List Byte :=
  (List.range f.size).map fun i => m (f.offset + i)

/-- What the pass tells apart: stores and loads through `sptr`, calls that get `sptr`
and may change the struct, casts and stores of `sptr` itself, and the rest. -/
inductive CcInst where
  | store (off : ℕ) (bytes : List Byte)
  | load (off size : ℕ)
  | escape (effect : StructMem → StructMem)
  | leak
  | other

def CcInst.exec : CcInst → StructMem → StructMem
  | .store off bytes, m => m.write off bytes
  | .load _ _, m => m
  | .escape effect, m => effect m
  | .leak, m => m
  | .other, m => m

def execAll (insts : List CcInst) (m : StructMem) : StructMem :=
  insts.foldl (fun m inst => inst.exec m) m

/-- The instruction is a store that changes bytes of the field. -/
def CcInst.Overlaps (f : SptrField) : CcInst → Prop
  | .store off bytes =>
      0 < bytes.length ∧ off < f.offset + f.size ∧ f.offset < off + bytes.length
  | _ => False

/-- The walk of `FoldStores` ends here. -/
def CcInst.stops : CcInst → Bool
  | .load _ _ => true
  | .escape _ => true
  | _ => false

/-! ## The pass -/

/-- A folded store: its value, and the instructions between it and the call or
return. -/
structure Folded where
  bytes : List Byte
  later : List CcInst

section Pass

variable (signed : Bool) (fields : List SptrField)

/-- The loop of `CCState::FoldStores` over the instructions before the call or return,
the last one first; `none` if an assertion fails.  The result is the values and the
instructions that are left. -/
def foldWalk (afterCall : Bool) :
    List CcInst → List CcInst → List CcInst → List (Option Folded) →
      Option (List (Option Folded) × List CcInst)
  | [], _, kept, vals => if afterCall then none else some (vals, kept)
  | .load off size :: rest, _, kept, vals =>
      some (vals, rest.reverse ++ .load off size :: kept)
  | .escape effect :: rest, _, kept, vals =>
      some (vals, rest.reverse ++ .escape effect :: kept)
  | .leak :: rest, later, kept, vals =>
      foldWalk afterCall rest (.leak :: later) (.leak :: kept) vals
  | .other :: rest, later, kept, vals =>
      foldWalk afterCall rest (.other :: later) (.other :: kept) vals
  | .store off bytes :: rest, later, kept, vals =>
      let fieldidx := getFieldIdx signed fields off
      if 0 < fieldidx then
        match vals[(fieldidx - 1).toNat]? with
        | some none =>
            foldWalk afterCall rest (.store off bytes :: later) kept
              (vals.set (fieldidx - 1).toNat (some ⟨bytes, later⟩))
        | _ => none
      else
        foldWalk afterCall rest (.store off bytes :: later) (.store off bytes :: kept) vals

/-- The instructions of a block up to a call or return, or up to its end;
`afterCall` if they follow a call in the same block. -/
structure Stretch where
  insts : List CcInst
  afterCall : Bool
  callret : Bool

/-- `CCState::FoldStores`. -/
def foldStores (st : Stretch) : Option (List (Option Folded) × List CcInst) :=
  foldWalk signed fields st.afterCall st.insts.reverse [] []
    (List.replicate fields.length none)

/-- The escape analysis at one instruction. -/
def CcInst.escapes : CcInst → Bool
  | .escape _ => true
  | .leak => true
  | .other => false
  | .load off size => (List.range size).any fun i => getFieldIdx signed fields (off + i) ≠ 0
  | .store off bytes =>
      let fieldidx := getFieldIdx signed fields off
      if sptrMaxOff ≤ off then
        false
      else if fieldidx ≤ 0 then
        (List.range bytes.length).any fun i => getFieldIdx signed fields (off + i) ≠ 0
      else
        match fields[(fieldidx - 1).toNat]? with
        | some f => bytes.length ≠ f.size
        | none => true

/-- A store that the escape analysis puts into `stores`. -/
def CcInst.tracked : CcInst → Bool
  | .store off _ => 0 < getFieldIdx signed fields off
  | _ => false

/-- What is left of a stretch after its stores were folded. -/
def Stretch.left (st : Stretch) : List CcInst :=
  if st.callret then ((foldStores signed fields st).map Prod.snd).getD [] else st.insts

/-- `sptr_escapes`. -/
def sptrEscapes (fn : List Stretch) : Bool :=
  (fn.any fun st => st.insts.any fun inst => inst.escapes signed fields) ||
    fn.any fun st => (st.left signed fields).any fun inst => inst.tracked signed fields

/-- The value that `UpdateCallRet` passes for a field: the folded one, or else that in
memory if the struct is kept up to date, or else the one the field had at the
beginning. -/
def passedValue (escapes : Bool) (r : List (Option Folded) × List CcInst) (m : StructMem)
    (i : ℕ) (f : SptrField) : List Byte :=
  match r.1[i]? with
  | some (some folded) => folded.bytes
  | _ => if escapes then (execAll r.2 m).field f else m.field f

end Pass

/-! ## Properties -/

/-- No store is folded that has the wrong size or is followed by one that overlaps its
field. -/
def FoldsExact (t : FieldTable) (r : List (Option Folded) × List CcInst) : Prop :=
  ∀ (i : ℕ) (f : SptrField) (folded : Folded), t.fields[i]? = some f →
    r.1[i]? = some (some folded) →
      folded.bytes.length = f.size ∧ ∀ inst ∈ folded.later, ¬inst.Overlaps f

/-- Every field gets the value that the struct would hold. -/
def PassesMemory (escapes : Bool) (t : FieldTable) (st : Stretch)
    (r : List (Option Folded) × List CcInst) : Prop :=
  ∀ (m : StructMem) (i : ℕ) (f : SptrField), t.fields[i]? = some f →
    passedValue escapes r m i f = (execAll st.insts m).field f

/-- Between the last load or escape and the call or return, every store to the start
of a field has the size of the field and is not followed by one that overlaps
it. -/
def CleanStores (t : FieldTable) (insts : List CcInst) : Prop :=
  ∀ before off bytes later, insts = before ++ .store off bytes :: later →
    (∀ inst ∈ later, inst.stops = false) → ∀ f ∈ t.fields, f.offset = off →
      bytes.length = f.size ∧ ∀ inst ∈ later, ¬inst.Overlaps f

/-! ## What the walk folds -/

section Walk

variable {signed : Bool} {t : FieldTable} {afterCall : Bool}

/-- The cases in which the walk goes on. -/
theorem foldWalk_cons {inst : CcInst} {r : List (Option Folded) × List CcInst}
    (h : foldWalk signed t.fields afterCall (inst :: rest) later kept vals = some r) :
    (inst.stops = true ∧ r = (vals, rest.reverse ++ inst :: kept)) ∨
    (inst.stops = false ∧ inst.tracked signed t.fields = false ∧
      foldWalk signed t.fields afterCall rest (inst :: later) (inst :: kept) vals = some r) ∨
    (∃ (off : ℕ) (bytes : List Byte) (i : ℕ), inst = .store off bytes ∧
      getFieldIdx signed t.fields off = i + 1 ∧ vals[i]? = some none ∧
      foldWalk signed t.fields afterCall rest (inst :: later) kept
        (vals.set i (some ⟨bytes, later⟩)) = some r) := by
  cases inst with
  | load off size =>
      rw [foldWalk] at h
      exact .inl ⟨rfl, (Option.some.inj h).symm⟩
  | escape effect =>
      rw [foldWalk] at h
      exact .inl ⟨rfl, (Option.some.inj h).symm⟩
  | leak =>
      rw [foldWalk] at h
      exact .inr (.inl ⟨rfl, rfl, h⟩)
  | other =>
      rw [foldWalk] at h
      exact .inr (.inl ⟨rfl, rfl, h⟩)
  | store off bytes =>
      rw [foldWalk] at h
      split at h
      · rename_i hpos
        split at h
        · rename_i hnone
          refine .inr (.inr ⟨off, bytes, (getFieldIdx signed t.fields off - 1).toNat, rfl, ?_,
            hnone, h⟩)
          omega
        · cases h
      · rename_i hpos
        exact .inr (.inl ⟨rfl, by simpa [CcInst.tracked] using hpos, h⟩)

/-- Values that were found stay. -/
theorem foldWalk_keeps {r : List (Option Folded) × List CcInst}
    (h : foldWalk signed t.fields afterCall rest later kept vals = some r)
    (hi : vals[i]? = some (some folded)) : r.1[i]? = some (some folded) := by
  induction rest generalizing later kept vals with
  | nil =>
      rw [foldWalk] at h
      split at h
      · cases h
      · obtain rfl := Option.some.inj h
        exact hi
  | cons inst rest ih =>
      rcases foldWalk_cons h with ⟨-, rfl⟩ | ⟨-, -, h⟩ | ⟨off, bytes, j, -, -, hj, h⟩
      · exact hi
      · exact ih h hi
      · refine ih h ?_
        have hne : j ≠ i := by
          rintro rfl
          rw [hj] at hi
          exact absurd (Option.some.inj hi) (by simp)
        rw [List.getElem?_set_ne hne]
        exact hi

/-- Every store to a field that the walk reaches is folded. -/
theorem foldWalk_folds {after : List CcInst} {off : ℕ} {before : List CcInst}
    {r : List (Option Folded) × List CcInst}
    (h : foldWalk signed t.fields afterCall (after ++ .store off bytes :: before) later kept vals =
      some r) (hafter : ∀ inst ∈ after, inst.stops = false)
    (hidx : getFieldIdx signed t.fields off = i + 1) :
    r.1[i]? = some (some ⟨bytes, after.reverse ++ later⟩) := by
  induction after generalizing later kept vals with
  | nil =>
      rw [List.nil_append] at h
      rcases foldWalk_cons h with
        ⟨hstop, -⟩ | ⟨-, htracked, -⟩ | ⟨off', bytes', j, heq, hj, hnone, h⟩
      · exact absurd hstop (by simp [CcInst.stops])
      · simp only [CcInst.tracked, decide_eq_false_iff_not] at htracked
        omega
      · obtain ⟨rfl, rfl⟩ := CcInst.store.inj heq
        obtain rfl : j = i := by omega
        refine foldWalk_keeps h ?_
        obtain ⟨hlt, -⟩ := List.getElem?_eq_some_iff.mp hnone
        rw [List.getElem?_set_self hlt]
        rfl
  | cons inst after ih =>
      have hstop := hafter inst List.mem_cons_self
      have hrest := fun i hi => hafter i (List.mem_cons_of_mem _ hi)
      rw [List.reverse_cons, List.append_assoc]
      rcases foldWalk_cons h with ⟨hstop', -⟩ | ⟨-, -, h⟩ | ⟨off', bytes', j, -, -, -, h⟩
      · rw [hstop] at hstop'
        exact absurd hstop' (by decide)
      · exact ih h hrest
      · exact ih h hrest

/-- What is folded is a store that the walk reaches. -/
theorem foldWalk_folded {r : List (Option Folded) × List CcInst}
    (h : foldWalk signed t.fields afterCall rest later kept vals = some r)
    (hi : r.1[i]? = some (some folded)) (hnew : vals[i]? = some none) :
    ∃ after off before, rest = after ++ .store off folded.bytes :: before ∧
      (∀ inst ∈ after, inst.stops = false) ∧ folded.later = after.reverse ++ later ∧
      getFieldIdx signed t.fields off = i + 1 := by
  induction rest generalizing later kept vals with
  | nil =>
      rw [foldWalk] at h
      split at h
      · cases h
      · obtain rfl := Option.some.inj h
        rw [hi] at hnew
        exact absurd (Option.some.inj hnew) (by simp)
  | cons inst rest ih =>
      rcases foldWalk_cons h with ⟨-, rfl⟩ | ⟨hstop, -, h⟩ | ⟨off, bytes, j, rfl, hj, hnone, h⟩
      · rw [hi] at hnew
        exact absurd (Option.some.inj hnew) (by simp)
      · obtain ⟨after, off, before, rfl, hafter, hlater, hidx⟩ := ih h hnew
        refine ⟨inst :: after, off, before, rfl, ?_, ?_, hidx⟩
        · simpa [hstop] using hafter
        · rw [hlater, List.reverse_cons, List.append_assoc]
          rfl
      · by_cases hji : j = i
        · subst hji
          obtain ⟨hlt, -⟩ := List.getElem?_eq_some_iff.mp hnone
          have hkept := foldWalk_keeps h (i := j) (List.getElem?_set_self hlt)
          rw [hi] at hkept
          obtain rfl := Option.some.inj (Option.some.inj hkept)
          exact ⟨[], off, rest, rfl, by simp, rfl, hj⟩
        · obtain ⟨after, off', before, rfl, hafter, hlater, hidx⟩ :=
            ih h (by rw [List.getElem?_set_ne hji]; exact hnew)
          refine ⟨.store off bytes :: after, off', before, rfl, ?_, ?_, hidx⟩
          · simpa [CcInst.stops] using hafter
          · rw [hlater, List.reverse_cons, List.append_assoc]
            rfl

/-- A store to a field is folded or left. -/
theorem foldWalk_left {r : List (Option Folded) × List CcInst} {off : ℕ}
    (h : foldWalk signed t.fields afterCall rest later kept vals = some r)
    (hmem : .store off bytes ∈ rest) (hidx : getFieldIdx signed t.fields off = i + 1) :
    .store off bytes ∈ r.2 ∨ ∃ folded, r.1[i]? = some (some folded) := by
  induction rest generalizing later kept vals with
  | nil => exact absurd hmem List.not_mem_nil
  | cons inst rest ih =>
      rcases foldWalk_cons h with ⟨-, rfl⟩ | ⟨-, htracked, h⟩ | ⟨off', bytes', j, rfl, hj, hnone, h⟩
      · left
        rcases List.mem_cons.mp hmem with heq | hmem
        · simp [heq]
        · simp [hmem]
      · rcases List.mem_cons.mp hmem with rfl | hmem
        · simp only [CcInst.tracked, decide_eq_false_iff_not] at htracked
          omega
        · exact ih h hmem
      · rcases List.mem_cons.mp hmem with heq | hmem
        · obtain ⟨rfl, rfl⟩ := CcInst.store.inj heq
          obtain rfl : j = i := by omega
          obtain ⟨hlt, -⟩ := List.getElem?_eq_some_iff.mp hnone
          exact .inr ⟨_, foldWalk_keeps h (List.getElem?_set_self hlt)⟩
        · exact ih h hmem

end Walk

/-! ## What the struct holds -/

theorem field_congr {m m' : StructMem} (h : ∀ x, f.Covers x → m x = m' x) :
    m.field f = m'.field f := by
  apply List.map_congr_left
  intro i hi
  have hlt := List.mem_range.mp hi
  exact h _ ⟨by omega, by omega⟩

theorem field_write {m : StructMem} (hlen : bytes.length = f.size) :
    (m.write f.offset bytes).field f = bytes := by
  apply List.ext_getElem
  · simp [StructMem.field, hlen]
  · intro i h₁ h₂
    simp [StructMem.field, StructMem.write, List.getElem?_eq_getElem h₂]

theorem write_of_not_overlaps {m : StructMem} {off x : ℕ} (h : ¬(CcInst.store off bytes).Overlaps f)
    (hx : f.Covers x) : m.write off bytes x = m x := by
  unfold SptrField.Covers at hx
  simp only [CcInst.Overlaps, not_and_or] at h
  rw [StructMem.write]
  split
  · rw [List.getElem?_eq_none (by omega)]
    rfl
  · rfl

theorem execAll_append (xs ys : List CcInst) (m : StructMem) :
    execAll (xs ++ ys) m = execAll ys (execAll xs m) :=
  List.foldl_append

/-- Instructions that do not write to the field keep it. -/
theorem execAll_of_not_overlaps {insts : List CcInst} (hstore : ∀ inst ∈ insts, ¬inst.Overlaps f)
    (hescape : ∀ effect, CcInst.escape effect ∉ insts) (m : StructMem) {x : ℕ} (hx : f.Covers x) :
    execAll insts m x = m x := by
  induction insts generalizing m with
  | nil => rfl
  | cons inst insts ih =>
      have hrest := ih (fun i hi => hstore i (List.mem_cons_of_mem _ hi))
        (fun e he => hescape e (List.mem_cons_of_mem _ he)) (inst.exec m)
      rw [execAll, List.foldl_cons]
      refine hrest.trans ?_
      cases inst with
      | store off bytes => exact write_of_not_overlaps (hstore _ List.mem_cons_self) hx
      | load off size => rfl
      | escape effect => exact absurd List.mem_cons_self (hescape effect)
      | leak => rfl
      | other => rfl

/-- The walk leaves instructions that treat a field that was not folded as before. -/
theorem foldWalk_exec {signed : Bool} {t : FieldTable} {afterCall : Bool}
    {r : List (Option Folded) × List CcInst}
    (h : foldWalk signed t.fields afterCall rest later kept vals = some r)
    (hother : ∀ after off bytes before, rest = after ++ .store off bytes :: before →
      (∀ inst ∈ after, inst.stops = false) → 0 < getFieldIdx signed t.fields off →
      ¬(CcInst.store off bytes).Overlaps f) :
    ∃ left, r.2 = left ++ kept ∧
      ∀ m x, f.Covers x → execAll left m x = execAll rest.reverse m x := by
  induction rest generalizing later kept vals with
  | nil =>
      rw [foldWalk] at h
      split at h
      · cases h
      · obtain rfl := Option.some.inj h
        exact ⟨[], rfl, fun _ _ _ => rfl⟩
  | cons inst rest ih =>
      have hrest : inst.stops = false → ∀ after off bytes before,
          rest = after ++ .store off bytes :: before →
          (∀ inst ∈ after, inst.stops = false) → 0 < getFieldIdx signed t.fields off →
          ¬(CcInst.store off bytes).Overlaps f := by
        intro hstop after off bytes before heq hafter
        refine hother (inst :: after) off bytes before (by rw [heq]; rfl) ?_
        simpa [hstop] using hafter
      rw [List.reverse_cons]
      rcases foldWalk_cons h with ⟨-, rfl⟩ | ⟨hstop, -, h⟩ | ⟨off, bytes, j, rfl, hj, -, h⟩
      · exact ⟨rest.reverse ++ [inst], by simp, fun _ _ _ => rfl⟩
      · obtain ⟨left, heq, hexec⟩ := ih h (hrest hstop)
        refine ⟨left ++ [inst], by rw [heq]; simp, fun m x hx => ?_⟩
        rw [execAll_append, execAll_append]
        have hx' := hexec m x hx
        cases inst with
        | store off bytes =>
            show (execAll left m).write off bytes x = (execAll rest.reverse m).write off bytes x
            rw [StructMem.write, StructMem.write, hx']
        | load off size => exact absurd hstop (by simp [CcInst.stops])
        | escape effect => exact absurd hstop (by simp [CcInst.stops])
        | leak => exact hx'
        | other => exact hx'
      · obtain ⟨left, heq, hexec⟩ := ih h (hrest rfl)
        refine ⟨left, heq, fun m x hx => ?_⟩
        rw [execAll_append]
        have hno := hother [] off bytes rest rfl (by simp) (by omega)
        exact (hexec m x hx).trans (write_of_not_overlaps hno hx).symm

/-! ## Which stretches are folded correctly -/

theorem eq_append_cons_of_reverse {insts after before : List CcInst} {inst : CcInst}
    (h : insts.reverse = after ++ inst :: before) :
    insts = before.reverse ++ inst :: after.reverse := by
  have hrev := congrArg List.reverse h
  simpa [List.append_assoc] using hrev

/-- A store of the exact size to another field does not touch this one. -/
theorem not_overlaps_of_ne {t : FieldTable} {j : ℕ} {g : SptrField} (hf : t.fields[i]? = some f)
    (hg : t.fields[j]? = some g) (hne : j ≠ i) (hlen : bytes.length = g.size) :
    ¬(CcInst.store g.offset bytes).Overlaps f := by
  have hdisj := t.ne_of_covers hf hg (Ne.symm hne)
  rintro ⟨h₀, h₁, h₂⟩
  omega

section OneStretch

variable {signed : Bool} {t : FieldTable} {st : Stretch}
  {r : List (Option Folded) × List CcInst} (h : foldStores signed t.fields st = some r)

include h

theorem foldStores_folded (hf : t.fields[i]? = some f) (hi : r.1[i]? = some (some folded)) :
    ∃ before off, st.insts = before ++ .store off folded.bytes :: folded.later ∧
      (∀ inst ∈ folded.later, inst.stops = false) ∧ getFieldIdx signed t.fields off = i + 1 := by
  obtain ⟨hlt, -⟩ := List.getElem?_eq_some_iff.mp hf
  obtain ⟨after, off, before, heq, hafter, hlater, hidx⟩ := foldWalk_folded h hi
    (by rw [List.getElem?_replicate, if_pos hlt])
  rw [List.append_nil] at hlater
  refine ⟨before.reverse, off, ?_, ?_, hidx⟩
  · rw [hlater]
    exact eq_append_cons_of_reverse heq
  · rw [hlater]
    simpa using hafter

theorem cleanStores_of_foldsExact (hexact : FoldsExact t r) : CleanStores t st.insts := by
  intro before off bytes later heq hlater f hf hoff
  obtain ⟨i, hi⟩ := List.mem_iff_getElem?.mp hf
  have hidx := getFieldIdx_start t signed hi
  rw [hoff] at hidx
  have hrev : st.insts.reverse = later.reverse ++ .store off bytes :: before.reverse := by
    rw [heq]
    simp
  rw [foldStores, hrev] at h
  have hfolded := foldWalk_folds h (by simpa using hlater) hidx
  rw [List.reverse_reverse, List.append_nil] at hfolded
  exact hexact i f ⟨bytes, later⟩ hi hfolded

theorem foldsExact_of_cleanStores (hd : Distinguishes signed t)
    (hclean : CleanStores t st.insts) : FoldsExact t r := by
  intro i f folded hf hi
  obtain ⟨before, off, heq, hlater, hidx⟩ := foldStores_folded h hf hi
  obtain ⟨j, g, hg, hoff, hj⟩ := hd.start_of_pos (x := off) (by omega)
  obtain rfl : j = i := by omega
  obtain rfl : g = f := Option.some.inj (hg.symm.trans hf)
  exact hclean before off _ _ heq hlater g (List.mem_of_getElem? hf) hoff

theorem passedValue_folded (hd : Distinguishes signed t) (hclean : CleanStores t st.insts)
    (hf : t.fields[i]? = some f) (hi : r.1[i]? = some (some folded)) (m : StructMem) :
    (execAll st.insts m).field f = folded.bytes := by
  obtain ⟨before, off, heq, hlater, hidx⟩ := foldStores_folded h hf hi
  obtain ⟨hlen, hno⟩ := foldsExact_of_cleanStores h hd hclean i f folded hf hi
  obtain ⟨j, g, hg, rfl, hj⟩ := hd.start_of_pos (x := off) (by omega)
  obtain rfl : j = i := by omega
  obtain rfl : g = f := Option.some.inj (hg.symm.trans hf)
  have hescape : ∀ effect, CcInst.escape effect ∉ folded.later := fun effect hmem =>
    absurd (hlater _ hmem) (by simp [CcInst.stops])
  rw [heq, execAll_append]
  refine (field_congr fun x hx => ?_).trans (field_write (m := execAll before m) hlen)
  exact execAll_of_not_overlaps hno hescape _ hx

theorem passedValue_left (hd : Distinguishes signed t) (hclean : CleanStores t st.insts)
    (hf : t.fields[i]? = some f) (hi : ∀ folded, r.1[i]? ≠ some (some folded)) (m : StructMem) :
    (execAll r.2 m).field f = (execAll st.insts m).field f := by
  have hother : ∀ after off bytes before, st.insts.reverse = after ++ .store off bytes :: before →
      (∀ inst ∈ after, inst.stops = false) → 0 < getFieldIdx signed t.fields off →
      ¬(CcInst.store off bytes).Overlaps f := by
    intro after off bytes before hrev hafter hpos
    obtain ⟨j, g, hg, rfl, hj⟩ := hd.start_of_pos hpos
    have hinsts := eq_append_cons_of_reverse hrev
    have hlen := (hclean _ _ _ _ hinsts (by simpa using hafter) g (List.mem_of_getElem? hg) rfl).1
    refine not_overlaps_of_ne hf hg (fun hji => ?_) hlen
    subst hji
    rw [foldStores, hrev] at h
    exact hi _ (foldWalk_folds h hafter hj)
  obtain ⟨left, heq, hexec⟩ := foldWalk_exec h hother
  rw [heq, List.append_nil]
  refine field_congr fun x hx => ?_
  rw [hexec m x hx, List.reverse_reverse]

theorem passedValue_incoming (hd : Distinguishes signed t)
    (hescapes : ∀ inst ∈ st.insts, inst.escapes signed t.fields = false)
    (hleft : ∀ inst ∈ r.2, inst.tracked signed t.fields = false) (hf : t.fields[i]? = some f)
    (hi : ∀ folded, r.1[i]? ≠ some (some folded)) (m : StructMem) :
    m.field f = (execAll st.insts m).field f := by
  have hbound := t.bound f (List.mem_of_getElem? hf)
  have hescape : ∀ effect, CcInst.escape effect ∉ st.insts := fun effect hmem =>
    absurd (hescapes _ hmem) (by simp [CcInst.escapes])
  refine field_congr fun x hx => (execAll_of_not_overlaps (fun inst hinst => ?_) hescape m hx).symm
  cases inst with
  | load off size => exact id
  | escape effect => exact id
  | leak => exact id
  | other => exact id
  | store off bytes =>
      have hno := hescapes _ hinst
      rw [CcInst.escapes] at hno
      by_cases hoff : sptrMaxOff ≤ off
      · rintro ⟨h₀, h₁, h₂⟩
        omega
      rw [if_neg hoff] at hno
      by_cases hidx : getFieldIdx signed t.fields off ≤ 0
      · rw [if_pos hidx] at hno
        rintro ⟨h₀, h₁, h₂⟩
        have hcov : f.Covers (off + (f.offset - off)) := by
          unfold SptrField.Covers at hx ⊢
          omega
        have hne := getFieldIdx_ne_zero t signed (List.mem_of_getElem? hf) hcov
        rw [List.any_eq_false] at hno
        refine hno (f.offset - off) (List.mem_range.mpr ?_) (by simpa using hne)
        omega
      · rw [if_neg hidx] at hno
        obtain ⟨j, g, hg, rfl, hj⟩ := hd.start_of_pos (Int.not_le.mp hidx)
        have hsub : (getFieldIdx signed t.fields g.offset - 1).toNat = j := by omega
        rw [hsub, hg] at hno
        have hlen : bytes.length = g.size := by simpa using hno
        refine not_overlaps_of_ne hf hg (fun hji => ?_) hlen
        subst hji
        rcases foldWalk_left h (List.mem_reverse.mpr hinst) hj with hmem | ⟨folded, hfolded⟩
        · have htracked := hleft _ hmem
          simp only [CcInst.tracked, decide_eq_false_iff_not] at htracked
          omega
        · exact hi folded hfolded

end OneStretch

theorem passesMemory_of_cleanStores {signed : Bool} {t : FieldTable} {fn : List Stretch}
    {st : Stretch} {r : List (Option Folded) × List CcInst} (hst : st ∈ fn)
    (hcallret : st.callret = true) (h : foldStores signed t.fields st = some r)
    (hd : Distinguishes signed t) (hclean : CleanStores t st.insts) :
    PassesMemory (sptrEscapes signed t.fields fn) t st r := by
  intro m i f hf
  rw [passedValue]
  split
  · rename_i folded hi
    exact (passedValue_folded h hd hclean hf hi m).symm
  · rename_i hnone
    have hi : ∀ folded, r.1[i]? ≠ some (some folded) := fun folded hfolded =>
      hnone folded hfolded
    cases hescapes : sptrEscapes signed t.fields fn with
    | true => exact passedValue_left h hd hclean hf hi m
    | false =>
        rw [sptrEscapes, Bool.or_eq_false_iff, List.any_eq_false, List.any_eq_false] at hescapes
        have hinsts := hescapes.1 st hst
        have hleft := hescapes.2 st hst
        rw [Stretch.left, if_pos hcallret, h] at hleft
        refine passedValue_incoming h hd ?_ ?_ hf hi m
        · intro inst hinst
          simpa using List.any_eq_false.mp (Bool.eq_false_iff.mpr hinsts) inst hinst
        · intro inst hinst
          simpa using List.any_eq_false.mp (Bool.eq_false_iff.mpr hleft) inst hinst

/-- Partial accesses are handled correctly exactly if `char` is signed, or no field
is longer than a byte, and the stores that are folded are clean. -/
theorem partial_access_conservative_iff (signed : Bool) (t : FieldTable) (fn : List Stretch)
    (hreturns : ∀ st ∈ fn, st.callret = true → (foldStores signed t.fields st).isSome) :
    (PartialNegative signed t ∧ ∀ st ∈ fn, st.callret = true →
      ∀ r, foldStores signed t.fields st = some r →
        FoldsExact t r ∧ PassesMemory (sptrEscapes signed t.fields fn) t st r) ↔
    (Distinguishes signed t ∧ ∀ st ∈ fn, st.callret = true → CleanStores t st.insts) := by
  constructor
  · rintro ⟨hneg, hall⟩
    refine ⟨(partialNegative_iff t signed).mp hneg, fun st hst hcallret => ?_⟩
    obtain ⟨r, hr⟩ := Option.isSome_iff_exists.mp (hreturns st hst hcallret)
    exact cleanStores_of_foldsExact hr (hall st hst hcallret r hr).1
  · rintro ⟨hd, hall⟩
    refine ⟨(partialNegative_iff t signed).mpr hd, fun st hst hcallret r hr => ?_⟩
    have hclean := hall st hst hcallret
    exact ⟨foldsExact_of_cleanStores hr hd hclean,
      passesMemory_of_cleanStores hst hcallret hr hd hclean⟩

/-- The program counter and one register. -/
def twoFields : FieldTable where
  fields := [⟨0, 8⟩, ⟨8, 8⟩]
  count := by decide
  pos := by decide
  bound := by decide
  disjoint := by decide

/-- The register is written as a whole, and then one byte of it. -/
def byteStretch : Stretch where
  insts := [.store 8 (List.replicate 8 0), .store 9 [1]]
  afterCall := false
  callret := true

/-- The register is written as a whole. -/
def wordStretch : Stretch where
  insts := [.other, .store 8 (List.replicate 8 1)]
  afterCall := false
  callret := true

theorem partial_access_conservative_word :
    ∃ r, foldStores true twoFields.fields wordStretch = some r ∧ FoldsExact twoFields r ∧
      PassesMemory (sptrEscapes true twoFields.fields [wordStretch]) twoFields wordStretch r := by
  have hclean : ∀ st ∈ [wordStretch], st.callret = true → CleanStores twoFields st.insts := by
    intro st hst _ before off bytes later heq _ f hf hoff
    rw [List.mem_singleton.mp hst] at heq
    rcases before with _ | ⟨a, _ | ⟨b, before⟩⟩
    · exact absurd heq (by simp [wordStretch])
    · obtain ⟨-, hstore, rfl⟩ : _ ∧ CcInst.store 8 (List.replicate 8 1) = .store off bytes ∧
          [] = later := by simpa [wordStretch] using heq
      obtain ⟨rfl, rfl⟩ := CcInst.store.inj hstore
      rcases List.mem_cons.mp hf with rfl | hf
      · exact absurd hoff (by decide)
      · rw [List.mem_singleton.mp hf]
        exact ⟨by decide, by simp⟩
    · exact absurd heq (by simp [wordStretch])
  have h := (partial_access_conservative_iff true twoFields [wordStretch] (by decide)).mpr
    ⟨.inl rfl, hclean⟩
  obtain ⟨r, hr⟩ : ∃ r, foldStores true twoFields.fields wordStretch = some r := ⟨_, rfl⟩
  exact ⟨r, hr, h.2 wordStretch List.mem_cons_self rfl r hr⟩

/-- On a host where `char` is unsigned, a byte inside a field is taken for a field; and
a byte store to a register is lost. -/
theorem partial_access_not_conservative :
    getFieldIdx false twoFields.fields 9 = 255 ∧
    ∃ r, foldStores true twoFields.fields byteStretch = some r ∧
      sptrEscapes true twoFields.fields [byteStretch] = true ∧
      passedValue true r (fun _ => 0) 1 ⟨8, 8⟩ = List.replicate 8 0 ∧
      (execAll byteStretch.insts fun _ => 0).field ⟨8, 8⟩ = [0, 1, 0, 0, 0, 0, 0, 0] := by
  refine ⟨by decide, _, rfl, by decide, by decide, by decide⟩

end PollyInstrew.Server
