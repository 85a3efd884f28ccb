import Mathlib.Data.Fintype.Card
import PollyInstrew.Support.LinearProbe
import PollyInstrew.Client.Common

/-!
# The table of translated code

`rtld_set` and `rtld_resolve` keep the entries of all translated functions in
a hash table of `2 ^ 17` slots with linear probing.  The address `0` marks an
empty slot, entries are never removed and never changed.
-/

namespace PollyInstrew.Client

open PollyInstrew.LinearProbe

variable {obj : RtldObject} {entry : Word} {fuel : ℕ} {s : TableRun}

/-- One slot of the table, `struct RtldObject`. -/
structure RtldObject where
  addr : Word
  entry : Word
  base : Word
  size : Word
  deriving DecidableEq, Repr

/-- Number of slots, `1 << RTLD_HASH_BITS`. -/
def rtldSlots : ℕ := 2 ^ 17

/-- `RTLD_HASH_MASK`. -/
def rtldHashMask : Word := (1#64 <<< 17) - 1#64

/-- `RTLD_HASH(addr)`. -/
def rtldHash (addr : Word) : Word := (addr >>> 2) &&& rtldHashMask

/-- The array `Rtld.objects`. -/
abbrev RtldTable := Fin rtldSlots → RtldObject

/-- The zeroed memory that `rtld_init` allocates. -/
def rtldInitTable : RtldTable := fun _ => ⟨0#64, 0#64, 0#64, 0#64⟩

theorem and_rtldHashMask_toNat (w : Word) :
    (w &&& rtldHashMask).toNat = w.toNat % rtldSlots := by
  have hmask : rtldHashMask.toNat = 2 ^ 17 - 1 := by decide
  rw [BitVec.toNat_and, hmask, Nat.and_two_pow_sub_one_eq_mod]
  rfl

/-- The slot index `(hash + i) & RTLD_HASH_MASK`. -/
def rtldSlot (hash : Word) (i : ℕ) : Fin rtldSlots :=
  ⟨((hash + BitVec.ofNat 64 i) &&& rtldHashMask).toNat, by
    rw [and_rtldHashMask_toNat]
    exact Nat.mod_lt _ (by decide)⟩

/-- Home slot of an address. -/
def rtldHome (addr : Word) : Fin rtldSlots :=
  ⟨(rtldHash addr).toNat, by
    rw [rtldHash, and_rtldHashMask_toNat]
    exact Nat.mod_lt _ (by decide)⟩

theorem rtldSlot_eq_probePos (addr : Word) (i : ℕ) :
    rtldSlot (rtldHash addr) i = probePos (rtldHome addr) i := by
  apply Fin.ext
  simp only [rtldSlot, probePos, rtldHome, and_rtldHashMask_toNat,
    BitVec.toNat_add, BitVec.toNat_ofNat, rtldSlots]
  omega

/-- Body of the probing loop of `rtld_set`. -/
def rtldSetBody (r : RtldTable) (addr entry objBase objSize : Word) (i : ℕ) :
    Option (ℤ × RtldTable) :=
  let j := rtldSlot (rtldHash addr) i
  if (r j).addr = addr then
    some (-EEXIST, r)
  else if (r j).addr = 0#64 then
    some (0, Function.update r j ⟨addr, entry, objBase, objSize⟩)
  else
    none

/-- The probing loop of `rtld_set`; `none` would be a loop that has not ended
after `fuel` iterations. -/
def rtldSetLoop (r : RtldTable) (addr entry objBase objSize : Word) (fuel : ℕ) :
    Option (ℤ × RtldTable) :=
  probeLoop rtldSlots (rtldSetBody r addr entry objBase objSize)
    (-ENOSPC, r) fuel 0

/-- `rtld_set`: the return code and the table afterwards. -/
def rtldSet (r : RtldTable) (addr entry objBase objSize : Word) :
    ℤ × RtldTable :=
  if addr = 0#64 then
    (-EINVAL, r)
  else
    (rtldSetLoop r addr entry objBase objSize (rtldSlots + 1)).get
      (probeLoop_isSome _ _ _ _ _ (Nat.zero_le _) (by omega))

/-- Body of the probing loop of `rtld_resolve`. -/
def rtldResolveBody (r : RtldTable) (addr : Word) (i : ℕ) :
    Option (Except ℤ Word) :=
  let j := rtldSlot (rtldHash addr) i
  if (r j).addr = 0#64 then
    some (.error (-ENOENT))
  else if (r j).addr = addr then
    some (.ok (r j).entry)
  else
    none

/-- The probing loop of `rtld_resolve`. -/
def rtldResolveLoop (r : RtldTable) (addr : Word) (fuel : ℕ) :
    Option (Except ℤ Word) :=
  probeLoop rtldSlots (rtldResolveBody r addr) (.error (-ENOENT)) fuel 0

/-- `rtld_resolve`: the entry written to `*out_entry` when it returns `0`, the
negative return code otherwise. -/
def rtldResolve (r : RtldTable) (addr : Word) : Except ℤ Word :=
  if addr = 0#64 then
    .error (-ENOENT)
  else
    (rtldResolveLoop r addr (rtldSlots + 1)).get
      (probeLoop_isSome _ _ _ _ _ (Nat.zero_le _) (by omega))

/-! ## What the table stores -/

/-- Key of a slot: its address, unless it is empty. -/
def rtldTag (r : RtldTable) (j : Fin rtldSlots) : Option Word :=
  if (r j).addr = 0#64 then none else some (r j).addr

/-- No empty slot lies between an address's home slot and its slot. -/
def RtldTable.Probed (r : RtldTable) : Prop := WellProbed (rtldTag r) rtldHome

/-- The table maps `addr` to `entry`. -/
def RtldTable.Holds (r : RtldTable) (addr entry : Word) : Prop :=
  ∃ j, rtldTag r j = some addr ∧ (r j).entry = entry

/-- The slots in use. -/
def RtldTable.occupied (r : RtldTable) : Finset (Fin rtldSlots) :=
  Finset.univ.filter fun j => (r j).addr ≠ 0#64

theorem rtldTag_eq_some_iff {r : RtldTable} {j : Fin rtldSlots} {addr : Word} :
    rtldTag r j = some addr ↔ addr ≠ 0#64 ∧ (r j).addr = addr := by
  unfold rtldTag
  split
  · next hzero =>
    simp only [reduceCtorEq, false_iff, not_and]
    intro hne haddr
    exact hne (haddr ▸ hzero)
  · next hne =>
    simp only [Option.some.injEq]
    constructor
    · intro h
      exact ⟨h ▸ hne, h⟩
    · intro h
      exact h.2

theorem rtldTag_eq_none_iff {r : RtldTable} {j : Fin rtldSlots} :
    rtldTag r j = none ↔ (r j).addr = 0#64 := by
  simp [rtldTag]

theorem rtldTag_update (r : RtldTable) (j : Fin rtldSlots) (hobj : obj.addr ≠ 0#64) :
    rtldTag (Function.update r j obj) =
      Function.update (rtldTag r) j (some obj.addr) := by
  funext j'
  by_cases hj : j' = j
  · subst hj
    simpa [rtldTag] using hobj
  · simp [rtldTag, hj]

theorem RtldTable.Holds.addr_ne_zero {r : RtldTable} {addr : Word} (h : r.Holds addr entry) :
    addr ≠ 0#64 := by
  obtain ⟨j, htag, -⟩ := h
  exact (rtldTag_eq_some_iff.mp htag).1

/-- A well-probed table is a partial function. -/
theorem RtldTable.Probed.holds_unique
    {r : RtldTable} (hr : r.Probed) {addr e e' : Word}
    (h : r.Holds addr e) (h' : r.Holds addr e') : e = e' := by
  obtain ⟨j, htag, he⟩ := h
  obtain ⟨j', htag', he'⟩ := h'
  have hj : j = j' := WellProbed.slot_unique hr htag htag'
  rw [← he, ← he', hj]

/-- Storing an address in the empty slot that ended its search adds exactly
that binding. -/
theorem holds_update_iff {r : RtldTable} {j : Fin rtldSlots} (hempty : rtldTag r j = none)
    (hobj : obj.addr ≠ 0#64) (addr entry : Word) :
    RtldTable.Holds (Function.update r j obj) addr entry ↔
      r.Holds addr entry ∨ (addr = obj.addr ∧ entry = obj.entry) := by
  constructor
  · rintro ⟨j', htag, hentry⟩
    rw [rtldTag_update r j hobj] at htag
    by_cases hj : j' = j
    · subst hj
      simp only [Function.update_self, Option.some.injEq] at htag hentry
      exact Or.inr ⟨htag.symm, hentry.symm⟩
    · rw [Function.update_of_ne hj] at htag hentry
      exact Or.inl ⟨j', htag, hentry⟩
  · rintro (⟨j', htag, hentry⟩ | ⟨rfl, rfl⟩)
    · have hj : j' ≠ j := by
        intro heq
        rw [heq, hempty] at htag
        simp at htag
      refine ⟨j', ?_, ?_⟩
      · rw [rtldTag_update r j hobj, Function.update_of_ne hj, htag]
      · rw [Function.update_of_ne hj, hentry]
    · refine ⟨j, ?_, ?_⟩
      · rw [rtldTag_update r j hobj, Function.update_self]
      · rw [Function.update_self]

theorem occupied_update {r : RtldTable} {j : Fin rtldSlots} (hobj : obj.addr ≠ 0#64) :
    RtldTable.occupied (Function.update r j obj) = insert j r.occupied := by
  ext j'
  by_cases hj : j' = j
  · subst hj
    simpa [RtldTable.occupied] using hobj
  · simp [RtldTable.occupied, hj]

/-! ## The two probing loops -/

/-- Any number of passed slots leaves both loops running. -/
theorem rtldSetBody_eq_none_of_passes {r : RtldTable} {addr objBase objSize : Word} {i m : ℕ}
    (hpass : Passes (rtldTag r) rtldHome addr m) (hi : i < m) :
    rtldSetBody r addr entry objBase objSize i = none := by
  obtain ⟨k, hne, htag⟩ := hpass i hi
  obtain ⟨hk, haddr⟩ := rtldTag_eq_some_iff.mp htag
  simp only [rtldSetBody, rtldSlot_eq_probePos, haddr, if_neg hne, if_neg hk]

theorem rtldResolveBody_eq_none_of_passes
    {r : RtldTable} {addr : Word} {i m : ℕ}
    (hpass : Passes (rtldTag r) rtldHome addr m) (hi : i < m) :
    rtldResolveBody r addr i = none := by
  obtain ⟨k, hne, htag⟩ := hpass i hi
  obtain ⟨hk, haddr⟩ := rtldTag_eq_some_iff.mp htag
  simp only [rtldResolveBody, rtldSlot_eq_probePos, haddr, if_neg hne, if_neg hk]

section Loops

variable {r : RtldTable} {addr : Word} (hne : addr ≠ 0#64) {i : ℕ} (hi : i < rtldSlots)
  (hpass : Passes (rtldTag r) rtldHome addr i)

section Found

variable (htag : rtldTag r (probePos (rtldHome addr) i) = some addr)
include hi hpass htag

theorem rtldSetLoop_of_found (entry objBase objSize : Word) (hfuel : rtldSlots < fuel) :
    rtldSetLoop r addr entry objBase objSize fuel = some (-EEXIST, r) := by
  have haddr := (rtldTag_eq_some_iff.mp htag).2
  apply probeLoop_eq_of_hit hi _ _ _ (Nat.zero_le _) (by omega)
    fun k _ hk => rtldSetBody_eq_none_of_passes hpass hk
  simp only [rtldSetBody, rtldSlot_eq_probePos, haddr, if_true]

theorem rtldResolveLoop_of_found (hfuel : rtldSlots < fuel) :
    rtldResolveLoop r addr fuel = some (.ok (r (probePos (rtldHome addr) i)).entry) := by
  obtain ⟨hne, haddr⟩ := rtldTag_eq_some_iff.mp htag
  apply probeLoop_eq_of_hit hi _ _ _ (Nat.zero_le _) (by omega)
    fun k _ hk => rtldResolveBody_eq_none_of_passes hpass hk
  simp only [rtldResolveBody, rtldSlot_eq_probePos, haddr, if_neg hne, if_true]

end Found

section Gap

variable (htag : rtldTag r (probePos (rtldHome addr) i) = none)
include hi hpass htag

include hne in
theorem rtldSetLoop_of_gap (entry objBase objSize : Word) (hfuel : rtldSlots < fuel) :
    rtldSetLoop r addr entry objBase objSize fuel =
      some (0, Function.update r (probePos (rtldHome addr) i)
        ⟨addr, entry, objBase, objSize⟩) := by
  have haddr := rtldTag_eq_none_iff.mp htag
  apply probeLoop_eq_of_hit hi _ _ _ (Nat.zero_le _) (by omega)
    fun k _ hk => rtldSetBody_eq_none_of_passes hpass hk
  simp only [rtldSetBody, rtldSlot_eq_probePos, haddr, if_neg hne.symm, if_true]

theorem rtldResolveLoop_of_gap (hfuel : rtldSlots < fuel) :
    rtldResolveLoop r addr fuel = some (.error (-ENOENT)) := by
  have haddr := rtldTag_eq_none_iff.mp htag
  apply probeLoop_eq_of_hit hi _ _ _ (Nat.zero_le _) (by omega)
    fun k _ hk => rtldResolveBody_eq_none_of_passes hpass hk
  simp only [rtldResolveBody, rtldSlot_eq_probePos, haddr, if_true]

end Gap

section Full

variable (hfull : Passes (rtldTag r) rtldHome addr rtldSlots)
include hfull

theorem rtldSetLoop_of_full (entry objBase objSize : Word) (hfuel : rtldSlots < fuel) :
    rtldSetLoop r addr entry objBase objSize fuel = some (-ENOSPC, r) :=
  probeLoop_eq_fallback _ _ (Nat.zero_le _) (by omega)
    fun k _ hk => rtldSetBody_eq_none_of_passes hfull hk

theorem rtldResolveLoop_of_full (hfuel : rtldSlots < fuel) :
    rtldResolveLoop r addr fuel = some (.error (-ENOENT)) :=
  probeLoop_eq_fallback _ _ (Nat.zero_le _) (by omega)
    fun k _ hk => rtldResolveBody_eq_none_of_passes hfull hk

end Full

end Loops

/-- Everything `rtld_set` can do with a non-zero address; its loop ends after
at most `2 ^ 17` probes. -/
theorem rtldSet_cases
    {r : RtldTable} (hr : r.Probed) {addr : Word} (hne : addr ≠ 0#64)
    (entry objBase objSize : Word) :
    ∃ res : ℤ × RtldTable,
      (∀ fuel, rtldSlots < fuel →
        rtldSetLoop r addr entry objBase objSize fuel = some res) ∧
      (((∃ e, r.Holds addr e) ∧ res = (-EEXIST, r)) ∨
        (∃ j, rtldTag r j = none ∧ (∀ e, ¬r.Holds addr e) ∧
          RtldTable.Probed
            (Function.update r j ⟨addr, entry, objBase, objSize⟩) ∧
          res = (0, Function.update r j ⟨addr, entry, objBase, objSize⟩)) ∨
        ((∀ e, ¬r.Holds addr e) ∧ (∀ j, rtldTag r j ≠ none) ∧
          res = (-ENOSPC, r))) := by
  rcases search_cases (rtldTag r) rtldHome addr with
    ⟨i, hi, hpass, htag⟩ | ⟨i, hi, hpass, htag⟩ | hpass
  · exact ⟨(-EEXIST, r), fun _ => rtldSetLoop_of_found hi hpass htag _ _ _,
      Or.inl ⟨⟨_, _, htag, rfl⟩, rfl⟩⟩
  · refine ⟨_, fun _ => rtldSetLoop_of_gap hne hi hpass htag _ _ _,
      Or.inr (Or.inl ⟨probePos (rtldHome addr) i, htag, ?_, ?_, rfl⟩)⟩
    · rintro e ⟨j, hj, -⟩
      exact WellProbed.absent_of_gap hr hpass htag j hj
    · rw [RtldTable.Probed, rtldTag_update r _ hne]
      exact WellProbed.insert hr hi hpass htag
  · refine ⟨(-ENOSPC, r), fun _ => rtldSetLoop_of_full hpass _ _ _,
      Or.inr (Or.inr ⟨?_, ?_, rfl⟩)⟩
    · rintro e ⟨j, hj, -⟩
      obtain ⟨k, hk, htag⟩ := hpass.full j
      rw [hj] at htag
      exact hk (Option.some.inj htag).symm
    · intro j hj
      obtain ⟨k, -, htag⟩ := hpass.full j
      rw [hj] at htag
      simp at htag

theorem rtldSet_eq_of_loop {r : RtldTable} {addr objBase objSize : Word} (hne : addr ≠ 0#64)
    {res : ℤ × RtldTable}
    (hloop : ∀ fuel, rtldSlots < fuel → rtldSetLoop r addr entry objBase objSize fuel = some res) :
    rtldSet r addr entry objBase objSize = res := by
  rw [rtldSet, if_neg hne]
  exact Option.get_of_eq_some _ (hloop _ (Nat.lt_succ_self _))

/-- `rtld_resolve` returns exactly the stored binding; its loop ends after at
most `2 ^ 17` probes. -/
theorem rtldResolveLoop_cases
    {r : RtldTable} (hr : r.Probed) (addr : Word) :
    ∃ res : Except ℤ Word,
      (∀ fuel, rtldSlots < fuel → rtldResolveLoop r addr fuel = some res) ∧
      ((∃ e, r.Holds addr e ∧ res = .ok e) ∨
        ((∀ e, ¬r.Holds addr e) ∧ res = .error (-ENOENT))) := by
  rcases search_cases (rtldTag r) rtldHome addr with
    ⟨i, hi, hpass, htag⟩ | ⟨i, hi, hpass, htag⟩ | hpass
  · exact ⟨_, fun _ => rtldResolveLoop_of_found hi hpass htag, Or.inl ⟨_, ⟨_, htag, rfl⟩, rfl⟩⟩
  · refine ⟨_, fun _ => rtldResolveLoop_of_gap hi hpass htag, Or.inr ⟨?_, rfl⟩⟩
    rintro e ⟨j, hj, -⟩
    exact WellProbed.absent_of_gap hr hpass htag j hj
  · refine ⟨_, fun _ => rtldResolveLoop_of_full hpass, Or.inr ⟨?_, rfl⟩⟩
    rintro e ⟨j, hj, -⟩
    obtain ⟨k, hk, htag⟩ := hpass.full j
    rw [hj] at htag
    exact hk (Option.some.inj htag).symm

theorem rtldResolve_eq_of_loop
    {r : RtldTable} {addr : Word} (hne : addr ≠ 0#64) {res : Except ℤ Word}
    (hloop : ∀ fuel, rtldSlots < fuel →
      rtldResolveLoop r addr fuel = some res) :
    rtldResolve r addr = res := by
  rw [rtldResolve, if_neg hne]
  exact Option.get_of_eq_some _ (hloop _ (Nat.lt_succ_self _))

theorem rtldResolve_cases
    {r : RtldTable} (hr : r.Probed) (addr : Word) :
    (∃ e, r.Holds addr e ∧ rtldResolve r addr = .ok e) ∨
      ((∀ e, ¬r.Holds addr e) ∧ rtldResolve r addr = .error (-ENOENT)) := by
  by_cases hzero : addr = 0#64
  · right
    refine ⟨?_, by rw [rtldResolve, if_pos hzero]⟩
    intro e he
    exact he.addr_ne_zero hzero
  · obtain ⟨res, hloop, hres⟩ := rtldResolveLoop_cases hr addr
    rw [rtldResolve_eq_of_loop hzero hloop]
    exact hres

/-- A successful `rtld_resolve` is a binding of the table. -/
theorem rtldResolve_eq_ok_iff
    {r : RtldTable} (hr : r.Probed) (addr entry : Word) :
    rtldResolve r addr = .ok entry ↔ r.Holds addr entry := by
  rcases rtldResolve_cases hr addr with ⟨e, he, heq⟩ | ⟨hno, heq⟩
  · rw [heq]
    constructor
    · intro h
      injection h with h
      exact h ▸ he
    · intro h
      rw [hr.holds_unique he h]
  · rw [heq]
    simpa using hno entry

theorem rtldInitTable_probed : rtldInitTable.Probed := by
  have htag : rtldTag rtldInitTable = fun _ => none := by
    funext j
    rw [rtldTag_eq_none_iff, rtldInitTable]
  rw [RtldTable.Probed, htag]
  exact wellProbed_empty

theorem rtldInitTable_not_holds (addr entry : Word) :
    ¬rtldInitTable.Holds addr entry := by
  rintro ⟨j, htag, -⟩
  simp [rtldTag, rtldInitTable] at htag

/-! ## Any table -/

/-- A binding that `rtld_resolve` finds stays when an empty slot is filled. -/
theorem rtldResolve_update {r : RtldTable} {j : Fin rtldSlots} (hempty : (r j).addr = 0#64)
    (hobj : obj.addr ≠ 0#64) {addr : Word} (h : rtldResolve r addr = .ok entry) :
    rtldResolve (Function.update r j obj) addr = .ok entry := by
  have hne : addr ≠ 0#64 := by
    rintro rfl
    cases h
  have hslot : ∀ {j' k}, rtldTag r j' = some k →
      rtldTag (Function.update r j obj) j' = some k ∧ Function.update r j obj j' = r j' := by
    intro j' k htag
    have hj : j' ≠ j := by
      rintro rfl
      rw [rtldTag_eq_none_iff.mpr hempty] at htag
      cases htag
    refine ⟨?_, Function.update_of_ne hj _ _⟩
    rw [rtldTag_update r j hobj, Function.update_of_ne hj]
    exact htag
  have hpasses : ∀ {i}, Passes (rtldTag r) rtldHome addr i →
      Passes (rtldTag (Function.update r j obj)) rtldHome addr i := by
    intro i hpass i' hi'
    obtain ⟨k, hk, htag⟩ := hpass i' hi'
    exact ⟨k, hk, (hslot htag).1⟩
  rcases search_cases (rtldTag r) rtldHome addr with
    ⟨i, hi, hpass, htag⟩ | ⟨i, hi, hpass, htag⟩ | hpass
  · rw [rtldResolve_eq_of_loop hne fun _ => rtldResolveLoop_of_found hi hpass htag] at h
    rw [rtldResolve_eq_of_loop hne fun _ =>
      rtldResolveLoop_of_found hi (hpasses hpass) (hslot htag).1, (hslot htag).2]
    exact h
  · rw [rtldResolve_eq_of_loop hne fun _ => rtldResolveLoop_of_gap hi hpass htag] at h
    cases h
  · rw [rtldResolve_eq_of_loop hne fun _ => rtldResolveLoop_of_full hpass] at h
    cases h

/-- What `rtld_set` does to any table: on failure nothing; on success it fills an
empty slot, and `rtld_resolve` finds an address it did not find before. -/
theorem rtldSet_outcome (r : RtldTable) (addr entry objBase objSize : Word) :
    ((rtldSet r addr entry objBase objSize).1 < 0 ∧
        (rtldSet r addr entry objBase objSize).2 = r) ∨
      (¬(rtldSet r addr entry objBase objSize).1 < 0 ∧
        (∃ e, rtldResolve r addr = .error e) ∧
        rtldResolve (rtldSet r addr entry objBase objSize).2 addr = .ok entry ∧
        ∀ a e, rtldResolve r a = .ok e →
          rtldResolve (rtldSet r addr entry objBase objSize).2 a = .ok e) := by
  by_cases hne : addr = 0#64
  · rw [rtldSet, if_pos hne]
    exact Or.inl ⟨by change (-EINVAL : ℤ) < 0; decide, rfl⟩
  rcases search_cases (rtldTag r) rtldHome addr with
    ⟨i, hi, hpass, htag⟩ | ⟨i, hi, hpass, htag⟩ | hpass
  · rw [rtldSet_eq_of_loop hne fun _ => rtldSetLoop_of_found hi hpass htag _ _ _]
    exact Or.inl ⟨by change (-EEXIST : ℤ) < 0; decide, rfl⟩
  · rw [rtldSet_eq_of_loop hne fun _ => rtldSetLoop_of_gap hne hi hpass htag _ _ _]
    have hpass' : Passes (rtldTag (Function.update r (probePos (rtldHome addr) i)
        ⟨addr, entry, objBase, objSize⟩)) rtldHome addr i := by
      intro i' hi'
      obtain ⟨k, hk, htag'⟩ := hpass i' hi'
      refine ⟨k, hk, ?_⟩
      rw [rtldTag_update r _ hne, Function.update_of_ne]
      · exact htag'
      · intro heq
        rw [heq, htag] at htag'
        exact absurd htag' nofun
    have htag' : rtldTag (Function.update r (probePos (rtldHome addr) i)
        ⟨addr, entry, objBase, objSize⟩) (probePos (rtldHome addr) i) = some addr := by
      rw [rtldTag_update r _ hne, Function.update_self]
    refine Or.inr ⟨by change ¬(0 : ℤ) < 0; decide, ⟨_, rtldResolve_eq_of_loop hne fun _ =>
      rtldResolveLoop_of_gap hi hpass htag⟩, ?_, ?_⟩
    · rw [rtldResolve_eq_of_loop hne fun _ => rtldResolveLoop_of_found hi hpass' htag',
        Function.update_self]
    · intro a e
      exact rtldResolve_update (rtldTag_eq_none_iff.mp htag) hne
  · rw [rtldSet_eq_of_loop hne fun _ => rtldSetLoop_of_full hpass _ _ _]
    exact Or.inl ⟨by change (-ENOSPC : ℤ) < 0; decide, rfl⟩

/-! ## Runs of the table -/

/-- A call of one of the two table operations. -/
inductive TableOp where
  | set (addr entry objBase objSize : Word)
  | resolve (addr : Word)
  deriving DecidableEq, Repr

/-- The table together with the record of the calls of `rtld_set` that
returned `0`: their addresses and entries. -/
structure TableRun where
  table : RtldTable
  stored : List (Word × Word)

/-- One call. -/
def TableRun.step (s : TableRun) : TableOp → TableRun
  | .set addr entry objBase objSize =>
      let res := rtldSet s.table addr entry objBase objSize
      { table := res.2
        stored := if res.1 = 0 then (addr, entry) :: s.stored else s.stored }
  | .resolve _ => s

/-- A sequence of calls on the table of `rtld_init`. -/
def runTable (ops : List TableOp) : TableRun :=
  ops.foldl TableRun.step { table := rtldInitTable, stored := [] }

/-- The table represents the record of successful calls. -/
structure TableRun.Faithful (s : TableRun) : Prop where
  probed : s.table.Probed
  holds_iff : ∀ addr entry, s.table.Holds addr entry ↔ (addr, entry) ∈ s.stored
  nodup : (s.stored.map Prod.fst).Nodup
  card : s.stored.length = s.table.occupied.card

theorem TableRun.Faithful.init :
    TableRun.Faithful { table := rtldInitTable, stored := [] } where
  probed := rtldInitTable_probed
  holds_iff := by
    intro addr entry
    simpa using rtldInitTable_not_holds addr entry
  nodup := List.nodup_nil
  card := by
    simp [RtldTable.occupied, rtldInitTable]

theorem TableRun.Faithful.exists_holds_iff (hs : s.Faithful) (addr : Word) :
    (∃ e, s.table.Holds addr e) ↔ addr ∈ s.stored.map Prod.fst := by
  simp only [hs.holds_iff, List.mem_map, Prod.exists, exists_and_right,
    exists_eq_right]

/-- A free slot exists exactly when fewer than `2 ^ 17` addresses are
stored. -/
theorem TableRun.Faithful.length_lt_iff (hs : s.Faithful) :
    s.stored.length < rtldSlots ↔ ∃ j, rtldTag s.table j = none := by
  have huniv : (Finset.univ : Finset (Fin rtldSlots)).card = rtldSlots := by
    simp
  rw [hs.card]
  constructor
  · intro hlt
    by_contra hno
    have hall : s.table.occupied = Finset.univ := by
      ext j
      have hj : (s.table j).addr ≠ 0#64 := fun h =>
        hno ⟨j, rtldTag_eq_none_iff.mpr h⟩
      simpa [RtldTable.occupied] using hj
    rw [hall, huniv] at hlt
    exact Nat.lt_irrefl _ hlt
  · rintro ⟨j, hj⟩
    have hmem : j ∉ s.table.occupied := by
      simpa [RtldTable.occupied] using rtldTag_eq_none_iff.mp hj
    exact (Finset.card_lt_univ_of_notMem hmem).trans_eq huniv

/-- What `rtld_set` returns, in terms of the calls that succeeded before. -/
theorem TableRun.Faithful.rtldSet_returns (hs : s.Faithful) (addr entry objBase objSize : Word)
    {ret : ℤ} {table' : RtldTable}
    (hset : rtldSet s.table addr entry objBase objSize = (ret, table')) :
    (ret = 0 ↔ addr ≠ 0#64 ∧ addr ∉ s.stored.map Prod.fst ∧
        s.stored.length < rtldSlots) ∧
      (ret = -EEXIST ↔ addr ∈ s.stored.map Prod.fst) ∧
      (ret = -EINVAL ↔ addr = 0#64) ∧
      (ret = -ENOSPC ↔ addr ≠ 0#64 ∧ addr ∉ s.stored.map Prod.fst ∧
        s.stored.length = rtldSlots) ∧
      (ret ≠ 0 → table' = s.table) := by
  have hstored : addr ∈ s.stored.map Prod.fst → addr ≠ 0#64 := by
    intro hmem
    obtain ⟨e, he⟩ := (hs.exists_holds_iff addr).mpr hmem
    exact he.addr_ne_zero
  have hbound : s.stored.length ≤ rtldSlots := by
    rw [hs.card]
    exact (Finset.card_le_univ _).trans (by simp)
  by_cases hzero : addr = 0#64
  · have hnot : addr ∉ s.stored.map Prod.fst := fun h => hstored h hzero
    rw [rtldSet, if_pos hzero] at hset
    obtain ⟨rfl, rfl⟩ := Prod.mk.inj hset
    rw [hzero] at hnot
    simp [EINVAL, EEXIST, ENOSPC, hzero]
    simpa using hnot
  · obtain ⟨res, hloop, hres⟩ := rtldSet_cases hs.probed hzero entry objBase objSize
    rw [rtldSet_eq_of_loop hzero hloop] at hset
    subst hset
    rcases hres with ⟨hex, heq⟩ | ⟨j, hj, hno, -, heq⟩ | ⟨hno, hfull, heq⟩
    · have hmem := (hs.exists_holds_iff addr).mp hex
      obtain ⟨rfl, rfl⟩ := Prod.mk.inj heq
      exact ⟨by simp [EEXIST, hmem], by simp [hmem],
        by simp [EEXIST, EINVAL, hzero], by simp [EEXIST, ENOSPC, hmem], by simp⟩
    · have hnot : addr ∉ s.stored.map Prod.fst := by
        rw [← hs.exists_holds_iff]
        simpa using hno
      have hlt : s.stored.length < rtldSlots := hs.length_lt_iff.mpr ⟨j, hj⟩
      obtain ⟨rfl, rfl⟩ := Prod.mk.inj heq
      exact ⟨by simp [hzero, hlt, hnot], by simp [EEXIST, hnot],
        by simp [EINVAL, hzero], by simp [ENOSPC, Nat.ne_of_lt hlt], by simp⟩
    · have hnot : addr ∉ s.stored.map Prod.fst := by
        rw [← hs.exists_holds_iff]
        simpa using hno
      have hge : ¬s.stored.length < rtldSlots := by
        rw [hs.length_lt_iff]
        simpa using hfull
      have hlen : s.stored.length = rtldSlots := by omega
      obtain ⟨rfl, rfl⟩ := Prod.mk.inj heq
      exact ⟨by simp [ENOSPC, hge], by simp [ENOSPC, EEXIST, hnot],
        by simp [ENOSPC, EINVAL, hzero], by simp [hzero, hlen, hnot], by simp⟩

/-- What `rtld_resolve` returns, in terms of the calls that succeeded
before. -/
theorem TableRun.Faithful.rtldResolve_returns (hs : s.Faithful) (addr : Word) :
    (∀ entry, rtldResolve s.table addr = .ok entry ↔ (addr, entry) ∈ s.stored) ∧
      (rtldResolve s.table addr = .error (-ENOENT) ↔
        addr ∉ s.stored.map Prod.fst) := by
  constructor
  · intro entry
    rw [rtldResolve_eq_ok_iff hs.probed, hs.holds_iff]
  · rw [← hs.exists_holds_iff]
    rcases rtldResolve_cases hs.probed addr with ⟨e, he, heq⟩ | ⟨hno, heq⟩
    · rw [heq]
      simpa using ⟨e, he⟩
    · rw [heq]
      simpa using hno

/-- One call keeps the table faithful to the record. -/
theorem TableRun.Faithful.step (hs : s.Faithful) (op : TableOp) : (s.step op).Faithful := by
  cases op with
  | resolve addr => exact hs
  | set addr entry objBase objSize =>
      by_cases hzero : addr = 0#64
      · simpa [TableRun.step, rtldSet, hzero, EINVAL] using hs
      · obtain ⟨res, hloop, hres⟩ :=
          rtldSet_cases hs.probed hzero entry objBase objSize
        rw [TableRun.step, rtldSet_eq_of_loop hzero hloop]
        rcases hres with ⟨-, rfl⟩ | ⟨j, hj, hno, hprobed, rfl⟩ | ⟨-, -, rfl⟩
        · simpa [EEXIST] using hs
        · have hnot : addr ∉ s.stored.map Prod.fst := by
            rw [← hs.exists_holds_iff]
            simpa using hno
          refine ⟨hprobed, ?_, ?_, ?_⟩
          · intro a e
            rw [holds_update_iff hj hzero, hs.holds_iff, if_pos rfl, List.mem_cons,
              Prod.mk.injEq, or_comm]
          · rw [if_pos rfl, List.map_cons, List.nodup_cons]
            exact ⟨hnot, hs.nodup⟩
          · have hmem : j ∉ s.table.occupied := by
              simpa [RtldTable.occupied] using rtldTag_eq_none_iff.mp hj
            rw [occupied_update hzero, Finset.card_insert_of_notMem hmem,
              if_pos rfl, List.length_cons, hs.card]
        · simpa [ENOSPC] using hs

theorem TableRun.Faithful.foldl
    (ops : List TableOp) : ∀ {s : TableRun}, s.Faithful →
      (ops.foldl TableRun.step s).Faithful := by
  induction ops with
  | nil =>
      intro s hs
      exact hs
  | cons op ops ih =>
      intro s hs
      exact ih (hs.step op)

/-- The table is a write-once finite map: after any sequence of calls the
outcome of a further call is decided by the addresses that were stored before,
and its probing loop ends. -/
theorem runTable_writeOnce (ops : List TableOp) :
    ((runTable ops).stored.map Prod.fst).Nodup ∧
      (∀ addr entry objBase objSize ret table',
        rtldSet (runTable ops).table addr entry objBase objSize = (ret, table') →
        (ret = 0 ↔ addr ≠ 0#64 ∧ addr ∉ (runTable ops).stored.map Prod.fst ∧
          (runTable ops).stored.length < 2 ^ 17) ∧
        (ret = -EEXIST ↔ addr ∈ (runTable ops).stored.map Prod.fst) ∧
        (ret = -EINVAL ↔ addr = 0#64) ∧
        (ret = -ENOSPC ↔ addr ≠ 0#64 ∧
          addr ∉ (runTable ops).stored.map Prod.fst ∧
          (runTable ops).stored.length = 2 ^ 17) ∧
        (ret ≠ 0 → table' = (runTable ops).table)) ∧
      (∀ addr,
        (∀ entry, rtldResolve (runTable ops).table addr = .ok entry ↔
          (addr, entry) ∈ (runTable ops).stored) ∧
        (rtldResolve (runTable ops).table addr = .error (-ENOENT) ↔
          addr ∉ (runTable ops).stored.map Prod.fst)) ∧
      (∀ addr, addr ≠ 0#64 → ∀ fuel, 2 ^ 17 < fuel →
        (∀ entry objBase objSize,
          rtldSetLoop (runTable ops).table addr entry objBase objSize fuel =
            some (rtldSet (runTable ops).table addr entry objBase objSize)) ∧
        rtldResolveLoop (runTable ops).table addr fuel =
          some (rtldResolve (runTable ops).table addr)) := by
  have hs : (runTable ops).Faithful := TableRun.Faithful.init.foldl ops
  refine ⟨hs.nodup, fun _ _ _ _ _ _ => hs.rtldSet_returns _ _ _ _,
    hs.rtldResolve_returns, ?_⟩
  intro addr hne fuel hfuel
  constructor
  · intro entry objBase objSize
    obtain ⟨res, hloop, -⟩ := rtldSet_cases hs.probed hne entry objBase objSize
    rw [rtldSet_eq_of_loop hne hloop]
    exact hloop fuel hfuel
  · obtain ⟨res, hloop, -⟩ := rtldResolveLoop_cases hs.probed addr
    rw [rtldResolve_eq_of_loop hne hloop]
    exact hloop fuel hfuel

end PollyInstrew.Client
