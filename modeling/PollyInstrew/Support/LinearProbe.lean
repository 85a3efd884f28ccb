import Mathlib.Data.Nat.Find
import Mathlib.Tactic.Common

/-!
# Open addressing with linear probing

A table of `n` slots is seen through its tags: `tag j` is the key stored in
slot `j`, if there is one.  A key is searched from its home slot onwards,
wrapping at the end of the table, until it is found or an empty slot is met.

The invariant is `WellProbed`: no empty slot lies between the home slot of a
stored key and the slot that holds it.  Inserting a key at the first empty
slot of its probe sequence keeps the invariant, and under it an empty slot met
by a search proves that the key is absent.
-/

namespace PollyInstrew.LinearProbe

variable {n : ℕ} {K β : Type*}

/-- Slot visited by probe number `i` of a search that starts at slot `h`. -/
def probePos (h : Fin n) (i : ℕ) : Fin n :=
  ⟨(h.val + i) % n, Nat.mod_lt _ h.pos⟩

/-- Every slot is visited by one of the first `n` probes. -/
theorem exists_probePos_eq (h j : Fin n) :
    ∃ i < n, probePos h i = j := by
  have hh := h.isLt
  have hj := j.isLt
  rcases Nat.lt_or_ge j.val h.val with hlt | hge
  · refine ⟨j.val + n - h.val, by omega, Fin.ext ?_⟩
    have hsum : h.val + (j.val + n - h.val) = j.val + n := by omega
    simp only [probePos, hsum, Nat.add_mod_right]
    exact Nat.mod_eq_of_lt hj
  · refine ⟨j.val - h.val, by omega, Fin.ext ?_⟩
    have hsum : h.val + (j.val - h.val) = j.val := by omega
    simp only [probePos, hsum]
    exact Nat.mod_eq_of_lt hj

/-! ## The probing loop -/

/-- The loop `for (i = start; i < bound; i++)` over the probes of a search: it
returns from the first probe whose body yields a result and falls through to
`fallback` when the counter reaches `bound`.  The value `none` stands for a
loop that has not ended within the given number of iterations. -/
def probeLoop (bound : ℕ) (body : ℕ → Option β) (fallback : β) :
    ℕ → ℕ → Option β
  | 0, _ => none
  | fuel + 1, i =>
      if i < bound then
        match body i with
        | some b => some b
        | none => probeLoop bound body fallback fuel (i + 1)
      else
        some fallback

theorem probeLoop_eq_of_hit
    {bound : ℕ} {body : ℕ → Option β} {fallback b : β} {i : ℕ}
    (hi : i < bound) (hbody : body i = some b) :
    ∀ (fuel start : ℕ), start ≤ i → i < start + fuel →
      (∀ k, start ≤ k → k < i → body k = none) →
      probeLoop bound body fallback fuel start = some b := by
  intro fuel
  induction fuel with
  | zero =>
      intro start hle hlt _
      omega
  | succ fuel ih =>
      intro start hle hlt hmiss
      rw [probeLoop, if_pos (by omega)]
      rcases Nat.eq_or_lt_of_le hle with heq | hlt'
      · subst heq
        rw [hbody]
      · rw [hmiss start (Nat.le_refl _) hlt']
        apply ih (start + 1) hlt' (by omega)
        intro k hk hki
        exact hmiss k (by omega) hki

theorem probeLoop_eq_fallback
    {bound : ℕ} {body : ℕ → Option β} {fallback : β} :
    ∀ (fuel start : ℕ), start ≤ bound → bound < start + fuel →
      (∀ k, start ≤ k → k < bound → body k = none) →
      probeLoop bound body fallback fuel start = some fallback := by
  intro fuel
  induction fuel with
  | zero =>
      intro start hle hlt _
      omega
  | succ fuel ih =>
      intro start hle hlt hmiss
      rw [probeLoop]
      by_cases hstart : start < bound
      · rw [if_pos hstart, hmiss start (Nat.le_refl _) hstart]
        exact ih (start + 1) hstart (by omega)
          fun k hk hkb => hmiss k (by omega) hkb
      · rw [if_neg hstart]

/-- The loop always ends: `bound` iterations and the final test are enough. -/
theorem probeLoop_isSome
    (bound : ℕ) (body : ℕ → Option β) (fallback : β) :
    ∀ (fuel start : ℕ), start ≤ bound → bound < start + fuel →
      (probeLoop bound body fallback fuel start).isSome := by
  intro fuel
  induction fuel with
  | zero =>
      intro start hle hlt
      omega
  | succ fuel ih =>
      intro start hle hlt
      rw [probeLoop]
      by_cases hstart : start < bound
      · rw [if_pos hstart]
        cases body start with
        | none => exact ih (start + 1) hstart (by omega)
        | some b => rfl
      · rw [if_neg hstart]
        rfl

/-! ## Probe sequences and the invariant -/

/-- The first `i` probes for `k` all meet slots that hold other keys. -/
def Passes (tag : Fin n → Option K) (home : K → Fin n) (k : K) (i : ℕ) : Prop :=
  ∀ i' < i, ∃ k', k' ≠ k ∧ tag (probePos (home k) i') = some k'

/-- Every stored key is reached by probing from its home slot without meeting
an empty slot or another copy of the key. -/
def WellProbed (tag : Fin n → Option K) (home : K → Fin n) : Prop :=
  ∀ j k, tag j = some k →
    ∃ i < n, probePos (home k) i = j ∧ Passes tag home k i

variable {tag : Fin n → Option K} {home : K → Fin n} {k : K} {i i' : ℕ}

theorem wellProbed_empty : WellProbed (fun _ : Fin n => (none : Option K)) home := by
  intro j k hjk
  simp at hjk

/-- Slots that keep their keys are passed again. -/
theorem Passes.mono {tag' : Fin n → Option K}
    (hkeep : ∀ j k', tag j = some k' → tag' j = some k') (hpass : Passes tag home k i) :
    Passes tag' home k i := by
  intro i' hi'
  obtain ⟨k', hne, htag⟩ := hpass i' hi'
  exact ⟨k', hne, hkeep _ _ htag⟩

/-- One probe more. -/
theorem Passes.succ (hpass : Passes tag home k i) {k' : K} (hne : k' ≠ k)
    (htag : tag (probePos (home k) i) = some k') : Passes tag home k (i + 1) := by
  intro i' hi'
  rcases Nat.lt_succ_iff_lt_or_eq.mp hi' with hlt | rfl
  · exact hpass i' hlt
  · exact ⟨k', hne, htag⟩

/-- The outcome of a search: it finds the key, meets an empty slot, or passes
over the whole table. -/
theorem search_cases
    (tag : Fin n → Option K) (home : K → Fin n) (k : K) :
    (∃ i < n, Passes tag home k i ∧ tag (probePos (home k) i) = some k) ∨
      (∃ i < n, Passes tag home k i ∧ tag (probePos (home k) i) = none) ∨
      Passes tag home k n := by
  classical
  by_cases hall : Passes tag home k n
  · exact Or.inr (Or.inr hall)
  · have hex : ∃ i, i < n ∧
        ¬∃ k', k' ≠ k ∧ tag (probePos (home k) i) = some k' := by
      simpa [Passes] using hall
    obtain ⟨hlt, hstop⟩ := Nat.find_spec hex
    have hpass : Passes tag home k (Nat.find hex) := by
      intro i' hi'
      have hmin := Nat.find_min hex hi'
      by_contra hno
      exact hmin ⟨by omega, hno⟩
    cases htag : tag (probePos (home k) (Nat.find hex)) with
    | none => exact Or.inr (Or.inl ⟨_, hlt, hpass, htag⟩)
    | some k' =>
        have hk' : k' = k := by
          by_contra hne
          exact hstop ⟨k', hne, htag⟩
        subst hk'
        exact Or.inl ⟨_, hlt, hpass, htag⟩

/-- Two stops of one search are the same probe. -/
theorem Passes.eq_of_stop
    (h : Passes tag home k i) (h' : Passes tag home k i')
    (hstop : ∀ k', k' ≠ k → tag (probePos (home k) i) ≠ some k')
    (hstop' : ∀ k', k' ≠ k → tag (probePos (home k) i') ≠ some k') :
    i = i' := by
  rcases lt_trichotomy i i' with hlt | heq | hgt
  · obtain ⟨k', hne, htag⟩ := h' i hlt
    exact absurd htag (hstop k' hne)
  · exact heq
  · obtain ⟨k', hne, htag⟩ := h i' hgt
    exact absurd htag (hstop' k' hne)

/-- Under the invariant an empty slot ends the search for an absent key. -/
theorem WellProbed.absent_of_gap
    (hwp : WellProbed tag home) (hpass : Passes tag home k i)
    (hgap : tag (probePos (home k) i) = none) (j : Fin n) :
    tag j ≠ some k := by
  intro hj
  obtain ⟨i', -, hpos, hpass'⟩ := hwp j k hj
  have heq : i = i' := by
    apply hpass.eq_of_stop hpass'
    · intro k' _
      simp [hgap]
    · intro k' hne
      rw [hpos, hj]
      simpa using hne.symm
  subst heq
  rw [hpos, hj] at hgap
  simp at hgap

/-- A key is stored in at most one slot. -/
theorem WellProbed.slot_unique
    (hwp : WellProbed tag home) {j j' : Fin n}
    (hj : tag j = some k) (hj' : tag j' = some k) : j = j' := by
  obtain ⟨i, -, hpos, hpass⟩ := hwp j k hj
  obtain ⟨i', -, hpos', hpass'⟩ := hwp j' k hj'
  have heq : i = i' := by
    apply hpass.eq_of_stop hpass'
    · intro k' hne
      rw [hpos, hj]
      simpa using hne.symm
    · intro k' hne
      rw [hpos', hj']
      simpa using hne.symm
  rw [← hpos, ← hpos', heq]

/-- A search that passes over all slots has met a full table without the
key. -/
theorem Passes.full (hpass : Passes tag home k n) (j : Fin n) :
    ∃ k', k' ≠ k ∧ tag j = some k' := by
  obtain ⟨i, hi, hpos⟩ := exists_probePos_eq (home k) j
  obtain ⟨k', hne, htag⟩ := hpass i hi
  exact ⟨k', hne, hpos ▸ htag⟩

/-- Storing a key in the empty slot that ended its search keeps the
invariant. -/
theorem WellProbed.insert
    (hwp : WellProbed tag home) (hi : i < n) (hpass : Passes tag home k i)
    (hgap : tag (probePos (home k) i) = none) :
    WellProbed (Function.update tag (probePos (home k) i) (some k)) home := by
  have hkeep : ∀ j k', tag j = some k' →
      Function.update tag (probePos (home k) i) (some k) j = some k' := by
    intro j k' htag
    rw [Function.update_of_ne, htag]
    intro heq
    rw [heq, hgap] at htag
    simp at htag
  intro j k₀ hj
  by_cases hslot : j = probePos (home k) i
  · subst hslot
    have hk₀ : k₀ = k := by simpa using hj.symm
    subst hk₀
    exact ⟨i, hi, rfl, hpass.mono hkeep⟩
  · rw [Function.update_of_ne hslot] at hj
    obtain ⟨m, hm, hpos, hpass₀⟩ := hwp j k₀ hj
    exact ⟨m, hm, hpos, hpass₀.mono hkeep⟩

end PollyInstrew.LinearProbe
