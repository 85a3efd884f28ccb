import Mathlib.Data.List.Basic

/-!
# Dominance in control-flow graphs

Paths from the entry of a graph, dominance, and the order of program points that
it induces.
-/

namespace PollyInstrew.Dominance

/-- A graph with an entry node. -/
structure Cfg (β : Type*) where
  entry : β
  succ : β → β → Prop

namespace Cfg

variable {β : Type*} {G : Cfg β} {a b c x : β} {π ρ τ : List β}

/-- The paths from the entry, last node first. -/
inductive Path (G : Cfg β) : List β → Prop
  | entry : Path G [G.entry]
  | step {b c : β} {π : List β} (h : Path G (b :: π)) (hs : G.succ b c) :
      Path G (c :: b :: π)

def Reachable (G : Cfg β) (b : β) : Prop := ∃ π, G.Path (b :: π)

/-- Every path to `b` goes through `a`. -/
def Dom (G : Cfg β) (a b : β) : Prop := ∀ π, G.Path (b :: π) → a ∈ b :: π

def SDom (G : Cfg β) (a b : β) : Prop := G.Dom a b ∧ a ≠ b

/-! ## Paths -/

theorem Path.suffix (h : G.Path (ρ ++ b :: π)) : G.Path (b :: π) := by
  induction ρ with
  | nil => exact h
  | cons c ρ ih =>
      rw [List.cons_append] at h
      generalize hl : ρ ++ b :: π = l at h ih
      cases h with
      | entry => exact absurd hl (by simp)
      | step h _ => exact ih h

theorem Path.exists_suffix (h : G.Path π) (hb : b ∈ π) :
    ∃ ρ τ, π = ρ ++ b :: τ ∧ G.Path (b :: τ) := by
  obtain ⟨ρ, τ, rfl⟩ := List.append_of_mem hb
  exact ⟨ρ, τ, rfl, h.suffix⟩

theorem Path.reachable (h : G.Path π) (hb : b ∈ π) : G.Reachable b := by
  obtain ⟨_, τ, _, hτ⟩ := h.exists_suffix hb
  exact ⟨τ, hτ⟩

/-! ## Dominance -/

theorem Dom.refl (G : Cfg β) (b : β) : G.Dom b b := fun _ _ => List.mem_cons_self

theorem Dom.trans (hab : G.Dom a b) (hbc : G.Dom b c) : G.Dom a c := by
  intro π hπ
  obtain ⟨ρ, τ, heq, hτ⟩ := hπ.exists_suffix (hbc π hπ)
  rw [heq]
  exact List.mem_append_right ρ (hab τ hτ)

theorem Dom.reachable (h : G.Dom a b) (hb : G.Reachable b) : G.Reachable a := by
  obtain ⟨π, hπ⟩ := hb
  exact hπ.reachable (h π hπ)

theorem Dom.antisymm (hab : G.Dom a b) (hba : G.Dom b a) (ha : G.Reachable a) : a = b := by
  by_contra hne
  have hshort : ∀ n π, π.length = n → ¬G.Path (a :: π) := by
    intro n
    induction n using Nat.strongRecOn with
    | ind n ih =>
        intro π hlen hπ
        have hb : b ∈ π := (List.mem_cons.mp (hba π hπ)).resolve_left (Ne.symm hne)
        obtain ⟨ρ, τ, rfl⟩ := List.append_of_mem hb
        have hτ : G.Path (b :: τ) := Path.suffix (ρ := a :: ρ) hπ
        have ha : a ∈ τ := (List.mem_cons.mp (hab τ hτ)).resolve_left hne
        obtain ⟨ρ', τ', rfl⟩ := List.append_of_mem ha
        have hτ' : G.Path (a :: τ') := Path.suffix (ρ := b :: ρ') hτ
        refine ih τ'.length ?_ τ' rfl hτ'
        rw [← hlen]
        simp only [List.length_append, List.length_cons]
        omega
  obtain ⟨π, hπ⟩ := ha
  exact hshort _ π rfl hπ

/-- A path that comes to its last node for the first time. -/
theorem Reachable.exists_fresh (h : G.Reachable b) : ∃ π, G.Path (b :: π) ∧ b ∉ π := by
  obtain ⟨π, hπ⟩ := h
  generalize hlen : π.length = n
  induction n using Nat.strongRecOn generalizing π with
  | ind n ih =>
      by_cases hb : b ∈ π
      · obtain ⟨ρ, τ, rfl⟩ := List.append_of_mem hb
        refine ih τ.length ?_ τ (Path.suffix (ρ := b :: ρ) hπ) rfl
        rw [← hlen]
        simp only [List.length_append, List.length_cons]
        omega
      · exact ⟨π, hπ, hb⟩

theorem SDom.trans (hab : G.SDom a b) (hbc : G.SDom b c) (hc : G.Reachable c) :
    G.SDom a c := by
  refine ⟨hab.1.trans hbc.1, ?_⟩
  rintro rfl
  exact hab.2 (hab.1.antisymm hbc.1 hc)

theorem SDom.asymm (hab : G.SDom a b) (hba : G.Dom b a) (hb : G.Reachable b) : False :=
  hab.2 (hab.1.antisymm hba (hab.1.reachable hb))

theorem Dom.sdom_trans (hab : G.Dom a b) (hbc : G.SDom b c) (hc : G.Reachable c) :
    G.SDom a c := by
  by_cases h : a = b
  · exact h ▸ hbc
  · exact SDom.trans ⟨hab, h⟩ hbc hc

/-- What strictly dominates a node dominates its predecessors. -/
theorem SDom.dom_pred (h : G.SDom a c) (hs : G.succ b c) : G.Dom a b := by
  intro π hπ
  exact (List.mem_cons.mp (h.1 (b :: π) (hπ.step hs))).resolve_left h.2

/-! ## Program points -/

/-- A point of a node comes before another one on every path. -/
def Before (G : Cfg β) (p q : β × ℕ) : Prop :=
  G.SDom p.1 q.1 ∨ (p.1 = q.1 ∧ p.2 < q.2)

theorem Before.dom {p q : β × ℕ} (h : G.Before p q) : G.Dom p.1 q.1 := by
  rcases h with h | ⟨h, -⟩
  · exact h.1
  · exact h ▸ Dom.refl G p.1

theorem Before.trans {p q r : β × ℕ} (hpq : G.Before p q) (hqr : G.Before q r)
    (hr : G.Reachable r.1) : G.Before p r := by
  rcases hqr with hqr | ⟨heq, hlt⟩
  · exact .inl (hpq.dom.sdom_trans hqr hr)
  · rcases hpq with hpq | ⟨heq', hlt'⟩
    · exact .inl (heq ▸ hpq)
    · exact .inr ⟨heq'.trans heq, Nat.lt_trans hlt' hlt⟩

theorem Before.irrefl (p : β × ℕ) : ¬G.Before p p := by
  rintro (h | ⟨-, h⟩)
  · exact h.2 rfl
  · exact Nat.lt_irrefl _ h

theorem Before.asymm {p q : β × ℕ} (hpq : G.Before p q) (hqp : G.Before q p)
    (hp : G.Reachable p.1) : False :=
  Before.irrefl p (hpq.trans hqp hp)

end Cfg

end PollyInstrew.Dominance
