import PollyInstrew.Server.PromoteBlock
import PollyInstrew.Support.Worklist

/-!
# The blocks into which a slot is live

`ComputeLiveInBlocks` takes the blocks that load a slot, drops those that store to it
before, and goes on to the predecessors as long as they do not store.  The first loop
edits its list by moving the last block into a hole, with counters of 32 bits.
-/

namespace PollyInstrew.Server

open PollyInstrew.Dominance PollyInstrew.Worklist

/-! ## The closure over predecessors -/

/-- `predecessors(BB)`: one entry for every edge. -/
def Func.preds (f : Func) (b : ℕ) : List ℕ :=
  (List.range f.size).flatMap fun a => List.replicate ((f.block a).succs.count b) a

/-- The first access to the slot in the block is a store. -/
def storesFirst (f : Func) (gep b : ℕ) : Bool :=
  match (f.block b).body.find? (Instr.accesses gep) with
  | some (.store _ _) => true
  | _ => false

/-- One iteration of the second loop of `ComputeLiveInBlocks`. -/
def liveInStep (f : Func) (defBlocks live : List ℕ) (b : ℕ) : List ℕ × List ℕ :=
  if b ∈ live then
    (live, [])
  else
    (b :: live, ((f.preds b).filter (· ∉ defBlocks)).reverse)

/-! ## The first loop -/

/-- The size of a `SmallVector` of pointers has 32 bits. -/
abbrev SmallVector (α : Type) := { l : List α // l.length < 2 ^ 32 }

/-- What `ComputeLiveInBlocks` comes to: a loop may not have ended, the scan of a block or
an index may have passed its end. -/
inductive LiveOutcome (α : Type) where
  | running
  | offBlock
  | offList
  | done (a : α)

/-- The loop over the instructions of a block: whether it comes to a store or to a load of
the slot, if it does not pass the end. -/
def scanBlock (gep : ℕ) : List Instr → Option Bool
  | [] => none
  | .store _ g :: body => if g = gep then some true else scanBlock gep body
  | .load _ g :: body => if g = gep then some false else scanBlock gep body
  | .other _ _ :: body => scanBlock gep body

/-- The loop over `LiveInBlockWorklist`; after a store both `--i` and `++i` are done. -/
def seedLoop (f : Func) (gep : ℕ) (defBlocks : List ℕ) :
    ℕ → BitVec 32 → BitVec 32 → List ℕ → LiveOutcome (List ℕ)
  | 0, _, _, _ => .running
  | fuel + 1, i, e, work =>
      if i = e then .done work
      else
        match work[i.toNat]? with
        | none => .offList
        | some b =>
            if b ∉ defBlocks then seedLoop f gep defBlocks fuel (i + 1) e work
            else
              match scanBlock gep (f.block b).body with
              | none => .offBlock
              | some true =>
                  seedLoop f gep defBlocks fuel (i - 1 + 1) (e - 1) (swapRemove work i.toNat)
              | some false => seedLoop f gep defBlocks fuel (i + 1) e work

/-- Each iteration of the second loop pops a block; one per edge and one per seed are
enough. -/
def computeLiveInBlocks (f : Func) (gep : ℕ) (usingBlocks : SmallVector ℕ)
    (defBlocks : List ℕ) : LiveOutcome (List ℕ) :=
  match seedLoop f gep defBlocks (usingBlocks.1.length + 1) 0
      (BitVec.ofNat 32 usingBlocks.1.length) usingBlocks.1 with
  | .done work =>
      let r := run (liveInStep f defBlocks)
        (work.length + unseen f.size (fun b => (f.preds b).length) []) [] work.reverse
      if r.2.isEmpty then .done r.1 else .running
  | .running => .running
  | .offBlock => .offBlock
  | .offList => .offList

/-! ## What the slot is live into -/

/-- The block stores to the slot. -/
def Func.Stores (f : Func) (gep b : ℕ) : Prop := ∃ k v, f.at (b, k) = some (.store v gep)

/-- The block loads the slot. -/
def Func.Loads (f : Func) (gep b : ℕ) : Prop := ∃ k id, f.at (b, k) = some (.load id gep)

/-- Edges lead from a block of the function to a block of the function. -/
def Func.Closed (f : Func) : Prop := ∀ b c, c ∈ (f.block b).succs → b < f.size ∧ c < f.size

/-- Some path from the beginning of the block loads before it stores. -/
inductive LiveIn (f : Func) (gep : ℕ) : ℕ → Prop
  | load {b k id : ℕ} (hload : f.at (b, k) = some (.load id gep))
      (hfirst : ∀ j v, j < k → f.at (b, j) ≠ some (.store v gep)) : LiveIn f gep b
  | pred {b c : ℕ} (hs : f.cfg.succ b c) (hc : LiveIn f gep c) (hb : ¬f.Stores gep b) :
      LiveIn f gep b

theorem mem_preds {f : Func} (hf : f.Closed) {a b : ℕ} :
    a ∈ f.preds b ↔ f.cfg.succ a b := by
  rw [Func.preds, List.mem_flatMap]
  constructor
  · rintro ⟨c, -, hmem⟩
    obtain ⟨hcount, rfl⟩ := List.mem_replicate.mp hmem
    exact List.count_pos_iff.mp (Nat.pos_of_ne_zero hcount)
  · intro hs
    refine ⟨a, List.mem_range.mpr (hf a b hs).1, List.mem_replicate.mpr ⟨?_, rfl⟩⟩
    exact Nat.ne_of_gt (List.count_pos_iff.mpr hs)

section Liveness

variable {f : Func} {gep : ℕ} {defBlocks : List ℕ}

/-- A block that loads the slot does so before any store, unless it stores
first. -/
theorem storesFirst_eq_false_iff {b k id : ℕ} (hload : f.at (b, k) = some (.load id gep)) :
    storesFirst f gep b = false ↔ ∃ k' id', f.at (b, k') = some (.load id' gep) ∧
      ∀ j v, j < k' → f.at (b, j) ≠ some (.store v gep) := by
  have hsome : ((f.block b).body.find? (Instr.accesses gep)).isSome := by
    rw [List.find?_isSome]
    exact ⟨_, List.mem_of_getElem? hload, by simp [Instr.accesses]⟩
  obtain ⟨i, hi⟩ := Option.isSome_iff_exists.mp hsome
  obtain ⟨hacc, j, hj, hget, hmin⟩ := List.find?_eq_some_iff_getElem.mp hi
  have hat : f.at (b, j) = some i := by
    rw [Func.at, List.getElem?_eq_getElem hj, hget]
  have hnone : ∀ j' i', j' < j → f.at (b, j') = some i' → i'.accesses gep = false := by
    intro j' i' hlt hat'
    have hget' := List.getElem?_eq_some_iff.mp hat'
    have := hmin j' hlt
    rw [hget'.2] at this
    simpa using this
  rw [storesFirst, hi]
  cases i with
  | load id' gep' =>
      obtain rfl : gep' = gep := by simpa [Instr.accesses] using hacc
      refine ⟨fun _ => ⟨j, id', hat, fun j' v hlt hat' => ?_⟩, fun _ => rfl⟩
      exact absurd (hnone j' _ hlt hat') (by simp [Instr.accesses])
  | store v gep' =>
      obtain rfl : gep' = gep := by simpa [Instr.accesses] using hacc
      refine ⟨fun h => absurd h (by simp), ?_⟩
      rintro ⟨k', id', hat', hfirst⟩
      rcases Nat.lt_trichotomy k' j with hlt | rfl | hlt
      · exact absurd (hnone k' _ hlt hat') (by simp [Instr.accesses])
      · exact absurd (hat.symm.trans hat') (by simp)
      · exact absurd hat (hfirst j v hlt)
  | other id' operands => simp [Instr.accesses] at hacc

/-- A block that loads the slot is not scanned to its end. -/
theorem scanBlock_of_loads {b : ℕ} (h : f.Loads gep b) :
    scanBlock gep (f.block b).body = some (storesFirst f gep b) := by
  obtain ⟨k, id, hload⟩ := h
  have hmem : Instr.load id gep ∈ (f.block b).body := List.mem_of_getElem? hload
  rw [storesFirst]
  generalize (f.block b).body = body at hmem
  induction body with
  | nil => cases hmem
  | cons i body ih =>
      have hrest : i ≠ .load id gep → Instr.load id gep ∈ body := fun hne =>
        (List.mem_cons.mp hmem).resolve_left hne.symm
      cases i with
      | load id' g =>
          by_cases hg : g = gep
          · simp [scanBlock, Instr.accesses, hg]
          · have hi : Instr.load id' g ≠ .load id gep := by
              rintro ⟨⟩
              exact hg rfl
            simpa [scanBlock, Instr.accesses, hg] using ih (hrest hi)
      | store v g =>
          by_cases hg : g = gep
          · simp [scanBlock, Instr.accesses, hg]
          · simpa [scanBlock, Instr.accesses, hg] using ih (hrest (by simp))
      | other id' operands => simpa [scanBlock, Instr.accesses] using ih (hrest (by simp))

/-- The slot may be live into the block. -/
def keepBlock (f : Func) (gep : ℕ) (defBlocks : List ℕ) (b : ℕ) : Bool :=
  !(b ∈ defBlocks && storesFirst f gep b)

/-- The counters do not leave the list, so the first loop filters it. -/
theorem seedLoop_eq : ∀ (fuel : ℕ) (i e : BitVec 32) (work : List ℕ), e.toNat = work.length →
    i.toNat ≤ work.length → work.length - i.toNat < fuel → (∀ b ∈ work, f.Loads gep b) →
    seedLoop f gep defBlocks fuel i e work =
      .done (compact (keepBlock f gep defBlocks) work i.toNat) := by
  intro fuel
  induction fuel with
  | zero =>
      intro i e work _ _ h _
      exact absurd h (Nat.not_lt_zero _)
  | succ fuel ih =>
      intro i e work he hi hfuel hloads
      rw [seedLoop, compact]
      by_cases hie : i = e
      · rw [if_pos hie, dif_neg (by rw [hie, he]; exact Nat.lt_irrefl _)]
      · have hlt : i.toNat < work.length := by
          have hne : i.toNat ≠ e.toNat := fun h => hie (BitVec.eq_of_toNat_eq h)
          omega
        have hsucc : (i + 1).toNat = i.toNat + 1 := by
          have := e.isLt
          rw [BitVec.toNat_add]
          exact Nat.mod_eq_of_lt (by change i.toNat + 1 < 2 ^ 32; omega)
        have hscan := scanBlock_of_loads (hloads _ (List.getElem_mem hlt))
        have hnext : seedLoop f gep defBlocks fuel (i + 1) e work =
            .done (compact (keepBlock f gep defBlocks) work (i.toNat + 1)) := by
          rw [ih (i + 1) e work he (by omega) (by omega) hloads, hsucc]
        rw [if_neg hie, dif_pos hlt, List.getElem?_eq_getElem hlt]
        dsimp only
        by_cases hdef : work[i.toNat] ∈ defBlocks
        · rw [if_neg (not_not.mpr hdef), hscan]
          cases hfirst : storesFirst f gep work[i.toNat] with
          | true =>
              have hlen := length_swapRemove hlt
              have hperm := swapRemove_perm (List.getElem?_eq_getElem hlt)
              have hpred : (e - 1).toNat = (swapRemove work i.toNat).length := by
                have hone : (1 : BitVec 32).toNat ≤ e.toNat := by
                  change 1 ≤ e.toNat
                  omega
                rw [BitVec.toNat_sub_of_le hone]
                change e.toNat - 1 = _
                omega
              have hrest : ∀ b ∈ swapRemove work i.toNat, f.Loads gep b := fun b hb =>
                hloads b (hperm.mem_iff.mpr (List.mem_cons_of_mem _ hb))
              dsimp only
              rw [if_neg (by simp [keepBlock, hdef, hfirst]), BitVec.sub_add_cancel,
                ih i (e - 1) _ hpred (by omega) (by omega) hrest]
          | false =>
              dsimp only
              rw [if_pos (by simp [keepBlock, hfirst]), hnext]
        · rw [if_pos hdef, if_pos (by simp [keepBlock, hdef]), hnext]

/-- The state of the second loop of `ComputeLiveInBlocks`. -/
structure LiveInv (f : Func) (gep : ℕ) (start live work : List ℕ) : Prop where
  of_live : ∀ b ∈ live, LiveIn f gep b
  of_work : ∀ b ∈ work, LiveIn f gep b
  of_start : ∀ b ∈ start, b ∈ live ∨ b ∈ work
  of_succ : ∀ b c, c ∈ live → f.cfg.succ b c → ¬f.Stores gep b → b ∈ live ∨ b ∈ work

theorem LiveInv.step (hf : f.Closed) (hdef : ∀ b, b ∈ defBlocks ↔ f.Stores gep b)
    {start live work : List ℕ} {b : ℕ} (h : LiveInv f gep start live (b :: work)) :
    LiveInv f gep start (liveInStep f defBlocks live b).1
      ((liveInStep f defBlocks live b).2 ++ work) := by
  have hb : LiveIn f gep b := h.of_work b List.mem_cons_self
  have hwork : ∀ c ∈ work, LiveIn f gep c := fun c hc => h.of_work c (List.mem_cons_of_mem b hc)
  rw [liveInStep]
  split
  · rename_i hmem
    have hdrop : ∀ {c}, c ∈ live ∨ c ∈ b :: work → c ∈ live ∨ c ∈ work := by
      rintro c (hc | hc)
      · exact .inl hc
      · rcases List.mem_cons.mp hc with rfl | hc
        · exact .inl hmem
        · exact .inr hc
    exact ⟨h.of_live, hwork, fun c hc => hdrop (h.of_start c hc),
      fun a c hc hs hstores => hdrop (h.of_succ a c hc hs hstores)⟩
  · have hnext : ∀ a, a ∈ ((f.preds b).filter (· ∉ defBlocks)).reverse ↔
        f.cfg.succ a b ∧ ¬f.Stores gep a := by
      intro a
      rw [List.mem_reverse, List.mem_filter, mem_preds hf, decide_eq_true_eq, hdef]
    have hkeep : ∀ {c}, c ∈ live ∨ c ∈ b :: work → c ∈ b :: live ∨
        c ∈ ((f.preds b).filter (· ∉ defBlocks)).reverse ++ work := by
      rintro c (hc | hc)
      · exact .inl (List.mem_cons_of_mem b hc)
      · rcases List.mem_cons.mp hc with rfl | hc
        · exact .inl List.mem_cons_self
        · exact .inr (List.mem_append_right _ hc)
    refine ⟨fun c hc => ?_, fun c hc => ?_, fun c hc => hkeep (h.of_start c hc),
      fun a c hc hs hstores => ?_⟩
    · rcases List.mem_cons.mp hc with rfl | hc
      · exact hb
      · exact h.of_live c hc
    · rcases List.mem_append.mp hc with hc | hc
      · obtain ⟨hs, hstores⟩ := (hnext c).mp hc
        exact .pred hs hb hstores
      · exact hwork c hc
    · rcases List.mem_cons.mp hc with rfl | hc
      · exact .inr (List.mem_append_left _ ((hnext a).mpr ⟨hs, hstores⟩))
      · exact hkeep (h.of_succ a c hc hs hstores)

/-- A block pays for its predecessors when it becomes live. -/
theorem liveInStep_paid (hnone : ∀ b, f.size ≤ b → f.preds b = []) (defBlocks : List ℕ) :
    ∀ live b, (liveInStep f defBlocks live b).2.length +
        unseen f.size (fun b => (f.preds b).length) (liveInStep f defBlocks live b).1 ≤
      unseen f.size (fun b => (f.preds b).length) live := by
  intro live b
  rw [liveInStep]
  split
  · simp
  · rename_i hb
    have hzero : f.size ≤ b → (f.preds b).length = 0 := fun hle => by rw [hnone b hle]; rfl
    have hpay := unseen_cons (fun b => (f.preds b).length) hb hzero
    have hlen := List.length_filter_le (· ∉ defBlocks) (f.preds b)
    rw [List.length_reverse]
    dsimp only at hpay ⊢
    omega

/-- Of a function's blocks, those that load the slot and those that store to it: the
computation ends without passing the end of a block or of its list, and returns the blocks
from whose beginning some path loads the slot before it stores to it. -/
theorem live_in_blocks_exact (hf : f.Closed) {usingBlocks : SmallVector ℕ}
    (husing : ∀ b, b ∈ usingBlocks.1 ↔ f.Loads gep b)
    (hdef : ∀ b, b ∈ defBlocks ↔ f.Stores gep b) :
    ∃ live, computeLiveInBlocks f gep usingBlocks defBlocks = .done live ∧
      ∀ b, b ∈ live ↔ LiveIn f gep b := by
  have hsize : (BitVec.ofNat 32 usingBlocks.1.length).toNat = usingBlocks.1.length :=
    Nat.mod_eq_of_lt usingBlocks.2
  rw [computeLiveInBlocks, seedLoop_eq (usingBlocks.1.length + 1) 0 _ usingBlocks.1 hsize
    (Nat.zero_le _) (Nat.lt_succ_of_le (Nat.sub_le _ _)) fun b hb => (husing b).mp hb]
  generalize hwork : compact (keepBlock f gep defBlocks) usingBlocks.1 (BitVec.toNat 0) = work
  have hstart : ∀ b, b ∈ work ↔ ∃ k id, f.at (b, k) = some (.load id gep) ∧
      ∀ j v, j < k → f.at (b, j) ≠ some (.store v gep) := by
    intro b
    rw [← hwork, (compact_perm _ _ _ (by simp)).mem_iff, List.mem_filter, husing]
    constructor
    · rintro ⟨⟨k, id, hload⟩, hkeep⟩
      by_cases hb : b ∈ defBlocks
      · exact (storesFirst_eq_false_iff hload).mp (by simpa [keepBlock, hb] using hkeep)
      · exact ⟨k, id, hload, fun j v _ hat => hb ((hdef b).mpr ⟨j, v, hat⟩)⟩
    · rintro ⟨k, id, hload, hfirst⟩
      have hnot := (storesFirst_eq_false_iff hload).mpr ⟨k, id, hload, hfirst⟩
      exact ⟨⟨k, id, hload⟩, by simp [keepBlock, hnot]⟩
  have hinv : LiveInv f gep work [] work.reverse := by
    refine ⟨by simp, fun c hc => ?_, fun c hc => .inr (List.mem_reverse.mpr hc), by simp⟩
    obtain ⟨k, id, hload, hfirst⟩ := (hstart c).mp (List.mem_reverse.mp hc)
    exact .load hload hfirst
  have hend := run_inv (fun _ _ _ h => LiveInv.step hf hdef h)
    (work.length + unseen f.size (fun b => (f.preds b).length) []) [] work.reverse hinv
  have hnone : ∀ b, f.size ≤ b → f.preds b = [] := by
    intro b hle
    rw [List.eq_nil_iff_forall_not_mem]
    intro a ha
    have := (hf a b ((mem_preds hf).mp ha)).2
    omega
  have hempty := run_empty _ (liveInStep_paid hnone defBlocks)
    (work.length + unseen f.size (fun b => (f.preds b).length) []) [] work.reverse (by simp)
  refine ⟨_, by dsimp only; rw [hempty]; rfl, fun b => ?_⟩
  rw [hempty] at hend
  refine ⟨hend.of_live b, fun hlive => ?_⟩
  induction hlive with
  | load hload hfirst =>
      exact (hend.of_start _ ((hstart _).mpr ⟨_, _, hload, hfirst⟩)).resolve_right (by simp)
  | pred hs _ hb ih => exact (hend.of_succ _ _ ih hs hb).resolve_right (by simp)

end Liveness

theorem live_in_blocks_exact_skippedStore :
    ∃ live, computeLiveInBlocks skippedStore 0 ⟨[2], by decide⟩ [1] = .done live ∧
      ∀ b, b ∈ live ↔ LiveIn skippedStore 0 b := by
  refine live_in_blocks_exact ssa_skippedStore.succ_lt (fun b => ?_) fun b => ?_
  · constructor
    · intro hb
      obtain rfl := List.mem_singleton.mp hb
      exact ⟨0, 7, rfl⟩
    · rintro ⟨k, id, hat⟩
      rcases at_skippedStore hat with ⟨-, h⟩ | ⟨h, -⟩
      · cases h
      · exact List.mem_singleton.mpr (Prod.mk.inj h).1
  · constructor
    · intro hb
      obtain rfl := List.mem_singleton.mp hb
      exact ⟨0, .global 5, rfl⟩
    · rintro ⟨k, v, hat⟩
      rcases at_skippedStore hat with ⟨h, -⟩ | ⟨-, h⟩
      · exact List.mem_singleton.mpr (Prod.mk.inj h).1
      · cases h

end PollyInstrew.Server
