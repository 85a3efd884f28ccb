import PollyInstrew.Client.TableProcesses

/-!
# Readers of the table

In every interleaving of one writer and any number of readers the table is the one that
the finished calls of `rtld_set` leave if each is made at once, apart from the fields of
a slot that is being filled and does not have its address yet.  So readers see published
entries only.
-/

namespace PollyInstrew.Client

open PollyInstrew.LinearProbe PollyInstrew.Transition

variable {addr : Word} {i : ℕ} {call : SetCall} {finished : List SetReturn}

/-! ## The invariant -/

/-- A search has passed the first slots. -/
structure Searching (r : RtldTable) (addr : Word) (i : ℕ) : Prop where
  ne_zero : addr ≠ 0#64
  le : i ≤ rtldSlots
  passes : Passes (rtldTag r) rtldHome addr i

/-- The slot where a search has ended. -/
structure FreeSlot (r : RtldTable) (addr : Word) (j : Fin rtldSlots) : Prop where
  ne_zero : addr ≠ 0#64
  probe : ∃ i < rtldSlots, Passes (rtldTag r) rtldHome addr i ∧ probePos (rtldHome addr) i = j
  free : rtldTag r j = none

/-- Memory has the atomic table, apart from slots without an address. -/
structure TableMem.Ok (g : TableMem) : Prop where
  addr_eq : ∀ j, (g.table j).addr = ((atomicRun g.finished).table j).addr
  slot_eq : ∀ j k, rtldTag (atomicRun g.finished).table j = some k →
    g.table j = (atomicRun g.finished).table j
  returned : Returned g.finished

/-- The writer is at a place from which it finishes its call as if made at once. -/
def Writer.Ok (g : TableMem) : Writer → Prop
  | .idle => g.table = (atomicRun g.finished).table
  | .probing call i =>
      Searching (atomicRun g.finished).table call.addr i ∧
        g.table = (atomicRun g.finished).table
  | .storeEntry call j =>
      FreeSlot (atomicRun g.finished).table call.addr j ∧
        g.table = (atomicRun g.finished).table
  | .storeBase call j =>
      FreeSlot (atomicRun g.finished).table call.addr j ∧ ∃ base size,
        g.table = Function.update (atomicRun g.finished).table j ⟨0#64, call.entry, base, size⟩
  | .storeSize call j =>
      FreeSlot (atomicRun g.finished).table call.addr j ∧ ∃ size,
        g.table = Function.update (atomicRun g.finished).table j
          ⟨0#64, call.entry, call.base, size⟩
  | .storeAddr call j =>
      FreeSlot (atomicRun g.finished).table call.addr j ∧
        g.table = Function.update (atomicRun g.finished).table j
          ⟨0#64, call.entry, call.base, call.size⟩

/-- A success is a binding of a finished call, and a call that began when the address
was stored succeeds. -/
structure Answer.Ok (ans : Answer) (finished : List SetReturn) : Prop where
  bound : ∀ entry, ans.result = .ok entry → (ans.addr, entry) ∈ (atomicRun finished).stored
  found : (∃ entry, (ans.addr, entry) ∈ (atomicRun ans.since).stored) →
    ∃ entry, ans.result = .ok entry
  returned : Returned ans.since

def ReaderPc.Ok (finished : List SetReturn) : ReaderPc → Prop
  | .idle => True
  | .probing addr since i =>
      Searching (atomicRun finished).table addr i ∧ Later since finished ∧ Returned since
  | .loading addr since j =>
      rtldTag (atomicRun finished).table j = some addr ∧ Returned since

structure Reader.Ok (r : Reader) (finished : List SetReturn) : Prop where
  pc : r.pc.Ok finished
  answers : ∀ ans ∈ r.answers, ans.Ok finished

/-- What is known of a process. -/
def tableLocalOk (ρ : Type) : (i : Option ρ) → TableMem → TableLocal ρ i → Prop
  | none => fun g w => Writer.Ok g w
  | some _ => fun g r => Reader.Ok r g.finished

/-! ## Steps -/

theorem Searching.later {older newer : List SetReturn} (hlater : Later older newer)
    (h : Searching (atomicRun older).table addr i) :
    Searching (atomicRun newer).table addr i :=
  ⟨h.ne_zero, h.le, h.passes.mono hlater.tag⟩

theorem Reader.Ok.later {older newer : List SetReturn} (hlater : Later older newer) {r : Reader}
    (h : r.Ok older) : r.Ok newer where
  pc := by
    have hpc := h.pc
    cases hr : r.pc with
    | idle => trivial
    | probing addr since i =>
        rw [hr] at hpc
        exact ⟨hpc.1.later hlater, hpc.2.1.trans hlater, hpc.2.2⟩
    | loading addr since j =>
        rw [hr] at hpc
        exact ⟨hlater.tag j addr hpc.1, hpc.2⟩
  answers := by
    intro ans hans
    obtain ⟨hbound, hfound, hreturned⟩ := h.answers ans hans
    exact ⟨fun entry hentry => hlater.stored _ (hbound entry hentry), hfound, hreturned⟩

section Steps

variable {g : TableMem}

/-- The next probe of a search. -/
theorem Searching.next {r : RtldTable} (h : Searching r addr i) (hi : i < rtldSlots) :
    (r (rtldSlot (rtldHash addr) i)).addr = addr ∧
        rtldTag r (probePos (rtldHome addr) i) = some addr ∨
      (r (rtldSlot (rtldHash addr) i)).addr = 0#64 ∧
        FreeSlot r addr (rtldSlot (rtldHash addr) i) ∨
      (r (rtldSlot (rtldHash addr) i)).addr ≠ addr ∧
        (r (rtldSlot (rtldHash addr) i)).addr ≠ 0#64 ∧ Searching r addr (i + 1) := by
  rw [rtldSlot_eq_probePos]
  by_cases hzero : (r (probePos (rtldHome addr) i)).addr = 0#64
  · have hfree := rtldTag_eq_none_iff.mpr hzero
    exact Or.inr (Or.inl ⟨hzero, h.ne_zero, ⟨i, hi, h.passes, rfl⟩, hfree⟩)
  by_cases heq : (r (probePos (rtldHome addr) i)).addr = addr
  · exact Or.inl ⟨heq, rtldTag_eq_some_iff.mpr ⟨h.ne_zero, heq⟩⟩
  · have htag := rtldTag_eq_some_iff.mpr ⟨hzero, rfl⟩
    exact Or.inr (Or.inr ⟨heq, hzero, h.ne_zero, hi, h.passes.succ heq htag⟩)

/-- A finished call that changes nothing. -/
theorem TableMem.Ok.finish (h : g.Ok) {ret : ℤ} (heq : g.table = (atomicRun g.finished).table)
    (hset : rtldSet (atomicRun g.finished).table call.addr call.entry call.base call.size =
      (ret, (atomicRun g.finished).table)) :
    (g.finish call ret).Ok ∧ Writer.Ok (g.finish call ret) .idle := by
  have hrun : (atomicRun (g.finish call ret).finished).table =
      (atomicRun g.finished).table := by
    rw [TableMem.finish, atomicRun_cons, TableRun.step, hset]
  have htable : (g.finish call ret).table =
      (atomicRun (g.finish call ret).finished).table := by
    rw [hrun]
    exact heq
  refine ⟨⟨fun j => by rw [htable], fun j k _ => by rw [htable], ?_, h.returned⟩, htable⟩
  rw [hset]

/-- A slot without an address does not count. -/
theorem TableMem.Ok.of_update {j : Fin rtldSlots}
    (hfree : FreeSlot (atomicRun finished).table addr j) {obj : RtldObject} (hobj : obj.addr = 0#64)
    (hreturned : Returned finished) :
    TableMem.Ok ⟨Function.update (atomicRun finished).table j obj, finished⟩ where
  addr_eq := by
    intro j'
    dsimp only
    by_cases hj : j' = j
    · rw [hj, Function.update_self, hobj, rtldTag_eq_none_iff.mp hfree.free]
    · rw [Function.update_of_ne hj]
  slot_eq := by
    intro j' k htag
    refine Function.update_of_ne ?_ _ _
    rintro rfl
    rw [hfree.free] at htag
    cases htag
  returned := hreturned

/-- What a step of the writer keeps. -/
structure WriterKeeps (g g' : TableMem) (w' : Writer) : Prop where
  ok : g'.Ok
  writer : Writer.Ok g' w'
  later : Later g.finished g'.finished

theorem WriterKeeps.of_finish (h : g.Ok) {ret : ℤ} (heq : g.table = (atomicRun g.finished).table)
    (hset : rtldSet (atomicRun g.finished).table call.addr call.entry call.base call.size =
      (ret, (atomicRun g.finished).table)) : WriterKeeps g (g.finish call ret) .idle :=
  ⟨(h.finish heq hset).1, (h.finish heq hset).2, Later.cons _ _⟩

/-- A probe of `rtld_set`. -/
theorem Writer.keeps_probing (h : g.Ok) {g' : TableMem} {w' : Writer}
    (hw : Writer.Ok g (.probing call i))
    (hstep : Writer.step g (.probing call i) .next = some (g', w')) : WriterKeeps g g' w' := by
  obtain ⟨hsearch, heq⟩ := hw
  rw [Writer.step, heq] at hstep
  by_cases hi : i < rtldSlots
  · rw [if_pos hi] at hstep
    dsimp only at hstep
    rcases hsearch.next hi with ⟨haddr, htag⟩ | ⟨haddr, hfree⟩ | ⟨hother, hne, hnext⟩
    · rw [if_pos haddr] at hstep
      cases hstep
      refine WriterKeeps.of_finish h heq (rtldSet_eq_of_loop hsearch.ne_zero fun _ => ?_)
      exact rtldSetLoop_of_found hi hsearch.passes htag _ _ _
    · rw [if_neg (by rw [haddr]; exact hsearch.ne_zero.symm), if_pos haddr] at hstep
      cases hstep
      exact ⟨h, ⟨hfree, heq⟩, Later.refl _⟩
    · rw [if_neg hother, if_neg hne] at hstep
      cases hstep
      exact ⟨h, ⟨hnext, heq⟩, Later.refl _⟩
  · rw [if_neg hi] at hstep
    cases hstep
    have hfull : Passes (rtldTag (atomicRun g.finished).table) rtldHome call.addr rtldSlots := by
      have hle := hsearch.le
      have hpass := hsearch.passes
      rwa [show i = rtldSlots by omega] at hpass
    refine WriterKeeps.of_finish h heq (rtldSet_eq_of_loop hsearch.ne_zero fun _ => ?_)
    exact rtldSetLoop_of_full hfull _ _ _

/-- A store to a field other than the address. -/
theorem WriterKeeps.of_store (h : g.Ok) {j : Fin rtldSlots} {obj : RtldObject}
    {f : RtldObject → RtldObject} {w' : Writer}
    (hfree : FreeSlot (atomicRun g.finished).table addr j)
    (htable : Function.update g.table j (f (g.table j)) =
      Function.update (atomicRun g.finished).table j obj) (hobj : obj.addr = 0#64)
    (hw : Writer.Ok ⟨Function.update (atomicRun g.finished).table j obj, g.finished⟩ w') :
    WriterKeeps g (g.store j f) w' := by
  rw [TableMem.store, htable]
  exact ⟨TableMem.Ok.of_update hfree hobj h.returned, hw, Later.refl _⟩

/-- The store of the address ends a call that has succeeded. -/
theorem Writer.keeps_storeAddr (h : g.Ok) {j : Fin rtldSlots}
    (hw : Writer.Ok g (.storeAddr call j)) :
    WriterKeeps g ((g.store j fun obj => { obj with addr := call.addr }).finish call 0)
      .idle := by
  obtain ⟨hfree, htable⟩ := hw
  obtain ⟨i, hi, hpass, hpos⟩ := hfree.probe
  have hgap := hfree.free
  rw [← hpos] at hgap
  have hset : rtldSet (atomicRun g.finished).table call.addr call.entry call.base call.size =
      (0, Function.update (atomicRun g.finished).table j
        ⟨call.addr, call.entry, call.base, call.size⟩) := by
    rw [← hpos]
    exact rtldSet_eq_of_loop hfree.ne_zero fun _ =>
      rtldSetLoop_of_gap hfree.ne_zero hi hpass hgap _ _ _
  have hstored : ((g.store j fun obj => { obj with addr := call.addr }).finish call 0).table =
      (atomicRun ((g.store j fun obj => { obj with addr := call.addr }).finish call
        0).finished).table := by
    rw [TableMem.finish, TableMem.store, htable, atomicRun_cons, TableRun.step, hset]
    dsimp only
    rw [Function.update_self, Function.update_idem]
  refine ⟨⟨fun j' => by rw [hstored], fun j' k _ => by rw [hstored], ?_, h.returned⟩, hstored,
    Later.cons _ _⟩
  exact (congrArg Prod.fst hset).symm

/-- Every step of `rtld_set`. -/
theorem Writer.keeps (h : g.Ok) {w w' : Writer} {e : TableEvent} {g' : TableMem}
    (hw : Writer.Ok g w) (hstep : Writer.step g w e = some (g', w')) : WriterKeeps g g' w' := by
  cases e with
  | set call =>
      cases w with
      | idle =>
          rw [Writer.step] at hstep
          by_cases hzero : call.addr = 0#64
          · rw [if_pos hzero] at hstep
            cases hstep
            refine WriterKeeps.of_finish h hw ?_
            rw [rtldSet, if_pos hzero]
          · rw [if_neg hzero] at hstep
            cases hstep
            refine ⟨h, ⟨⟨hzero, Nat.zero_le _, ?_⟩, hw⟩, Later.refl _⟩
            exact fun i' hi' => absurd hi' (Nat.not_lt_zero _)
      | _ => exact absurd hstep (by simp [Writer.step])
  | resolve addr => cases w <;> exact absurd hstep (by simp [Writer.step])
  | next =>
      cases w with
      | idle => exact absurd hstep (by simp [Writer.step])
      | probing call i => exact keeps_probing h hw hstep
      | storeEntry call j =>
          cases hstep
          obtain ⟨hfree, htable⟩ := hw
          have hzero := rtldTag_eq_none_iff.mp hfree.free
          generalize hobj : (atomicRun g.finished).table j = obj at hzero
          refine WriterKeeps.of_store h hfree ?_ rfl ⟨hfree, obj.base, obj.size, rfl⟩
          rw [htable, hobj, hzero]
      | storeBase call j =>
          cases hstep
          obtain ⟨hfree, base, size, htable⟩ := hw
          refine WriterKeeps.of_store h hfree ?_ rfl ⟨hfree, size, rfl⟩
          rw [htable, Function.update_self, Function.update_idem]
      | storeSize call j =>
          cases hstep
          obtain ⟨hfree, size, htable⟩ := hw
          refine WriterKeeps.of_store h hfree ?_ rfl ⟨hfree, rfl⟩
          rw [htable, Function.update_self, Function.update_idem]
      | storeAddr call j =>
          cases hstep
          exact keeps_storeAddr h hw

theorem Reader.Ok.answer {r : Reader} (h : r.Ok finished) {since : List SetReturn}
    {result : Except ℤ Word} (hans : Answer.Ok ⟨addr, since, result⟩ finished) :
    (r.answer addr since result).Ok finished where
  pc := trivial
  answers := by
    intro ans hmem
    rcases List.mem_cons.mp hmem with rfl | hmem
    · exact hans
    · exact h.answers ans hmem

/-- A search that has met a gap, or passed every slot, was for an address that was not
stored when it began. -/
theorem Answer.ok_of_absent {since : List SetReturn} (hlater : Later since finished)
    (hreturned : Returned since) (habsent : ∀ j, rtldTag (atomicRun finished).table j ≠ some addr) :
    Answer.Ok ⟨addr, since, .error (-ENOENT)⟩ finished where
  bound := fun entry heq => absurd heq (by simp)
  found := by
    rintro ⟨entry, hmem⟩
    obtain ⟨j, htag, -⟩ :=
      ((atomicRun_faithful finished).holds_iff addr entry).mpr (hlater.stored _ hmem)
    exact absurd htag (habsent j)
  returned := hreturned

/-- A probe of `rtld_resolve`. -/
theorem Reader.keeps_probing (h : g.Ok) {r r' : Reader} {since : List SetReturn}
    (hr : r.Ok g.finished) (hpc : r.pc = .probing addr since i)
    (hstep : Reader.step g r .next = some r') : r'.Ok g.finished := by
  have hok := hr.pc
  rw [hpc] at hok
  obtain ⟨hsearch, hlater, hreturned⟩ := hok
  have hprobed := (atomicRun_faithful g.finished).probed
  rw [Reader.step.eq_def, hpc] at hstep
  dsimp only at hstep
  by_cases hi : i < rtldSlots
  · rw [if_pos hi, h.addr_eq] at hstep
    rcases hsearch.next hi with ⟨haddr, htag⟩ | ⟨haddr, hfree⟩ | ⟨hother, hne, hnext⟩
    · rw [if_neg (by rw [haddr]; exact hsearch.ne_zero), if_pos haddr] at hstep
      obtain rfl := Option.some.inj hstep
      refine ⟨⟨?_, hreturned⟩, hr.answers⟩
      rw [rtldSlot_eq_probePos]
      exact htag
    · rw [if_pos haddr] at hstep
      obtain rfl := Option.some.inj hstep
      obtain ⟨i', -, hpass, hpos⟩ := hfree.probe
      have hgap := hfree.free
      rw [← hpos] at hgap
      exact hr.answer (Answer.ok_of_absent hlater hreturned
        (WellProbed.absent_of_gap hprobed hpass hgap))
    · rw [if_neg hne, if_neg hother] at hstep
      obtain rfl := Option.some.inj hstep
      exact ⟨⟨hnext, hlater, hreturned⟩, hr.answers⟩
  · rw [if_neg hi] at hstep
    obtain rfl := Option.some.inj hstep
    refine hr.answer (Answer.ok_of_absent hlater hreturned fun j htag => ?_)
    have hpass := hsearch.passes
    have hle := hsearch.le
    rw [show i = rtldSlots by omega] at hpass
    obtain ⟨k', hne, htag'⟩ := hpass.full j
    rw [htag] at htag'
    exact hne (Option.some.inj htag').symm

/-- Every step of `rtld_resolve`. -/
theorem Reader.keeps (h : g.Ok) {r r' : Reader} {e : TableEvent} (hr : r.Ok g.finished)
    (hstep : Reader.step g r e = some r') : r'.Ok g.finished := by
  cases hpc : r.pc with
  | idle =>
      rw [Reader.step.eq_def, hpc] at hstep
      cases e with
      | set call => cases hstep
      | next => cases hstep
      | resolve addr =>
          dsimp only at hstep
          by_cases hzero : addr = 0#64
          · rw [if_pos hzero] at hstep
            obtain rfl := Option.some.inj hstep
            refine hr.answer (Answer.ok_of_absent (Later.refl _) h.returned fun j htag => ?_)
            exact (rtldTag_eq_some_iff.mp htag).1 hzero
          · rw [if_neg hzero] at hstep
            obtain rfl := Option.some.inj hstep
            refine ⟨⟨⟨hzero, Nat.zero_le _, ?_⟩, Later.refl _, h.returned⟩, hr.answers⟩
            exact fun i' hi' => absurd hi' (Nat.not_lt_zero _)
  | probing addr since i =>
      cases e with
      | next => exact keeps_probing h hr hpc hstep
      | _ =>
          rw [Reader.step.eq_def, hpc] at hstep
          cases hstep
  | loading addr since j =>
      have hok := hr.pc
      rw [hpc] at hok
      obtain ⟨htag, hreturned⟩ := hok
      rw [Reader.step.eq_def, hpc] at hstep
      cases e with
      | next =>
          obtain rfl := Option.some.inj hstep
          rw [h.slot_eq j addr htag]
          refine hr.answer ⟨?_, fun _ => ⟨_, rfl⟩, hreturned⟩
          intro entry heq
          obtain rfl := Except.ok.inj heq
          exact ((atomicRun_faithful g.finished).holds_iff _ _).mp ⟨j, htag, rfl⟩
      | _ => cases hstep

end Steps

/-! ## Runs -/

section Runs

variable {ρ : Type}

theorem tableInv_start : Inv TableMem.Ok (tableLocalOk ρ) (tableStart ρ) where
  shared := ⟨fun _ => rfl, fun _ _ _ => rfl, trivial⟩
  locals := by
    intro i
    cases i with
    | none => exact rfl
    | some r => exact ⟨trivial, fun ans hans => absurd hans List.not_mem_nil⟩

variable [DecidableEq ρ]

theorem tableInv_step {s s' : TableSystem ρ} {e : Option ρ × TableEvent}
    (h : Inv TableMem.Ok (tableLocalOk ρ) s)
    (hstep : interleave (tableAction ρ) s e = some s') :
    Inv TableMem.Ok (tableLocalOk ρ) s' := by
  refine h.step hstep ?_
  obtain ⟨i, e⟩ := e
  intro g l hact
  have hown := h.locals i
  cases i with
  | none =>
      obtain ⟨hok, hwriter, hlater⟩ := Writer.keeps h.shared hown hact
      refine ⟨⟨hok, hwriter⟩, ?_⟩
      intro j hj m hm
      cases j with
      | none => exact absurd rfl hj
      | some r => exact Reader.Ok.later hlater hm
  | some r =>
      obtain ⟨r', hstep', heq⟩ := Option.map_eq_some_iff.mp hact
      obtain ⟨rfl, rfl⟩ := Prod.mk.inj heq
      exact ⟨⟨h.shared, Reader.keeps h.shared hown hstep'⟩, fun j _ m hm => hm⟩

theorem tableInv_run {events : List (Option ρ × TableEvent)} {s s' : TableSystem ρ}
    (h : Inv TableMem.Ok (tableLocalOk ρ) s) (hrun : runTableSystem s events = some s') :
    Inv TableMem.Ok (tableLocalOk ρ) s' := by
  have hguard : Guarded (interleave (tableAction ρ)) (fun _ _ => True) s events :=
    guarded_of_forall (fun _ _ _ => trivial) s
  exact run_invariant (fun _ _ _ _ hs _ hstep => tableInv_step hs hstep) h hguard hrun

/-- In every interleaving the calls of `rtld_set` return what they return if each is made
at once, and between two calls the table is what they leave then. -/
theorem runTableSystem_atomic {events : List (Option ρ × TableEvent)} {s : TableSystem ρ}
    (hrun : runTableSystem (tableStart ρ) events = some s) :
    Returned s.shared.finished ∧
      (s.locals none = Writer.idle → s.shared.table = (atomicRun s.shared.finished).table) := by
  have hinv := tableInv_run tableInv_start hrun
  refine ⟨hinv.shared.returned, fun hidle => ?_⟩
  have hwriter := hinv.locals none
  rw [hidle] at hwriter
  exact hwriter

/-! ## Readers return -/

/-- An upper bound of the steps that a call of `rtld_resolve` still takes. -/
def ReaderPc.left : ReaderPc → ℕ
  | .idle => 0
  | .probing _ _ i => rtldSlots - i + 1
  | .loading _ _ _ => 1

theorem ReaderPc.left_le (pc : ReaderPc) : pc.left ≤ rtldSlots + 1 := by
  cases pc with
  | idle => exact Nat.zero_le _
  | probing addr since i => exact Nat.succ_le_succ (Nat.sub_le _ _)
  | loading addr since j => exact Nat.succ_le_succ (Nat.zero_le _)

theorem ReaderPc.left_pos {pc : ReaderPc} (h : pc ≠ .idle) : 0 < pc.left := by
  cases pc with
  | idle => exact absurd rfl h
  | probing addr since i => exact Nat.succ_pos _
  | loading addr since j => exact Nat.one_pos

/-- A step of a reader: it returns, or it goes on and has fewer steps left. -/
theorem Reader.step_progress {g : TableMem} {r r' : Reader} {e : TableEvent}
    (hstep : Reader.step g r e = some r') :
    r'.answers.length = r.answers.length + 1 ∨
      r'.answers = r.answers ∧ r'.pc ≠ .idle ∧ (r.pc ≠ .idle → r'.pc.left < r.pc.left) := by
  cases hpc : r.pc with
  | idle =>
      rw [Reader.step.eq_def, hpc] at hstep
      cases e with
      | resolve addr =>
          dsimp only at hstep
          split at hstep
          · obtain rfl := Option.some.inj hstep
            exact Or.inl rfl
          · obtain rfl := Option.some.inj hstep
            exact Or.inr ⟨rfl, by simp, fun h => absurd rfl h⟩
      | _ => cases hstep
  | probing addr since i =>
      rw [Reader.step.eq_def, hpc] at hstep
      cases e with
      | next =>
          dsimp only at hstep
          split at hstep
          · rename_i hi
            split at hstep
            · obtain rfl := Option.some.inj hstep
              exact Or.inl rfl
            · split at hstep
              · obtain rfl := Option.some.inj hstep
                refine Or.inr ⟨rfl, by simp, fun _ => ?_⟩
                dsimp only [ReaderPc.left]
                omega
              · obtain rfl := Option.some.inj hstep
                refine Or.inr ⟨rfl, by simp, fun _ => ?_⟩
                dsimp only [ReaderPc.left]
                omega
          · obtain rfl := Option.some.inj hstep
            exact Or.inl rfl
      | _ => cases hstep
  | loading addr since j =>
      rw [Reader.step.eq_def, hpc] at hstep
      cases e with
      | next =>
          obtain rfl := Option.some.inj hstep
          exact Or.inl rfl
      | _ => cases hstep

/-- A reader in a call can always make its next step. -/
theorem Reader.step_isSome {g : TableMem} {r : Reader} (hbusy : r.pc ≠ .idle) :
    (Reader.step g r .next).isSome := by
  rw [Reader.step.eq_def]
  cases hpc : r.pc with
  | idle => exact absurd hpc hbusy
  | probing addr since i =>
      dsimp only
      split_ifs <;> rfl
  | loading addr since j => rfl

/-- A step of the system, as a reader sees it. -/
theorem TableSystem.reader_step {s s' : TableSystem ρ} {e : Option ρ × TableEvent}
    (hstep : interleave (tableAction ρ) s e = some s') (r : ρ) :
    e.1 = some r ∧ Reader.step s.shared (s.reader r) e.2 = some (s'.reader r) ∨
      e.1 ≠ some r ∧ s'.reader r = s.reader r := by
  obtain ⟨⟨g, l⟩, hact, rfl⟩ := Option.map_eq_some_iff.mp hstep
  obtain ⟨i, e⟩ := e
  by_cases hi : i = some r
  · subst hi
    obtain ⟨r', hstep', heq⟩ := Option.map_eq_some_iff.mp hact
    obtain ⟨rfl, rfl⟩ := Prod.mk.inj heq
    refine Or.inl ⟨rfl, ?_⟩
    rw [reader, reader]
    dsimp only
    rw [Function.update_self]
    exact hstep'
  · refine Or.inr ⟨hi, ?_⟩
    rw [reader, reader]
    exact Function.update_of_ne (Ne.symm hi) _ _

/-- Over a run a reader in a call returns, or it has so many steps less left as it has
made. -/
theorem TableSystem.reader_progress {events : List (Option ρ × TableEvent)} (r : ρ) :
    ∀ {s s' : TableSystem ρ}, runTableSystem s events = some s' →
      (s.reader r).answers.length ≤ (s'.reader r).answers.length ∧
      ((s.reader r).pc ≠ .idle →
        (s.reader r).answers.length < (s'.reader r).answers.length ∨
          (s'.reader r).pc ≠ .idle ∧
            (s'.reader r).pc.left + events.countP (fun e => e.1 = some r) ≤
              (s.reader r).pc.left) := by
  induction events with
  | nil =>
      intro s s' hrun
      obtain rfl := Option.some.inj hrun
      exact ⟨Nat.le_refl _, fun hbusy => Or.inr ⟨hbusy, Nat.le_refl _⟩⟩
  | cons e events ih =>
      intro s s' hrun
      obtain ⟨t, hfirst, hrest⟩ := Option.bind_eq_some_iff.mp hrun
      obtain ⟨hlen, hprogress⟩ := ih hrest
      rcases reader_step hfirst r with ⟨he, hstep⟩ | ⟨he, heq⟩
      · rw [List.countP_cons_of_pos (by simpa using he)]
        rcases Reader.step_progress hstep with hans | ⟨hans, hbusy', hless⟩
        · exact ⟨by omega, fun _ => Or.inl (by omega)⟩
        · refine ⟨by rwa [hans] at hlen, fun hbusy => ?_⟩
          have hlt := hless hbusy
          rcases hprogress hbusy' with hmore | ⟨hbusy'', hleft⟩
          · rw [hans] at hmore
            exact Or.inl hmore
          · exact Or.inr ⟨hbusy'', by omega⟩
      · rw [List.countP_cons_of_neg (by simpa using he), ← heq]
        exact ⟨hlen, hprogress⟩

theorem TableSystem.reader_returns {events : List (Option ρ × TableEvent)} {r : ρ}
    {s s' : TableSystem ρ} (hrun : runTableSystem s events = some s')
    (hbusy : (s.reader r).pc ≠ .idle)
    (hcount : rtldSlots < events.countP fun e => e.1 = some r) :
    (s.reader r).answers.length < (s'.reader r).answers.length := by
  rcases (reader_progress r hrun).2 hbusy with hmore | ⟨hbusy', hleft⟩
  · exact hmore
  · have hpos := ReaderPc.left_pos hbusy'
    have hle := (s.reader r).pc.left_le
    omega

theorem Answer.Ok.published {ans : Answer} (h : ans.Ok finished) (hreturned : Returned finished) :
    (∀ entry, ans.result = .ok entry →
      ∃ call, successes finished ans.addr = [call] ∧ entry = call.entry) ∧
    (successes ans.since ans.addr ≠ [] → ∃ entry, ans.result = .ok entry) :=
  ⟨fun entry hentry => hreturned.successes_of_stored (h.bound entry hentry),
    fun hne => h.found (h.returned.stored_of_successes hne)⟩

end Runs

/-- A reader searches for an address while it is stored, and again afterwards. -/
def sampleSchedule : List (Option Unit × TableEvent) :=
  [(none, .set ⟨0x400000, 0x500000, 0x600000, 0x80⟩), (none, .next), (some (), .resolve 0x400000),
    (none, .next), (some (), .next), (none, .next), (none, .next), (none, .next),
    (some (), .resolve 0x400000), (some (), .next), (some (), .next)]

theorem sampleSchedule_answers :
    (runTableSystem (tableStart Unit) sampleSchedule).map (fun s =>
        (s.reader ()).answers.map fun ans => (ans.addr, ans.result.toOption)) =
      some [(0x400000, some 0x500000), (0x400000, none)] := by
  decide +kernel

theorem runTableSystem_atomic_sample :
    ∃ s, runTableSystem (tableStart Unit) sampleSchedule = some s ∧
      Returned s.shared.finished := by
  obtain ⟨s, hrun, -⟩ := Option.map_eq_some_iff.mp sampleSchedule_answers
  exact ⟨s, hrun, (runTableSystem_atomic hrun).1⟩

end PollyInstrew.Client
