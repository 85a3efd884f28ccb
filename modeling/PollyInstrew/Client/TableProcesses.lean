import PollyInstrew.Support.Transition
import PollyInstrew.Client.RtldTable

/-!
# Processes that share the table

One process calls `rtld_set` and any number of others call `rtld_resolve` on the same
table.  A step is one load or store of a field, in program order, and the processes
take turns in any order.  The finished calls of `rtld_set` are compared with the same
calls made at once.
-/

namespace PollyInstrew.Client

open PollyInstrew.LinearProbe PollyInstrew.Transition

/-! ## The processes -/

/-- The arguments of `rtld_set`. -/
structure SetCall where
  addr : Word
  entry : Word
  base : Word
  size : Word
  deriving DecidableEq

/-- A call of `rtld_set` that has returned. -/
structure SetReturn where
  call : SetCall
  ret : ℤ
  deriving DecidableEq

/-- The table in memory, and the finished calls of `rtld_set`, the last one first. -/
structure TableMem where
  table : RtldTable
  finished : List SetReturn

def TableMem.finish (g : TableMem) (call : SetCall) (ret : ℤ) : TableMem :=
  { g with finished := ⟨call, ret⟩ :: g.finished }

def TableMem.store (g : TableMem) (j : Fin rtldSlots) (f : RtldObject → RtldObject) : TableMem :=
  { g with table := Function.update g.table j (f (g.table j)) }

/-- What a process does next: begin a call, or go on with it. -/
inductive TableEvent where
  | set (call : SetCall)
  | resolve (addr : Word)
  | next
  deriving DecidableEq

/-- Where `rtld_set` is: before the load of a probe or before a store. -/
inductive Writer where
  | idle
  | probing (call : SetCall) (i : ℕ)
  | storeEntry (call : SetCall) (j : Fin rtldSlots)
  | storeBase (call : SetCall) (j : Fin rtldSlots)
  | storeSize (call : SetCall) (j : Fin rtldSlots)
  | storeAddr (call : SetCall) (j : Fin rtldSlots)

/-- One step of `rtld_set`. -/
def Writer.step (g : TableMem) : Writer → TableEvent → Option (TableMem × Writer)
  | .idle, .set call =>
      if call.addr = 0#64 then
        some (g.finish call (-EINVAL), .idle)
      else
        some (g, .probing call 0)
  | .probing call i, .next =>
      if i < rtldSlots then
        let j := rtldSlot (rtldHash call.addr) i
        if (g.table j).addr = call.addr then
          some (g.finish call (-EEXIST), .idle)
        else if (g.table j).addr = 0#64 then
          some (g, .storeEntry call j)
        else
          some (g, .probing call (i + 1))
      else
        some (g.finish call (-ENOSPC), .idle)
  | .storeEntry call j, .next =>
      some (g.store j fun obj => { obj with entry := call.entry }, .storeBase call j)
  | .storeBase call j, .next =>
      some (g.store j fun obj => { obj with base := call.base }, .storeSize call j)
  | .storeSize call j, .next =>
      some (g.store j fun obj => { obj with size := call.size }, .storeAddr call j)
  | .storeAddr call j, .next =>
      some ((g.store j fun obj => { obj with addr := call.addr }).finish call 0, .idle)
  | _, _ => none

/-- What a call of `rtld_resolve` has returned, and the calls of `rtld_set` that were
finished when it began. -/
structure Answer where
  addr : Word
  since : List SetReturn
  result : Except ℤ Word

/-- Where `rtld_resolve` is: before the load of a probe or before that of an entry. -/
inductive ReaderPc where
  | idle
  | probing (addr : Word) (since : List SetReturn) (i : ℕ)
  | loading (addr : Word) (since : List SetReturn) (j : Fin rtldSlots)

structure Reader where
  pc : ReaderPc
  answers : List Answer

/-- The reader returns. -/
def Reader.answer (r : Reader) (addr : Word) (since : List SetReturn)
    (result : Except ℤ Word) : Reader :=
  { pc := .idle
    answers := ⟨addr, since, result⟩ :: r.answers }

/-- One step of `rtld_resolve`. -/
def Reader.step (g : TableMem) (r : Reader) (e : TableEvent) : Option Reader :=
  match r.pc, e with
  | .idle, .resolve addr =>
      if addr = 0#64 then
        some (r.answer addr g.finished (.error (-ENOENT)))
      else
        some { r with pc := .probing addr g.finished 0 }
  | .probing addr since i, .next =>
      if i < rtldSlots then
        let j := rtldSlot (rtldHash addr) i
        if (g.table j).addr = 0#64 then
          some (r.answer addr since (.error (-ENOENT)))
        else if (g.table j).addr = addr then
          some { r with pc := .loading addr since j }
        else
          some { r with pc := .probing addr since (i + 1) }
      else
        some (r.answer addr since (.error (-ENOENT)))
  | .loading addr since j, .next => some (r.answer addr since (.ok (g.table j).entry))
  | _, _ => none

/-- The writer is process `none`. -/
abbrev TableLocal (ρ : Type) : Option ρ → Type
  | none => Writer
  | some _ => Reader

def tableAction (ρ : Type) : Action TableMem TableEvent (TableLocal ρ)
  | none => fun e g w => Writer.step g w e
  | some _ => fun e g r => (Reader.step g r e).map fun r' => (g, r')

abbrev TableSystem (ρ : Type) := System TableMem (TableLocal ρ)

/-- The reader with a name. -/
def TableSystem.reader {ρ : Type} (s : TableSystem ρ) (r : ρ) : Reader := s.locals (some r)

/-- After `rtld_init`, before any call. -/
def tableStart (ρ : Type) : TableSystem ρ where
  shared := ⟨rtldInitTable, []⟩
  locals
    | none => Writer.idle
    | some _ => ⟨.idle, []⟩

/-- The run of a schedule. -/
def runTableSystem {ρ : Type} [DecidableEq ρ] (s : TableSystem ρ)
    (events : List (Option ρ × TableEvent)) : Option (TableSystem ρ) :=
  run (interleave (tableAction ρ)) s events

/-! ## The finished calls, made at once -/

/-- What the finished calls do if each is made at once. -/
def atomicRun (finished : List SetReturn) : TableRun :=
  runTable (finished.reverse.map fun f =>
    TableOp.set f.call.addr f.call.entry f.call.base f.call.size)

theorem atomicRun_cons (f : SetReturn) (finished : List SetReturn) :
    atomicRun (f :: finished) = (atomicRun finished).step
      (.set f.call.addr f.call.entry f.call.base f.call.size) := by
  simp [atomicRun, runTable, List.foldl_append]

theorem atomicRun_faithful (finished : List SetReturn) : (atomicRun finished).Faithful :=
  TableRun.Faithful.foldl _ TableRun.Faithful.init

/-- The calls have returned what they return if each is made at once. -/
def Returned : List SetReturn → Prop
  | [] => True
  | f :: finished =>
      f.ret = (rtldSet (atomicRun finished).table f.call.addr f.call.entry f.call.base
        f.call.size).1 ∧ Returned finished

/-- The calls that have stored an address. -/
def successes (finished : List SetReturn) (addr : Word) : List SetCall :=
  (finished.filter fun f => f.call.addr = addr ∧ f.ret = 0).map SetReturn.call

theorem Returned.stored_eq {finished : List SetReturn} (h : Returned finished) :
    (atomicRun finished).stored = (finished.filter fun f => f.ret = 0).map fun f =>
      (f.call.addr, f.call.entry) := by
  induction finished with
  | nil => rfl
  | cons f finished ih =>
      rw [atomicRun_cons, TableRun.step]
      dsimp only
      rw [← h.1, ih h.2]
      by_cases hret : f.ret = 0
      · rw [if_pos hret, List.filter_cons_of_pos (by simpa using hret), List.map_cons]
      · rw [if_neg hret, List.filter_cons_of_neg (by simpa using hret)]

theorem successes_eq_filter (finished : List SetReturn) (addr : Word) :
    successes finished addr =
      ((finished.filter fun f => f.ret = 0).filter fun f => f.call.addr = addr).map
        SetReturn.call := by
  rw [successes, List.filter_filter]
  simp only [Bool.decide_and]

/-- Of elements with different keys only one has the key of `x`. -/
theorem filter_eq_singleton {α β : Type} [DecidableEq β] {f : α → β} {l : List α} {x : α}
    (hnodup : (l.map f).Nodup) (hx : x ∈ l) : l.filter (fun y => f y = f x) = [x] := by
  induction l with
  | nil => exact absurd hx List.not_mem_nil
  | cons y l ih =>
      rw [List.map_cons, List.nodup_cons] at hnodup
      rcases List.mem_cons.mp hx with rfl | hx
      · rw [List.filter_cons_of_pos (by simp), List.filter_eq_nil_iff.mpr]
        intro z hz heq
        have heq' : f z = f x := by simpa using heq
        exact hnodup.1 (heq' ▸ List.mem_map_of_mem hz)
      · have hne : f y ≠ f x := fun heq => hnodup.1 (heq ▸ List.mem_map_of_mem hx)
        rw [List.filter_cons_of_neg (by simpa using hne)]
        exact ih hnodup.2 hx

/-- A binding of the atomic run is that of the only successful call. -/
theorem Returned.successes_of_stored {finished : List SetReturn} (h : Returned finished)
    {addr entry : Word} (hmem : (addr, entry) ∈ (atomicRun finished).stored) :
    ∃ call, successes finished addr = [call] ∧ entry = call.entry := by
  have hnodup := (atomicRun_faithful finished).nodup
  rw [h.stored_eq] at hmem hnodup
  rw [List.map_map] at hnodup
  obtain ⟨f, hf, heq⟩ := List.mem_map.mp hmem
  obtain ⟨rfl, rfl⟩ := Prod.mk.inj heq
  refine ⟨f.call, ?_, rfl⟩
  rw [successes_eq_filter, filter_eq_singleton (f := fun f => f.call.addr) hnodup hf]
  rfl

theorem Returned.stored_of_successes {finished : List SetReturn} (h : Returned finished)
    {addr : Word} (hne : successes finished addr ≠ []) :
    ∃ entry, (addr, entry) ∈ (atomicRun finished).stored := by
  obtain ⟨call, hcall⟩ := List.exists_mem_of_ne_nil _ hne
  rw [successes] at hcall
  obtain ⟨f, hf, -⟩ := List.mem_map.mp hcall
  obtain ⟨hmem, hcond⟩ := List.mem_filter.mp hf
  obtain ⟨haddr, hret⟩ := of_decide_eq_true hcond
  refine ⟨f.call.entry, ?_⟩
  rw [h.stored_eq, ← haddr]
  exact List.mem_map_of_mem (List.mem_filter.mpr ⟨hmem, decide_eq_true hret⟩)

/-- `rtld_set` leaves slots in use alone. -/
theorem rtldSet_slot {r : RtldTable} {j : Fin rtldSlots} {k : Word} (htag : rtldTag r j = some k)
    (addr entry objBase objSize : Word) : (rtldSet r addr entry objBase objSize).2 j = r j := by
  by_cases hne : addr = 0#64
  · rw [rtldSet, if_pos hne]
  rcases search_cases (rtldTag r) rtldHome addr with
    ⟨i, hi, hpass, hstop⟩ | ⟨i, hi, hpass, hstop⟩ | hpass
  · rw [rtldSet_eq_of_loop hne fun _ => rtldSetLoop_of_found hi hpass hstop _ _ _]
  · rw [rtldSet_eq_of_loop hne fun _ => rtldSetLoop_of_gap hne hi hpass hstop _ _ _]
    refine Function.update_of_ne ?_ _ _
    rintro rfl
    rw [hstop] at htag
    exact absurd htag (by simp)
  · rw [rtldSet_eq_of_loop hne fun _ => rtldSetLoop_of_full hpass _ _ _]

/-- What later calls keep of the atomic run. -/
structure Later (older newer : List SetReturn) : Prop where
  slot : ∀ j k, rtldTag (atomicRun older).table j = some k →
    (atomicRun newer).table j = (atomicRun older).table j
  stored : ∀ x ∈ (atomicRun older).stored, x ∈ (atomicRun newer).stored

theorem Later.tag {older newer : List SetReturn} (h : Later older newer) (j : Fin rtldSlots)
    (k : Word) (htag : rtldTag (atomicRun older).table j = some k) :
    rtldTag (atomicRun newer).table j = some k := by
  rw [rtldTag, h.slot j k htag]
  exact htag

theorem Later.refl (finished : List SetReturn) : Later finished finished :=
  ⟨fun _ _ _ => rfl, fun _ hx => hx⟩

theorem Later.trans {a b c : List SetReturn} (hab : Later a b) (hbc : Later b c) : Later a c where
  slot := by
    intro j k htag
    rw [hbc.slot j k (hab.tag j k htag), hab.slot j k htag]
  stored := fun x hx => hbc.stored x (hab.stored x hx)

theorem Later.cons (f : SetReturn) (finished : List SetReturn) :
    Later finished (f :: finished) where
  slot := by
    intro j k htag
    rw [atomicRun_cons]
    exact rtldSet_slot htag _ _ _ _
  stored := by
    intro x hx
    rw [atomicRun_cons, TableRun.step]
    dsimp only
    split
    · exact List.mem_cons_of_mem _ hx
    · exact hx

end PollyInstrew.Client
