import PollyInstrew.Client.Signals

/-!
# The guest's signal actions

`signal_sigaction` enters the new action into the guest's table before it asks the
host.  If the host refuses, as it does for `SIGKILL` and `SIGSTOP`, the entry stays
although the guest is told that the call failed.
-/

namespace PollyInstrew.Emulate

open PollyInstrew.Client

/-! ## The table and the call -/

/-- `struct sigaction`. -/
structure SigAction where
  saHandler : Word
  saFlags : Word
  saRestorer : Word
  saMask : Word
  deriving DecidableEq

def SIGDFL : Word := 0
def SIGIGN : Word := 1
def SASIGINFO : Word := 4
def SARESTART : Word := 0x10000000
def SARESTORER : Word := 0x04000000

/-- A zeroed entry, the default action. -/
def SigAction.default : SigAction := ⟨SIGDFL, 0, 0, 0⟩

/-- `sigact`; the action of a signal has the index one below its number. -/
abbrev ActionTable := ℕ → SigAction

/-- The table before the first call. -/
def actionsInit : ActionTable := fun _ => .default

/-- The addresses of `signal_handler` and `__restore`. -/
structure HandlerAddrs where
  signalHandler : Word
  restore : Word
  deriving DecidableEq

/-- The action that `signal_sigaction` asks the host for. -/
def hostAction (addrs : HandlerAddrs) (nact : SigAction) : SigAction where
  saHandler :=
    if nact.saHandler = SIGDFL ∨ nact.saHandler = SIGIGN then nact.saHandler
    else addrs.signalHandler
  saFlags := if nact.saFlags &&& SARESTART ≠ 0 then SASIGINFO ||| SARESTART else SASIGINFO
  saRestorer := 0
  saMask := ~~~0

/-- The action that `sigaction` passes to the kernel. -/
def sigaction (addrs : HandlerAddrs) (act : SigAction) : SigAction :=
  { act with
    saFlags := act.saFlags ||| SARESTORER
    saRestorer := addrs.restore }

/-- What `signal_sigaction` returns, stores and passes to the kernel. -/
structure ActionResult where
  ret : ℤ
  table : ActionTable
  /-- the value stored to `*oact` -/
  old : Option SigAction
  /-- the signal and the action passed to the kernel -/
  installed : Option (ℤ × SigAction)

/-- The index of a signal in the table. -/
def actIndex (sig : ℤ) : ℕ := (sig - 1).toNat

/-- `hostRet` is what the kernel returns if it is called. -/
def signalSigaction (addrs : HandlerAddrs) (hostRet : ℤ) (table : ActionTable) (sig : ℤ)
    (nact : Option SigAction) (oact : Bool) : ActionResult :=
  if sig ≤ 0 ∨ 64 < sig then
    ⟨-EINVAL, table, none, none⟩
  else
    let old := if oact then some (table (actIndex sig)) else none
    match nact with
    | none => ⟨0, table, old, none⟩
    | some nact =>
        let table := Function.update table (actIndex sig) nact
        if sig = SIGSEGV ∨ sig = SIGBUS then
          ⟨0, table, old, none⟩
        else
          ⟨hostRet, table, old, some (sig, sigaction addrs (hostAction addrs nact))⟩

/-! ## Sequences of calls -/

/-- A call of the guest with the answer of the kernel, which rejects two signals. -/
structure ActionCall where
  sig : ℤ
  nact : Option SigAction
  oact : Bool
  hostRet : ℤ
  rejects : sig = SIGKILL ∨ sig = SIGSTOP → hostRet < 0

section Runs

variable (addrs : HandlerAddrs)

def ActionCall.result (table : ActionTable) (call : ActionCall) : ActionResult :=
  signalSigaction addrs call.hostRet table call.sig call.nact call.oact

/-- The table after some calls. -/
def actionsAfter (calls : List ActionCall) : ActionTable :=
  calls.foldl (fun table call => (call.result addrs table).table) actionsInit

/-- The call is an update of a signal that the guest sees succeed. -/
def ActionCall.updates (sig : ℤ) (call : ActionCall) : Bool :=
  call.sig = sig && call.nact.isSome && 0 ≤ (call.result addrs actionsInit).ret

/-- The action of the last successful update, or the default. -/
def lastUpdate (calls : List ActionCall) (sig : ℤ) : SigAction :=
  ((calls.reverse.find? (ActionCall.updates addrs sig)).bind ActionCall.nact).getD .default

/-- A call that fails leaves the table as it was, and a query returns the action of
the last successful update. -/
structure ActionsRight (calls : List ActionCall) : Prop where
  failing : ∀ before call after, calls = before ++ call :: after →
    (call.result addrs (actionsAfter addrs before)).ret < 0 →
      (call.result addrs (actionsAfter addrs before)).table = actionsAfter addrs before
  query : ∀ before after, calls = before ++ after → ∀ sig hostRet, 0 < sig ∧ sig ≤ 64 →
    (signalSigaction addrs hostRet (actionsAfter addrs before) sig none true).old =
      some (lastUpdate addrs before sig)

/-- Whenever the kernel refuses an action, it is the one that is already in the table. -/
def RefusesNothingNew (calls : List ActionCall) : Prop :=
  ∀ before (call : ActionCall) after, calls = before ++ call :: after →
    ∀ nact, call.nact = some nact → 0 < call.sig ∧ call.sig ≤ 64 →
      call.sig ≠ SIGSEGV ∧ call.sig ≠ SIGBUS → call.hostRet < 0 →
        actionsAfter addrs before (actIndex call.sig) = nact

/-! ## What a call does -/

variable {addrs} {hostRet sig : ℤ} {table : ActionTable} {oact : Bool}

theorem signalSigaction_query (hsig : 0 < sig ∧ sig ≤ 64) :
    signalSigaction addrs hostRet table sig none oact =
      ⟨0, table, if oact then some (table (actIndex sig)) else none, none⟩ := by
  rw [signalSigaction, if_neg (by omega)]

/-- The table changes for an update of a valid signal only. -/
theorem table_eq (call : ActionCall) (table : ActionTable) :
    (call.result addrs table).table =
      match call.nact with
      | some nact =>
          if 0 < call.sig ∧ call.sig ≤ 64 then Function.update table (actIndex call.sig) nact
          else table
      | none => table := by
  rw [ActionCall.result, signalSigaction]
  by_cases hsig : 0 < call.sig ∧ call.sig ≤ 64
  · rw [if_neg (by omega)]
    cases call.nact with
    | none => rfl
    | some nact =>
        dsimp only
        rw [if_pos hsig]
        split
        · rfl
        · rfl
  · rw [if_pos (by omega)]
    cases call.nact with
    | none => rfl
    | some nact =>
        dsimp only
        rw [if_neg hsig]

/-- An update of a valid signal fails exactly if the kernel is asked and refuses. -/
theorem ret_neg_iff {call : ActionCall} {nact : SigAction} (hnact : call.nact = some nact)
    (hsig : 0 < call.sig ∧ call.sig ≤ 64) :
    (call.result addrs table).ret < 0 ↔
      (call.sig ≠ SIGSEGV ∧ call.sig ≠ SIGBUS) ∧ call.hostRet < 0 := by
  rw [ActionCall.result, signalSigaction, if_neg (by omega), hnact]
  dsimp only
  split
  · rename_i hsync
    simp only [lt_self_iff_false, false_iff]
    tauto
  · rename_i hsync
    dsimp only
    tauto

theorem actionsAfter_append (calls : List ActionCall) (call : ActionCall) :
    actionsAfter addrs (calls ++ [call]) =
      (call.result addrs (actionsAfter addrs calls)).table := by
  simp [actionsAfter, List.foldl_append]

theorem actIndex_inj {sig' : ℤ} (hsig : 0 < sig ∧ sig ≤ 64) (hsig' : 0 < sig' ∧ sig' ≤ 64)
    (h : actIndex sig = actIndex sig') : sig = sig' := by
  rw [actIndex, actIndex] at h
  omega

/-- What is in the table after one more call, in terms of the result of the call. -/
theorem lastUpdate_append (calls : List ActionCall) (call : ActionCall) (sig : ℤ) :
    lastUpdate addrs (calls ++ [call]) sig =
      if call.updates addrs sig then call.nact.getD .default else lastUpdate addrs calls sig := by
  rw [lastUpdate, List.reverse_append, List.reverse_singleton, List.singleton_append,
    List.find?_cons]
  cases hupd : call.updates addrs sig with
  | true => simp
  | false => simp [lastUpdate]

/-- The table holds the last successful updates. -/
theorem table_eq_lastUpdate {calls : List ActionCall} (hok : RefusesNothingNew addrs calls)
    (hsig : 0 < sig ∧ sig ≤ 64) :
    actionsAfter addrs calls (actIndex sig) = lastUpdate addrs calls sig := by
  induction calls using List.reverseRecOn with
  | nil => rfl
  | append_singleton calls call ih =>
      have ih := ih fun before c after hcalls => hok before c (after ++ [call]) (by
        rw [hcalls, List.append_assoc, List.cons_append])
      rw [actionsAfter_append, lastUpdate_append, table_eq]
      cases hnact : call.nact with
      | none =>
          have hupd : call.updates addrs sig = false := by simp [ActionCall.updates, hnact]
          rw [hupd, if_neg Bool.false_ne_true]
          exact ih
      | some nact =>
          dsimp only
          by_cases hsame : call.sig = sig
          · have hvalid : 0 < call.sig ∧ call.sig ≤ 64 := by rwa [hsame]
            rw [if_pos hvalid, hsame, Function.update_self]
            by_cases hneg : (call.result addrs actionsInit).ret < 0
            · have hupd : call.updates addrs sig = false := by
                simp [ActionCall.updates, hneg]
              obtain ⟨hasync, hrefused⟩ := (ret_neg_iff hnact hvalid).mp hneg
              have hold := hok calls call [] rfl nact hnact hvalid hasync hrefused
              rw [hupd, if_neg Bool.false_ne_true, ← ih, ← hsame]
              exact hold.symm
            · have hupd : call.updates addrs sig = true := by
                simp [ActionCall.updates, hnact, hsame, not_lt.mp hneg]
              rw [hupd, if_pos rfl]
              rfl
          · have hupd : call.updates addrs sig = false := by
              simp [ActionCall.updates, hsame]
            rw [hupd, if_neg Bool.false_ne_true, ← ih]
            split
            · rename_i hvalid
              refine Function.update_of_ne ?_ _ _
              exact fun h => hsame (actIndex_inj hsig hvalid h).symm
            · rfl

end Runs

/-- A failing call changes nothing exactly if the kernel never refuses an action that
is not already in the table. -/
theorem failing_sigaction_changes_nothing_iff (addrs : HandlerAddrs) (calls : List ActionCall) :
    ActionsRight addrs calls ↔ RefusesNothingNew addrs calls := by
  constructor
  · intro h before call after hcalls nact hnact hvalid hasync hrefused
    have hneg : (call.result addrs (actionsAfter addrs before)).ret < 0 :=
      (ret_neg_iff hnact hvalid).mpr ⟨hasync, hrefused⟩
    have hkeep := h.failing before call after hcalls hneg
    rw [table_eq, hnact] at hkeep
    dsimp only at hkeep
    rw [if_pos hvalid] at hkeep
    rw [← hkeep, Function.update_self]
  · intro hok
    constructor
    · intro before call after hcalls hneg
      rw [table_eq]
      cases hnact : call.nact with
      | none => rfl
      | some nact =>
          dsimp only
          split
          · rename_i hvalid
            obtain ⟨hasync, hrefused⟩ := (ret_neg_iff hnact hvalid).mp hneg
            rw [← hok before call after hcalls nact hnact hvalid hasync hrefused]
            exact Function.update_eq_self _ _
          · rfl
    · intro before after hcalls sig hostRet hsig
      have hok' : RefusesNothingNew addrs before := by
        intro before' call after' hbefore
        refine hok before' call (after' ++ after) ?_
        rw [hcalls, hbefore, List.append_assoc, List.cons_append]
      rw [signalSigaction_query hsig, if_pos rfl, table_eq_lastUpdate hok' hsig]

/-- Ignoring `SIGKILL`. -/
def ignoreKill : ActionCall where
  sig := 9
  nact := some ⟨SIGIGN, 0, 0, 0⟩
  oact := false
  hostRet := -EINVAL
  rejects := by decide

/-- The call fails, and a query returns the action it has left behind. -/
theorem failing_sigaction_changes_table :
    (ignoreKill.result ⟨0x1000, 0x2000⟩ actionsInit).ret = -EINVAL ∧
    (signalSigaction ⟨0x1000, 0x2000⟩ 0 (actionsAfter ⟨0x1000, 0x2000⟩ [ignoreKill]) 9 none
      true).old = some ⟨SIGIGN, 0, 0, 0⟩ ∧
    lastUpdate ⟨0x1000, 0x2000⟩ [ignoreKill] 9 = .default := by
  decide

/-! ## The signal machine -/

/-- The kind of handler, which is all the machine keeps of an action. -/
def SigAction.kind (act : SigAction) : SigHandler :=
  if act.saHandler = SIGDFL then .dfl else if act.saHandler = SIGIGN then .ign else .func

/-- The machine and the table agree. -/
def SameKinds (s : SigState) (table : ActionTable) : Prop :=
  ∀ sig : ℤ, 0 < sig ∧ sig ≤ 64 → s.sigact sig.toNat = (table (actIndex sig)).kind

theorem SameKinds.update {s : SigState} {table : ActionTable} (h : SameKinds s table) {sig : ℤ}
    (hsig : 0 < sig ∧ sig ≤ 64) (nact : SigAction) {s' : SigState}
    (hs' : s'.sigact = Function.update s.sigact sig.toNat nact.kind) :
    SameKinds s' (Function.update table (actIndex sig) nact) := by
  intro other hother
  by_cases hsame : other = sig
  · rw [hs', hsame, Function.update_self, Function.update_self]
  · have hindex : actIndex other ≠ actIndex sig :=
      fun heq => hsame (actIndex_inj hother hsig heq)
    rw [hs', Function.update_of_ne (by omega), Function.update_of_ne hindex]
    exact h other hother

end PollyInstrew.Emulate
