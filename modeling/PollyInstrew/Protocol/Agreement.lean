import PollyInstrew.Protocol.ToClient

/-!
# Client and server stay in step

Every run of a session keeps the framing, whatever the sizes of the reads and
writes and in whatever order the two processes run.
-/

namespace PollyInstrew.Protocol

variable {σ' : Session} {κ : Kind} {got rest str : List Byte} {size count : ℕ} {ρ : Reply}
  {tsc : IWServerConfig} {iwcc : IWClientConfig}

open PollyInstrew.ByteMemory
open PollyInstrew.Shared
open PollyInstrew.Transition

/-! ## Steps -/

theorem step_cases {σ : Session} {e : Event} (hfits : e.Fits) (h : step σ e = some σ') :
    ClientStep σ σ' ∨ ServerStep σ σ' := by
  rw [step] at h
  cases hclient : clientStep σ e with
  | some σ'' =>
      rw [hclient] at h
      exact Or.inl (clientStep_cases (hclient.trans h))
  | none =>
      rw [hclient] at h
      exact Or.inr (serverStep_cases h hfits)

theorem Over.not_step {σ : Session} (h : Over σ) (hstep : ClientStep σ σ' ∨ ServerStep σ σ') :
    False := by
  have hclient := h.client
  have hserver := h.server
  obtain hstep | hstep := hstep
  · cases hstep with
    | _ hpc => exact absurd (hclient.symm.trans hpc) nofun
  · cases hstep with
    | spill hout hn =>
        rw [h.out] at hout
        rw [(List.append_eq_nil_iff.mp hout.symm).1] at hn
        cases hn
    | _ hpc => exact absurd (hserver.symm.trans hpc) nofun

theorem framed_step {σ : Session} {e : Event} (h : Framed σ) (hfits : e.Fits)
    (hstep : step σ e = some σ') : Framed σ' := by
  have hcases := step_cases hfits hstep
  cases h with
  | toServer h => exact hcases.elim h.of_clientStep h.of_serverStep
  | toClient h => exact hcases.elim h.of_clientStep h.of_serverStep
  | ended h => exact absurd hcases h.not_step

/-! ## Which headers are read -/

/-- The ids the server accepts in the header it reads. -/
def ServerPc.Accepts : ServerPc → BitVec 32 → Prop
  | .read _ _ .initHdr, id => id = MsgId.cInit.code
  | .read _ _ .runHdr, id => id = MsgId.cTranslate.code ∨ id = MsgId.cExit.code
  | .read _ _ (.pageHdr _ _), id => id = MsgId.cMembuf.code
  | _, _ => False

/-- The ids the client accepts in the header it reads. -/
def ClientPc.Accepts : ClientPc → BitVec 32 → Prop
  | .readFull _ _ (.hdr .configFetch), id => id = MsgId.sInit.code
  | .readFull _ _ (.hdr .getObject), id => id = MsgId.sObject.code
  | .readFull _ _ (.hdr .getLoop), id => id = MsgId.sMemreq.code ∨ id = MsgId.sObject.code
  | _, _ => False

/-- A log either has no new header or one that is accepted. -/
def Log.Accepts (accepts : BitVec 32 → Prop) (l l' : Log) : Prop :=
  l'.hdrs = l.hdrs ∨ ∃ p hdr, l'.hdrs = l.hdrs ++ [(p, hdr)] ∧ accepts hdr.id

section Headers

variable (t : Client) (s : Server)

@[simp] theorem Client.hdrSend_recd (id : MsgId) (sz : ℕ) (next : WriteThen) :
    (t.hdrSend id sz next).recd = t.recd := by
  unfold Client.hdrSend
  split <;> rfl

@[simp] theorem Client.hdrTake_recd (id : MsgId) : (t.hdrTake id).2.recd = t.recd := by
  unfold Client.hdrTake
  split <;> rfl

@[simp] theorem Client.getObject_recd : t.getObject.recd = t.recd := by
  have htake := t.hdrTake_recd .sObject
  unfold Client.getObject
  dsimp only
  split
  · exact htake
  · split <;> exact htake

@[simp] theorem Client.hdrDone_recd (use : HdrUse) : (t.hdrDone use).recd = t.recd := by
  cases use with
  | configFetch =>
      have htake := t.hdrTake_recd .sInit
      unfold Client.hdrDone
      dsimp only
      split
      · exact htake
      · split <;> exact htake
  | getObject => exact t.getObject_recd
  | getLoop =>
      have htake := t.hdrTake_recd .sMemreq
      unfold Client.hdrDone
      dsimp only
      split
      · split
        · exact htake
        · exact (Client.getObject_recd _).trans htake
      · split
        · exact htake
        · split <;> exact htake

@[simp] theorem Client.hdrRecv_recd (use : HdrUse) : (t.hdrRecv use).recd = t.recd := by
  unfold Client.hdrRecv
  split
  · rfl
  · exact t.hdrDone_recd use

theorem Client.writeDone_recd (next : WriteThen) : (t.writeDone next).recd = t.recd := by
  cases next <;> simp [Client.writeDone]

theorem Client.readDone_recd (bytes : List Byte) (next : ReadThen) :
    (t.readDone bytes next).recd = match next with
      | .hdr _ => t.recd.last (Hdr.parse bytes)
      | _ => t.recd := by
  cases next <;> simp [Client.readDone, Client.memRequest, Client.objectDone]

@[simp] theorem Server.connRead_recd (n : ℕ) (next : RecvThen) :
    (s.connRead n next).recd = s.recd := by
  unfold Server.connRead
  split <;> rfl

@[simp] theorem Server.recvMsg_recd (next : RecvThen) : (s.recvMsg next).recd = s.recd := by
  unfold Server.recvMsg
  split <;> rfl

@[simp] theorem Server.runMsg_recd (id : BitVec 32) : (s.runMsg id).recd = s.recd := by
  unfold Server.runMsg
  split
  · rfl
  · split
    · exact s.connRead_recd 8 .addr
    · rfl

@[simp] theorem Server.objectHdr_recd (request : Option Word) (data : List Byte) :
    (s.objectHdr request data).recd = s.recd := by
  unfold Server.objectHdr
  split <;> rfl

theorem Server.sendObject_recd (request : Option Word) (data : List Byte) :
    (s.sendObject request data).recd = s.recd := by
  unfold Server.sendObject
  split
  · rfl
  · exact s.objectHdr_recd request data

theorem Server.cacheHit_recd (addr : Word) (data : List Byte) :
    (s.cacheHit addr data).recd = s.recd := by
  unfold Server.cacheHit
  split <;> rfl

theorem Server.getPage_recd (addr page : Word) : (s.getPage addr page).recd = s.recd := by
  unfold Server.getPage
  split <;> rfl

theorem Server.flushDone_recd (next : FlushThen) : (s.flushDone next).recd = s.recd := by
  cases next with
  | sendfile data =>
      rw [Server.flushDone]
      split
      · exact s.recvMsg_recd .runHdr
      · rfl
  | _ => simp [Server.flushDone]

theorem Server.readEof_recd (next : RecvThen) : (s.readEof next).recd = s.recd := by
  cases next <;> simp [Server.readEof]

theorem Server.readDone_recd (bytes : List Byte) (next : RecvThen) :
    (s.readDone bytes next).recd = match next with
      | .initHdr => s.recd.last (Hdr.parse bytes)
      | .runHdr => s.recd.last (Hdr.parse bytes)
      | .pageHdr _ _ => s.recd.last (Hdr.parse bytes)
      | _ => s.recd := by
  cases next with
  | initHdr =>
      unfold Server.readDone
      dsimp only
      split
      · rfl
      · exact Server.connRead_recd _ _ _
  | runHdr => exact Server.runMsg_recd _ _
  | pageHdr addr page =>
      unfold Server.readDone
      dsimp only
      split
      · rfl
      · exact Server.connRead_recd _ _ _
  | pageData addr page => exact Server.connRead_recd _ _ _
  | _ => rfl

end Headers

/-- A log that only counts on has no new header. -/
theorem Log.Accepts.of_eq {accepts : BitVec 32 → Prop} {l l' : Log} (h : l'.hdrs = l.hdrs) :
    Log.Accepts accepts l l' :=
  Or.inl h

theorem ToServer.accepts {σ : Session} (h : ToServer κ σ) {bytes : List Byte} {next : RecvThen}
    (hpc : σ.server.pc = .read got size next) (hc2s : σ.c2s = bytes ++ rest) (hn : 0 < bytes.length)
    (hall : (got ++ bytes).length = size) {s : Server}
    (hs : s.recd = σ.server.recd.add bytes.length) :
    Log.Accepts σ.server.pc.Accepts σ.server.recd (s.readDone (got ++ bytes) next).recd := by
  obtain ⟨str, hstr⟩ := h.sends
  obtain ⟨unread, e, hwants, -⟩ := h.wants
  have hwant := hwants str hstr
  rw [hpc, hc2s] at hwant
  rw [hpc, Server.readDone_recd]
  cases next with
  | initHdr =>
      obtain ⟨rfl, -, -, -, heq⟩ := hwant.of_initHdr
      obtain ⟨hbytes, -⟩ := append_split (by rw [hall, Hdr.length_bytes]) heq
      rw [hs, hbytes, Hdr.parse_bytes]
      exact Or.inr ⟨_, _, rfl, rfl⟩
  | runHdr =>
      obtain ⟨rfl, -, addr, -, -, heq⟩ :=
        hwant.of_runHdr (by simp [List.ne_nil_of_length_pos hn])
      obtain ⟨hbytes, -⟩ := append_split (by rw [hall, Hdr.length_bytes]) heq
      rw [hs, hbytes, Hdr.parse_bytes]
      exact Or.inr ⟨_, _, rfl, Or.inl rfl⟩
  | pageHdr addr page =>
      obtain ⟨rfl, -, -, -, content, -, heq⟩ := hwant.of_pageHdr
      obtain ⟨hbytes, -⟩ := append_split (by rw [hall, Hdr.length_bytes]) heq
      rw [hs, hbytes, Hdr.parse_bytes]
      exact Or.inr ⟨_, _, rfl, rfl⟩
  | _ =>
      rw [hs]
      exact .of_eq rfl

theorem ToClient.accepts {σ : Session} (h : ToClient ρ σ) {bytes : List Byte} {next : ReadThen}
    (hpc : σ.client.pc = .readFull got size next) (hs2c : σ.s2c = bytes ++ rest)
    (hn : 0 < bytes.length) (hall : (got ++ bytes).length = size) {t : Client}
    (ht : t.recd = σ.client.recd.add bytes.length) :
    Log.Accepts σ.client.pc.Accepts σ.client.recd (t.readDone (got ++ bytes) next).recd := by
  obtain ⟨str, later, laterObj, unread, e, hsends, hwants, -⟩ := h.sends
  rw [hpc, hs2c] at hwants
  have hne : bytes ++ rest ++ str ≠ [] := by
    simp [List.ne_nil_of_length_pos hn]
  rw [hpc, Client.readDone_recd]
  cases next with
  | hdr use =>
      cases use with
      | configFetch =>
          obtain ⟨rfl, -, data, -, -, heq⟩ := hwants.of_configFetch hne
          obtain ⟨hbytes, -⟩ := append_split (by rw [hall, Hdr.length_bytes]) heq
          rw [ht, hbytes, Hdr.parse_bytes]
          exact Or.inr ⟨_, _, rfl, rfl⟩
      | getObject =>
          obtain ⟨rfl, -, data, -, -, heq⟩ := hwants.of_getObject
          obtain ⟨hbytes, -⟩ := append_split (by rw [hall, Hdr.length_bytes]) heq
          rw [ht, hbytes, Hdr.parse_bytes]
          exact Or.inr ⟨_, _, rfl, rfl⟩
      | getLoop =>
          obtain ⟨rfl, -, ⟨addr, page, -, -, heq⟩ | ⟨addr, data, -, -, heq⟩⟩ :=
            hwants.of_getLoop hne
          · obtain ⟨hbytes, -⟩ := append_split (by rw [hall, Hdr.length_bytes]) heq
            rw [ht, hbytes, Hdr.parse_bytes]
            exact Or.inr ⟨_, _, rfl, Or.inl rfl⟩
          · obtain ⟨hbytes, -⟩ := append_split (by rw [hall, Hdr.length_bytes]) heq
            rw [ht, hbytes, Hdr.parse_bytes]
            exact Or.inr ⟨_, _, rfl, Or.inr rfl⟩
  | _ =>
      rw [ht]
      exact .of_eq rfl

/-- Every header that a step reads has an id the reader accepts. -/
theorem Framed.accepts {σ : Session} {e : Event} (h : Framed σ) (hfits : e.Fits)
    (hstep : step σ e = some σ') :
    Log.Accepts σ.server.pc.Accepts σ.server.recd σ'.server.recd ∧
      Log.Accepts σ.client.pc.Accepts σ.client.recd σ'.client.recd := by
  have hempty : ∀ {bytes rest : List Byte}, [] = bytes ++ rest → ¬ 0 < bytes.length := by
    intro bytes rest heq hn
    rw [(List.append_eq_nil_iff.mp heq.symm).1] at hn
    cases hn
  obtain hstep | hstep := step_cases hfits hstep
  · cases hstep with
    | wroteAll => exact ⟨.of_eq rfl, .of_eq (by rw [Client.writeDone_recd])⟩
    | readAll hpc hs2c hn hall =>
        refine ⟨.of_eq rfl, ?_⟩
        cases h with
        | toServer h => exact absurd hn (hempty (h.s2c.symm.trans hs2c))
        | toClient h => exact h.accepts hpc hs2c hn hall rfl
        | ended h => exact absurd (h.client.symm.trans hpc) (by simp)
    | request => exact ⟨.of_eq rfl, .of_eq (by rw [Client.get, Client.hdrSend_recd])⟩
    | _ => exact ⟨.of_eq rfl, .of_eq rfl⟩
  · cases hstep with
    | readAll hpc hc2s hn hall =>
        refine ⟨?_, .of_eq rfl⟩
        cases h with
        | toServer h => exact h.accepts hpc hc2s hn hall rfl
        | toClient h => exact absurd hn (hempty (h.c2s.symm.trans hc2s))
        | ended h => exact absurd (h.server.symm.trans hpc) (by simp)
    | eof => exact ⟨.of_eq (by rw [Server.readEof_recd]), .of_eq rfl⟩
    | flushed => exact ⟨.of_eq (by rw [Server.flushDone_recd]), .of_eq rfl⟩
    | sendfileAll => exact ⟨.of_eq (by rw [Server.recvMsg_recd]), .of_eq rfl⟩
    | initObject => exact ⟨.of_eq (by rw [Server.sendObject_recd]), .of_eq rfl⟩
    | getPage => exact ⟨.of_eq (by rw [Server.getPage_recd]), .of_eq rfl⟩
    | object => exact ⟨.of_eq (by rw [Server.sendObject_recd]), .of_eq rfl⟩
    | cached => exact ⟨.of_eq (by rw [Server.cacheHit_recd]), .of_eq rfl⟩
    | _ => exact ⟨.of_eq rfl, .of_eq rfl⟩

/-! ## The session never gets stuck -/

theorem ClientSends.active {pc : ClientPc} (h : ClientSends tsc pc κ str) :
    (∃ rest next, pc = .writeFull rest next ∧ rest ≠ []) ∨ (∃ left, pc = .pad left) ∨
      (∃ page, pc = .page page 0x1000) ∨ pc = .running ∨ pc = .exited ∨
      str = [] ∧ κ ≠ .none := by
  cases h with
  | initHdr hrest => exact Or.inl ⟨_, _, rfl, hrest⟩
  | initTsc hrest => exact Or.inl ⟨_, _, rfl, hrest⟩
  | getHdr hrest => exact Or.inl ⟨_, _, rfl, hrest⟩
  | getAddr hrest => exact Or.inl ⟨_, _, rfl, hrest⟩
  | memHdr hrest => exact Or.inl ⟨_, _, rfl, hrest⟩
  | memPage hrest => exact Or.inl ⟨_, _, rfl, hrest⟩
  | memFailed hrest => exact Or.inl ⟨_, _, rfl, hrest⟩
  | pad => exact Or.inr (Or.inl ⟨_, rfl⟩)
  | page => exact Or.inr (Or.inr (Or.inl ⟨_, rfl⟩))
  | running => exact Or.inr (Or.inr (Or.inr (Or.inl rfl)))
  | exited => exact Or.inr (Or.inr (Or.inr (Or.inr (Or.inl rfl))))
  | _ => exact Or.inr (Or.inr (Or.inr (Or.inr (Or.inr ⟨rfl, nofun⟩))))

/-- More is expected than has been read. -/
theorem ne_nil_of_append {all : List Byte} (h : got ++ str = all) (hlt : got.length < all.length) :
    str ≠ [] := by
  rintro rfl
  rw [← h, List.append_nil] at hlt
  exact Nat.lt_irrefl _ hlt

/-- The server has not read the end of a message. -/
theorem ServerWants.unread_pos {pc : ServerPc} {sz : BitVec 32} {e : ℕ} {unread : List (ℕ × Hdr)}
    (h : ServerWants tsc pc sz count κ str unread e) (hκ : κ ≠ .none) :
    str ≠ [] ∧ ∃ got size next, pc = .read got size next ∧ got.length < size := by
  cases h with
  | initHdr hgot hstr =>
      exact ⟨ne_nil_of_append hstr (by simp; omega), _, _, _, rfl, hgot⟩
  | initConf hgot hstr =>
      exact ⟨ne_nil_of_append hstr (by simpa using hgot), _, _, _, rfl, hgot⟩
  | runHdr hgot hstr =>
      exact ⟨ne_nil_of_append hstr (by simp; omega), _, _, _, rfl, hgot⟩
  | addr hgot hstr =>
      exact ⟨ne_nil_of_append hstr (by simpa using hgot), _, _, _, rfl, hgot⟩
  | pageHdr hgot hlen hstr =>
      exact ⟨ne_nil_of_append hstr (by simp; omega), _, _, _, rfl, hgot⟩
  | pageData hgot hstr =>
      refine ⟨?_, _, _, _, rfl, hgot⟩
      rintro rfl
      simp only [List.length_nil] at hstr
      omega
  | pageFailed hstr =>
      exact ⟨List.ne_nil_of_length_pos (by omega), _, _, _, rfl, Nat.zero_lt_one⟩
  | idle => exact absurd rfl hκ

/-- An event that one of the two processes can take. -/
def Enabled (σ : Session) (e : Event) : Prop :=
  (clientStep σ e).isSome ∨ (serverStep σ e).isSome

theorem Enabled.step {σ : Session} {e : Event} (h : Enabled σ e) :
    ∃ σ', Protocol.step σ e = some σ' := by
  rw [Protocol.step]
  cases hclient : clientStep σ e with
  | some σ' => exact ⟨σ', rfl⟩
  | none =>
      obtain h | h := h
      · rw [hclient] at h
        cases h
      · exact Option.isSome_iff_exists.mp h

section Enabled

variable {σ : Session}

theorem enabled_clientWrote {next : WriteThen} (hpc : σ.client.pc = .writeFull rest next)
    (hrest : rest ≠ []) :
    Enabled σ (.clientWrote 1) := by
  left
  unfold clientStep
  dsimp only
  rw [hpc]
  dsimp only
  rw [if_pos ⟨Nat.zero_lt_one, List.length_pos_iff.mpr hrest⟩]
  rfl

theorem enabled_pad {left : ℕ} (hpc : σ.client.pc = .pad left) :
    Enabled σ (.clientWrote 1) := by
  left
  unfold clientStep
  dsimp only
  rw [hpc]
  rfl

theorem enabled_mem {page : Word} (hpc : σ.client.pc = .page page 0x1000) :
    Enabled σ (.mem none) := by
  left
  unfold clientStep
  dsimp only
  rw [hpc]
  rfl

theorem enabled_exit (hpc : σ.client.pc = .running) : Enabled σ .exit := by
  left
  unfold clientStep
  dsimp only
  rw [hpc]
  rfl

theorem enabled_clientRead {next : ReadThen} (hpc : σ.client.pc = .readFull got size next)
    (hs2c : σ.s2c ≠ []) (hgot : got.length < size) :
    Enabled σ (.clientRead 1) := by
  left
  unfold clientStep
  dsimp only
  rw [hpc]
  dsimp only
  rw [if_pos ⟨Nat.zero_lt_one, List.length_pos_iff.mpr hs2c, hgot⟩]
  rfl

theorem enabled_serverRead {next : RecvThen} (hpc : σ.server.pc = .read got size next)
    (hc2s : σ.c2s ≠ []) (hgot : got.length < size) :
    Enabled σ (.serverRead 1) := by
  right
  unfold serverStep
  dsimp only
  rw [hpc]
  dsimp only
  rw [if_pos ⟨Nat.zero_lt_one, List.length_pos_iff.mpr hc2s, hgot⟩]
  rfl

theorem enabled_serverEof {next : RecvThen} (hpc : σ.server.pc = .read got size next)
    (hclosed : σ.closed = true) (hc2s : σ.c2s = []) :
    Enabled σ .serverEof := by
  right
  unfold serverStep
  dsimp only
  rw [hpc]
  dsimp only
  rw [if_pos ⟨hclosed, hc2s⟩]
  rfl

theorem enabled_spill (hout : σ.server.out ≠ []) : Enabled σ (.spill 1) := by
  right
  unfold serverStep
  dsimp only
  rw [if_pos ⟨Nat.zero_lt_one, List.length_pos_iff.mpr hout⟩]
  rfl

theorem enabled_sendfile (hpc : σ.server.pc = .sendfile rest) (hrest : rest ≠ []) :
    Enabled σ (.sendfile 1) := by
  right
  unfold serverStep
  dsimp only
  rw [hpc]
  dsimp only
  rw [if_pos ⟨Nat.zero_lt_one, List.length_pos_iff.mpr hrest⟩]
  rfl

theorem enabled_initObject (hpc : σ.server.pc = .init) : Enabled σ (.initObject []) := by
  right
  unfold serverStep
  dsimp only
  rw [hpc]
  rfl

theorem enabled_object {addr : Word} (hpc : σ.server.pc = .translating addr) :
    Enabled σ (.object []) := by
  right
  unfold serverStep
  dsimp only
  rw [hpc]
  rfl

end Enabled

theorem ToServer.progress {σ : Session} (h : ToServer κ σ) :
    ∃ e, Enabled σ e ∧ e.Fits := by
  obtain ⟨str, hstr⟩ := h.sends
  obtain ⟨rest, next, hpc, hrest⟩ | ⟨left, hpc⟩ | ⟨page, hpc⟩ | hpc | hpc | ⟨rfl, hκ⟩ :=
    hstr.active
  · exact ⟨_, enabled_clientWrote hpc hrest, trivial⟩
  · exact ⟨_, enabled_pad hpc, trivial⟩
  · exact ⟨_, enabled_mem hpc, trivial⟩
  · exact ⟨_, enabled_exit hpc, trivial⟩
  · have hclosed := h.closed.mpr hpc
    rw [hpc] at hstr
    obtain rfl : κ = .none := by
      cases hstr
      rfl
    obtain ⟨hc2s, hserver, -⟩ := h.idle
    exact ⟨_, enabled_serverEof hserver hclosed hc2s, trivial⟩
  · obtain ⟨unread, e, hwants, -⟩ := h.wants
    have hwant := hwants [] hstr
    rw [List.append_nil] at hwant
    obtain ⟨hc2s, got, size, next, hserver, hgot⟩ := hwant.unread_pos hκ
    exact ⟨_, enabled_serverRead hserver hc2s hgot, trivial⟩

theorem ServerSends.active {pc : ServerPc} {out : List Byte} {later : List (ℕ × Hdr)}
    {laterObj : List (Option Word × List Byte)}
    (h : ServerSends iwcc pc out count ρ str later laterObj) :
    out ≠ [] ∨ (∃ rest, pc = .sendfile rest ∧ rest ≠ []) ∨ pc = .init ∨
      (∃ addr, pc = .translating addr) ∨
      str = [] ∧ (∀ addr, ρ ≠ .think addr) ∧ ρ ≠ .thinkInit := by
  cases h with
  | thinkInit => exact Or.inr (Or.inr (Or.inl rfl))
  | think => exact Or.inr (Or.inr (Or.inr (Or.inl ⟨_, rfl⟩)))
  | startInit hout => exact Or.inl hout
  | startObject hout => exact Or.inl hout
  | memreq hout => exact Or.inl hout
  | object hout => exact Or.inl hout
  | cached hout => exact Or.inl hout
  | sendfile hrest => exact Or.inr (Or.inl ⟨_, rfl, hrest⟩)
  | _ => exact Or.inr (Or.inr (Or.inr (Or.inr ⟨rfl, nofun, nofun⟩)))

/-- The client has not read the end of a reply. -/
theorem ClientWants.unread_pos {pc : ClientPc} {e : ℕ} {unread : List (ℕ × Hdr)}
    (h : ClientWants iwcc pc count ρ str unread e) (hthink : ∀ addr, ρ ≠ .think addr)
    (hinit : ρ ≠ .thinkInit) :
    str ≠ [] ∧ ∃ got size next, pc = .readFull got size next ∧ got.length < size := by
  cases h with
  | thinkInit => exact absurd rfl hinit
  | think => exact absurd rfl (hthink _)
  | startHdr hgot hstr =>
      exact ⟨ne_nil_of_append hstr (by simp; omega), _, _, _, rfl, hgot⟩
  | startConf hgot hstr =>
      exact ⟨ne_nil_of_append hstr (by simp; omega), _, _, _, rfl, hgot⟩
  | startObjHdr hgot hstr =>
      exact ⟨ne_nil_of_append hstr (by simp; omega), _, _, _, rfl, hgot⟩
  | startObj hgot hstr => exact ⟨ne_nil_of_append hstr hgot, _, _, _, rfl, hgot⟩
  | memHdr hgot hstr =>
      exact ⟨ne_nil_of_append hstr (by simp; omega), _, _, _, rfl, hgot⟩
  | memrq hgot hstr =>
      exact ⟨ne_nil_of_append hstr (by simpa [memreqBytes] using hgot), _, _, _, rfl, hgot⟩
  | objHdr hgot hstr =>
      exact ⟨ne_nil_of_append hstr (by simp; omega), _, _, _, rfl, hgot⟩
  | obj hgot hstr => exact ⟨ne_nil_of_append hstr hgot, _, _, _, rfl, hgot⟩

theorem ToClient.progress {σ : Session} (h : ToClient ρ σ) :
    ∃ e, Enabled σ e ∧ e.Fits := by
  obtain ⟨str, later, laterObj, unread, e, hsends, hwants, -⟩ := h.sends
  obtain hout | ⟨rest, hpc, hrest⟩ | hpc | ⟨addr, hpc⟩ | ⟨rfl, hthink, hinit⟩ := hsends.active
  · exact ⟨_, enabled_spill hout, trivial⟩
  · exact ⟨_, enabled_sendfile hpc hrest, trivial⟩
  · exact ⟨_, enabled_initObject hpc, Nat.zero_le _⟩
  · exact ⟨_, enabled_object hpc, Nat.zero_le _⟩
  · rw [List.append_nil] at hwants
    obtain ⟨hs2c, got, size, next, hpc, hgot⟩ := hwants.unread_pos hthink hinit
    exact ⟨_, enabled_clientRead hpc hs2c hgot, trivial⟩

/-! ## Agreement -/

/-- Client and server agree on the framing. -/
structure InStep (σ : Session) : Prop where
  serverHdrs : σ.server.recd.hdrs <+: σ.client.sent.hdrs
  clientHdrs : σ.client.recd.hdrs <+: σ.server.sent.hdrs
  serverSpaced : ∃ e, Spaced 0 σ.server.recd.hdrs e
  clientSpaced : ∃ e, Spaced 0 σ.client.recd.hdrs e
  accepts : ∀ e σ', e.Fits → step σ e = some σ' →
    Log.Accepts σ.server.pc.Accepts σ.server.recd σ'.server.recd ∧
      Log.Accepts σ.client.pc.Accepts σ.client.recd σ'.client.recd
  clientOk : ∀ ret, σ.client.pc ≠ .failed ret
  serverOk : ∀ why, σ.server.pc ≠ .aborted why
  serverReturns : ∀ code, σ.server.pc = .returned code → code = 0 ∧ σ.client.pc = .exited
  results : σ.client.results <+: σ.server.objects
  progress : (σ.client.pc = .exited ∧ σ.server.pc = .returned 0) ∨
    ∃ e σ', e.Fits ∧ step σ e = some σ'

/-- What the server has not started to send, the client has not read. -/
theorem ServerSends.later_le {spc : ServerPc} {cpc : ClientPc} {out s2c : List Byte}
    {scount ccount e : ℕ} {later unread : List (ℕ × Hdr)}
    {laterObj : List (Option Word × List Byte)}
    (hsends : ServerSends iwcc spc out scount ρ str later laterObj)
    (hwants : ClientWants iwcc cpc ccount ρ (s2c ++ str) unread e) :
    later.length ≤ unread.length ∧ laterObj.length ≤ ρ.objects.length := by
  cases hsends with
  | startInit =>
      refine ⟨?_, Nat.le_refl _⟩
      generalize hall : s2c ++ _ = all at hwants
      cases hwants with
      | startHdr => exact Nat.le_succ 1
      | startConf => exact Nat.le_refl _
      | startObjHdr => exact Nat.le_refl _
      | startObj hgot hstr =>
          have hlen := congrArg List.length hstr
          rw [← hall] at hlen
          simp only [List.length_append, Hdr.length_bytes] at hlen
          omega
  | _ => exact ⟨Nat.zero_le _, Nat.zero_le _⟩

theorem prefix_of_append_eq {α : Type*} {sent later recd unread : List α}
    (h : sent ++ later = recd ++ unread) (hle : later.length ≤ unread.length) : recd <+: sent := by
  have hrecd : recd <+: sent ++ later := by
    rw [h]
    exact List.prefix_append _ _
  have hlen := congrArg List.length h
  simp only [List.length_append] at hlen
  exact List.prefix_of_prefix_length_le hrecd (List.prefix_append _ _) (by omega)

theorem ServerSends.pc_ok {pc : ServerPc} {out : List Byte} {later : List (ℕ × Hdr)}
    {laterObj : List (Option Word × List Byte)}
    (h : ServerSends iwcc pc out count ρ str later laterObj) :
    (∀ why, pc ≠ .aborted why) ∧ ∀ code, pc ≠ .returned code := by
  cases h <;> exact ⟨nofun, nofun⟩

theorem ClientSends.pc_ok {pc : ClientPc} (h : ClientSends tsc pc κ str) (ret : ℤ) :
    pc ≠ .failed ret := by
  cases h <;> exact nofun

theorem Framed.inStep {σ : Session} (h : Framed σ) : InStep σ := by
  have haccepts : ∀ e σ', e.Fits → step σ e = some σ' →
      Log.Accepts σ.server.pc.Accepts σ.server.recd σ'.server.recd ∧
        Log.Accepts σ.client.pc.Accepts σ.client.recd σ'.client.recd :=
    fun e σ' hfits hstep => h.accepts hfits hstep
  cases h with
  | toServer h =>
      obtain ⟨str, hstr⟩ := h.sends
      obtain ⟨unread, e, -, hspaced, hhdrs⟩ := h.wants
      obtain ⟨got, size, next, hread⟩ := h.reads
      obtain ⟨ev, henabled, hfits⟩ := h.progress
      obtain ⟨σ', hstep⟩ := henabled.step
      exact
        { serverHdrs := hhdrs ▸ List.prefix_append _ _
          clientHdrs := h.back ▸ List.prefix_rfl
          serverSpaced := ⟨e, hspaced⟩
          clientSpaced := ⟨_, h.spaced⟩
          accepts := haccepts
          clientOk := hstr.pc_ok
          serverOk := fun why heq => absurd (hread.symm.trans heq) nofun
          serverReturns := fun code heq => absurd (hread.symm.trans heq) nofun
          results := h.objects ▸ List.prefix_rfl
          progress := Or.inr ⟨ev, σ', hfits, hstep⟩ }
  | toClient h =>
      obtain ⟨str, later, laterObj, unread, e, hsends, hwants, hspaced, hhdrs, hobjects⟩ := h.sends
      obtain ⟨hlater, hlaterObj⟩ := hsends.later_le hwants
      obtain ⟨got, size, next, hread⟩ := hwants.reads
      obtain ⟨ev, henabled, hfits⟩ := h.progress
      obtain ⟨σ', hstep⟩ := henabled.step
      exact
        { serverHdrs := h.forth ▸ List.prefix_rfl
          clientHdrs := prefix_of_append_eq hhdrs hlater
          serverSpaced := ⟨_, h.spaced⟩
          clientSpaced := ⟨e, hspaced⟩
          accepts := haccepts
          clientOk := fun ret heq => absurd (hread.symm.trans heq) nofun
          serverOk := hsends.pc_ok.1
          serverReturns := fun code heq => absurd heq (hsends.pc_ok.2 code)
          results := prefix_of_append_eq hobjects hlaterObj
          progress := Or.inr ⟨ev, σ', hfits, hstep⟩ }
  | ended h =>
      exact
        { serverHdrs := h.forth ▸ List.prefix_rfl
          clientHdrs := h.back ▸ List.prefix_rfl
          serverSpaced := ⟨_, h.spacedServer⟩
          clientSpaced := ⟨_, h.spacedClient⟩
          accepts := haccepts
          clientOk := fun ret heq => absurd (h.client.symm.trans heq) nofun
          serverOk := fun why heq => absurd (h.server.symm.trans heq) nofun
          serverReturns := fun code heq =>
            ⟨(ServerPc.returned.inj (h.server.symm.trans heq)).symm, h.client⟩
          results := h.objects ▸ List.prefix_rfl
          progress := Or.inl ⟨h.client, h.server⟩ }

theorem framed_start (iwcc : IWClientConfig) (hmode : tsc.tscServerMode = 0) :
    Framed (start tsc iwcc) := by
  have hinit : Client.init tsc = ⟨.writeFull (Hdr.of .cInit 20).bytes .initTsc, tsc, noHdr, [],
      none, [], ⟨0, [(0, Hdr.of .cInit 20)]⟩, ⟨0, []⟩⟩ := by
    simp [Client.init, Client.hdrSend, noHdr, Log.next]
  have hstart : ToServer .init (start tsc iwcc) := by
    rw [start, hinit]
    exact
      { s2c := rfl
        out := rfl
        mode := fun _ => hmode
        lastHdr := rfl
        request := rfl
        closed := iff_of_false (by simp) (by simp)
        needIwcc := Or.inl rfl
        objects := rfl
        back := rfl
        spaced := rfl
        count := rfl
        sends := ⟨_, .initHdr (Hdr.bytes_ne_nil _)⟩
        wants := by
          refine ⟨[(0, Hdr.of .cInit 20)], 0, ?_, rfl, rfl⟩
          intro str hstr
          cases hstr with
          | initHdr => exact .initHdr (Nat.zero_lt_succ 7) rfl }
  exact .toServer hstart

/-- Client and server never lose the framing.  `tsc_server_mode` is zero, as
`main` leaves it, and every object fits a message. -/
theorem run_inStep (tsc : IWServerConfig) (iwcc : IWClientConfig) (hmode : tsc.tscServerMode = 0)
    (events : List Event) (hfits : ∀ e ∈ events, e.Fits) (σ : Session)
    (hrun : run step (start tsc iwcc) events = some σ) : InStep σ := by
  have hguarded : Guarded step (fun _ e => e.Fits) (start tsc iwcc) events :=
    guarded_of_forall (fun e he _ => hfits e he) _
  have hframed : Framed σ :=
    run_invariant (fun _ _ _ _ h hok hstep => framed_step h hok hstep) (framed_start iwcc hmode)
      hguarded hrun
  exact hframed.inStep

/-- A session with one request, for which the server asks for one page. -/
def sampleEvents (page : List Byte) : List Event :=
  [.clientWrote 3, .clientWrote 5, .serverRead 8, .clientWrote 20, .serverRead 20, .initObject [],
    .spill 28, .clientRead 8, .clientRead 20, .spill 8, .clientRead 8, .request 0x1000,
    .clientWrote 8, .clientWrote 8, .serverRead 8, .serverRead 8, .getPage 0x1000, .spill 24,
    .clientRead 8, .clientRead 16, .clientWrote 8, .mem (some page),
    .clientWrote 4096, .clientWrote 1, .serverRead 8, .serverRead 4096, .serverRead 1,
    .object [1#8, 2#8, 3#8], .spill 11, .clientRead 8, .clientRead 3]

theorem run_inStep_sample :
    ∃ σ, run step (start ⟨62, 62, 0, 0, 8⟩ ⟨0, 0, 0, 0, 0⟩)
        (sampleEvents (List.replicate 4096 7#8)) = some σ ∧
      σ.client.results = [(none, []), (some 0x1000, [1#8, 2#8, 3#8])] ∧ InStep σ := by
  have hfits : ∀ page, ∀ e ∈ sampleEvents page, e.Fits := by
    simp [sampleEvents, Event.Fits, Server.intMax]
  have hresults : (run step (start ⟨62, 62, 0, 0, 8⟩ ⟨0, 0, 0, 0, 0⟩)
      (sampleEvents (List.replicate 4096 7#8))).map (fun σ => σ.client.results) =
        some [(none, []), (some 0x1000, [1#8, 2#8, 3#8])] := by
    decide +kernel
  obtain ⟨σ, hrun, hσ⟩ := Option.map_eq_some_iff.mp hresults
  exact ⟨σ, hrun, hσ, run_inStep _ _ rfl _ (hfits _) σ hrun⟩

end PollyInstrew.Protocol
