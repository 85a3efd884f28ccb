import PollyInstrew.Protocol.Session

/-!
# Framing of a session

At any time a message of one side is on its way and the other side reads just
that message.  What is in the pipe, together with what the sender still has to
write, is what the reader expects.
-/

namespace PollyInstrew.Protocol

open PollyInstrew.ByteMemory
open PollyInstrew.Shared
open PollyInstrew.Transition

/-! ## Positions of headers -/

/-- The headers follow each other from offset `o` to offset `e`: each header is
right behind the content of the one before. -/
def Spaced : ℕ → List (ℕ × Hdr) → ℕ → Prop
  | o, [], e => o = e
  | o, (p, h) :: hdrs, e => p = o ∧ Spaced (o + 8 + h.sz.toNat) hdrs e

theorem Spaced.append {h : Hdr} {e : ℕ} :
    ∀ {hdrs : List (ℕ × Hdr)} {o : ℕ}, Spaced o hdrs e →
      Spaced o (hdrs ++ [(e, h)]) (e + 8 + h.sz.toNat) := by
  intro hdrs
  induction hdrs with
  | nil =>
      intro o hs
      cases hs
      exact ⟨rfl, rfl⟩
  | cons x hdrs ih =>
      intro o hs
      exact ⟨hs.1, ih hs.2⟩

/-! ## Client to server -/

/-- The message the client sends, or has sent and waits for the answer of. -/
inductive Kind where
  | init
  | translate (addr : Word)
  | membuf (addr : Word)
  | none
  deriving DecidableEq

def Kind.request : Kind → Option Word
  | .init => Option.none
  | .translate addr => some addr
  | .membuf addr => some addr
  | .none => Option.none

/-- `str` is what the client may still write of its message. -/
inductive ClientSends (tsc : IWServerConfig) : ClientPc → Kind → List Byte → Prop
  | initHdr {rest : List Byte} (hrest : rest ≠ []) :
      ClientSends tsc (.writeFull rest .initTsc) .init (rest ++ tsc.bytes)
  | initTsc {rest : List Byte} (hrest : rest ≠ []) :
      ClientSends tsc (.writeFull rest .configFetch) .init rest
  | initDone : ClientSends tsc (.readFull [] 8 (.hdr .configFetch)) .init []
  | getHdr {rest : List Byte} {addr : Word} (hrest : rest ≠ []) :
      ClientSends tsc (.writeFull rest .getAddr) (.translate addr)
        (rest ++ leBytes 8 addr.toNat)
  | getAddr {rest : List Byte} {addr : Word} (hrest : rest ≠ []) :
      ClientSends tsc (.writeFull rest .getLoop) (.translate addr) rest
  | getDone {addr : Word} :
      ClientSends tsc (.readFull [] 8 (.hdr .getLoop)) (.translate addr) []
  | memHdr {rest content : List Byte} {addr page : Word} (hrest : rest ≠ [])
      (hlen : content.length = 4097) :
      ClientSends tsc (.writeFull rest (.memPage page 0x1000)) (.membuf addr) (rest ++ content)
  | page {content : List Byte} {addr page : Word} (hlen : content.length = 4097) :
      ClientSends tsc (.page page 0x1000) (.membuf addr) content
  | memPage {rest : List Byte} {failed : Byte} {addr : Word} (hrest : rest ≠ []) :
      ClientSends tsc (.writeFull rest (.memFailed failed)) (.membuf addr) (rest ++ [failed])
  | pad {left : ℕ} {content : List Byte} {addr : Word} (hleft : 0 < left)
      (hlen : content.length = left + 1) : ClientSends tsc (.pad left) (.membuf addr) content
  | memFailed {rest : List Byte} {addr : Word} (hrest : rest ≠ []) :
      ClientSends tsc (.writeFull rest .getLoop) (.membuf addr) rest
  | memDone {addr : Word} : ClientSends tsc (.readFull [] 8 (.hdr .getLoop)) (.membuf addr) []
  | running : ClientSends tsc .running .none []
  | exited : ClientSends tsc .exited .none []

/-- The server reads the message and expects `str` to come.  `unread` are the
headers it has not read, with their positions, and `e` is the end of the last
message whose header it has read; `count` bytes have been read. -/
inductive ServerWants (tsc : IWServerConfig) :
    ServerPc → BitVec 32 → ℕ → Kind → List Byte → List (ℕ × Hdr) → ℕ → Prop
  | initHdr {got str : List Byte} {e : ℕ} (hgot : got.length < 8)
      (hstr : got ++ str = (Hdr.of .cInit 20).bytes ++ tsc.bytes) :
      ServerWants tsc (.read got 8 .initHdr) 0 (e + got.length) .init str
        [(e, Hdr.of .cInit 20)] e
  | initConf {got str : List Byte} {e : ℕ} (hgot : got.length < 20)
      (hstr : got ++ str = tsc.bytes) {count : ℕ} (hcount : e = count + str.length) :
      ServerWants tsc (.read got 20 .initConf) 20 count .init str [] e
  | runHdr {got str : List Byte} {e : ℕ} {addr : Word} (hgot : got.length < 8)
      (hstr : got ++ str = (Hdr.of .cTranslate 8).bytes ++ leBytes 8 addr.toNat) :
      ServerWants tsc (.read got 8 .runHdr) 0 (e + got.length) (.translate addr) str
        [(e, Hdr.of .cTranslate 8)] e
  | addr {got str : List Byte} {e : ℕ} {addr : Word} (hgot : got.length < 8)
      (hstr : got ++ str = leBytes 8 addr.toNat) {count : ℕ} (hcount : e = count + str.length) :
      ServerWants tsc (.read got 8 .addr) 8 count (.translate addr) str [] e
  | pageHdr {got str content : List Byte} {e : ℕ} {addr page : Word} (hgot : got.length < 8)
      (hlen : content.length = 4097)
      (hstr : got ++ str = (Hdr.of .cMembuf 4097).bytes ++ content) :
      ServerWants tsc (.read got 8 (.pageHdr addr page)) 0 (e + got.length) (.membuf addr) str
        [(e, Hdr.of .cMembuf 4097)] e
  | pageData {got str : List Byte} {e : ℕ} {addr page : Word} (hgot : got.length < 0x1000)
      (hstr : got.length + str.length = 4097) {count : ℕ} (hcount : e = count + str.length) :
      ServerWants tsc (.read got 0x1000 (.pageData addr page)) 4097 count (.membuf addr) str
        [] e
  | pageFailed {str data : List Byte} {e : ℕ} {addr page : Word}
      (hstr : str.length = 1) {count : ℕ} (hcount : e = count + str.length) :
      ServerWants tsc (.read [] 1 (.pageFailed addr page data)) 1 count (.membuf addr) str [] e
  | idle {e : ℕ} : ServerWants tsc (.read [] 8 .runHdr) 0 e .none [] [] e

/-- A message of the client is on its way. -/
structure ToServer (κ : Kind) (σ : Session) : Prop where
  s2c : σ.s2c = []
  out : σ.server.out = []
  mode : κ = .init → σ.client.tsc.tscServerMode = 0
  lastHdr : σ.client.lastHdr = noHdr
  request : σ.client.request = κ.request
  closed : σ.closed = true ↔ σ.client.pc = .exited
  needIwcc : κ = .init ∨ σ.server.needIwcc = false
  objects : σ.server.objects = σ.client.results
  back : σ.server.sent = σ.client.recd
  spaced : Spaced 0 σ.client.recd.hdrs σ.client.recd.count
  count : σ.client.sent.count = σ.server.recd.count + σ.c2s.length
  sends : ∃ str, ClientSends σ.client.tsc σ.client.pc κ str
  wants : ∃ unread e, (∀ str, ClientSends σ.client.tsc σ.client.pc κ str →
      ServerWants σ.client.tsc σ.server.pc σ.server.recvSz σ.server.recd.count κ
        (σ.c2s ++ str) unread e) ∧
    Spaced 0 σ.server.recd.hdrs e ∧ σ.client.sent.hdrs = σ.server.recd.hdrs ++ unread

/-! ## Server to client -/

/-- What the server sends; in `thinkInit` and `think` it has not decided. -/
inductive Reply where
  | thinkInit
  | think (addr : Word)
  | start (data : List Byte)
  | memreq (addr page : Word)
  | object (addr : Word) (data : List Byte)
  deriving DecidableEq

def Reply.request : Reply → Option Word
  | .thinkInit => none
  | .think addr => some addr
  | .start _ => none
  | .memreq addr _ => some addr
  | .object addr _ => some addr

/-- The object a reply brings. -/
def Reply.objects : Reply → List (Option Word × List Byte)
  | .start data => [(none, data)]
  | .object addr data => [(some addr, data)]
  | _ => []

def memreqBytes (page : Word) : List Byte := leBytes 8 page.toNat ++ leBytes 8 0x1000

/-- `str` is what has not reached the pipe yet.  `later` are headers and objects
the server has not started to send, `count` bytes have been sent. -/
inductive ServerSends (iwcc : IWClientConfig) : ServerPc → List Byte → ℕ → Reply →
    List Byte → List (ℕ × Hdr) → List (Option Word × List Byte) → Prop
  | thinkInit {count : ℕ} : ServerSends iwcc .init [] count .thinkInit [] [] []
  | think {count : ℕ} {addr : Word} :
      ServerSends iwcc (.translating addr) [] count (.think addr) [] [] []
  | startInit {out data : List Byte} {count : ℕ} (hout : out ≠ [])
      (hlen : data.length ≤ Server.intMax) :
      ServerSends iwcc (.flush (.objectHdr none data)) out count (.start data)
        (out ++ ((Hdr.of .sObject data.length).bytes ++ data))
        [(count, Hdr.of .sObject data.length)] [(none, data)]
  | startObject {out data : List Byte} {count : ℕ} (hout : out ≠ [])
      (hlen : data.length ≤ Server.intMax) :
      ServerSends iwcc (.flush .recvRun) out count (.start data) out [] []
  | startDone {data : List Byte} {count : ℕ} (hlen : data.length ≤ Server.intMax) :
      ServerSends iwcc (.read [] 8 .runHdr) [] count (.start data) [] [] []
  | memreq {out : List Byte} {count : ℕ} {addr page : Word} (hout : out ≠ []) :
      ServerSends iwcc (.flush (.recvPage addr page)) out count (.memreq addr page) out [] []
  | memreqDone {count : ℕ} {addr page : Word} :
      ServerSends iwcc (.read [] 8 (.pageHdr addr page)) [] count (.memreq addr page) [] [] []
  | object {out data : List Byte} {count : ℕ} {addr : Word} (hout : out ≠ [])
      (hlen : data.length ≤ Server.intMax) :
      ServerSends iwcc (.flush .recvRun) out count (.object addr data) out [] []
  | cached {out data : List Byte} {count : ℕ} {addr : Word} (hout : out ≠ [])
      (hlen : data.length ≤ Server.intMax) :
      ServerSends iwcc (.flush (.sendfile data)) out count (.object addr data) (out ++ data)
        [] []
  | sendfile {rest data : List Byte} {count : ℕ} {addr : Word} (hrest : rest ≠ [])
      (hlen : data.length ≤ Server.intMax) :
      ServerSends iwcc (.sendfile rest) [] count (.object addr data) rest [] []
  | objectDone {data : List Byte} {count : ℕ} {addr : Word}
      (hlen : data.length ≤ Server.intMax) :
      ServerSends iwcc (.read [] 8 .runHdr) [] count (.object addr data) [] [] []

/-- The client reads the reply and expects `str` to come.  `unread` are the
headers it has not read, and `e` is the end of the last message whose header it
has read; `count` bytes have been read. -/
inductive ClientWants (iwcc : IWClientConfig) :
    ClientPc → ℕ → Reply → List Byte → List (ℕ × Hdr) → ℕ → Prop
  | thinkInit {e : ℕ} :
      ClientWants iwcc (.readFull [] 8 (.hdr .configFetch)) e .thinkInit [] [] e
  | think {e : ℕ} {addr : Word} :
      ClientWants iwcc (.readFull [] 8 (.hdr .getLoop)) e (.think addr) [] [] e
  | startHdr {got str data : List Byte} {e : ℕ} (hgot : got.length < 8)
      (hstr : got ++ str = (Hdr.of .sInit 20).bytes ++
        (iwcc.bytes ++ ((Hdr.of .sObject data.length).bytes ++ data))) :
      ClientWants iwcc (.readFull got 8 (.hdr .configFetch)) (e + got.length) (.start data) str
        [(e, Hdr.of .sInit 20), (e + 28, Hdr.of .sObject data.length)] e
  | startConf {got str data : List Byte} {e count : ℕ} (hgot : got.length < 20)
      (hstr : got ++ str = iwcc.bytes ++ ((Hdr.of .sObject data.length).bytes ++ data))
      (hcount : e + got.length = count + 20) :
      ClientWants iwcc (.readFull got 20 .config) count (.start data) str
        [(e, Hdr.of .sObject data.length)] e
  | startObjHdr {got str data : List Byte} {e : ℕ} (hgot : got.length < 8)
      (hstr : got ++ str = (Hdr.of .sObject data.length).bytes ++ data) :
      ClientWants iwcc (.readFull got 8 (.hdr .getObject)) (e + got.length) (.start data) str
        [(e, Hdr.of .sObject data.length)] e
  | startObj {got str data : List Byte} {e count : ℕ} (hgot : got.length < data.length)
      (hstr : got ++ str = data) (hcount : e = count + str.length) :
      ClientWants iwcc (.readFull got data.length .object) count (.start data) str [] e
  | memHdr {got str : List Byte} {e : ℕ} {addr page : Word} (hgot : got.length < 8)
      (hstr : got ++ str = (Hdr.of .sMemreq 16).bytes ++ memreqBytes page) :
      ClientWants iwcc (.readFull got 8 (.hdr .getLoop)) (e + got.length) (.memreq addr page)
        str [(e, Hdr.of .sMemreq 16)] e
  | memrq {got str : List Byte} {e count : ℕ} {addr page : Word} (hgot : got.length < 16)
      (hstr : got ++ str = memreqBytes page) (hcount : e = count + str.length) :
      ClientWants iwcc (.readFull got 16 .memrq) count (.memreq addr page) str [] e
  | objHdr {got str data : List Byte} {e : ℕ} {addr : Word} (hgot : got.length < 8)
      (hstr : got ++ str = (Hdr.of .sObject data.length).bytes ++ data) :
      ClientWants iwcc (.readFull got 8 (.hdr .getLoop)) (e + got.length) (.object addr data)
        str [(e, Hdr.of .sObject data.length)] e
  | obj {got str data : List Byte} {e count : ℕ} {addr : Word} (hgot : got.length < data.length)
      (hstr : got ++ str = data) (hcount : e = count + str.length) :
      ClientWants iwcc (.readFull got data.length .object) count (.object addr data) str [] e

/-- A reply of the server is on its way. -/
structure ToClient (ρ : Reply) (σ : Session) : Prop where
  c2s : σ.c2s = []
  closed : σ.closed = false
  recvSz : σ.server.recvSz = 0
  lastHdr : σ.client.lastHdr = noHdr
  request : σ.client.request = ρ.request
  needIwcc : σ.server.needIwcc = decide (ρ = .thinkInit)
  forth : σ.client.sent = σ.server.recd
  spaced : Spaced 0 σ.server.recd.hdrs σ.server.recd.count
  count : σ.server.sent.count = σ.client.recd.count + σ.s2c.length + σ.server.out.length
  sends : ∃ str later laterObj unread e,
    ServerSends σ.server.iwcc σ.server.pc σ.server.out σ.server.sent.count ρ str later
      laterObj ∧
    ClientWants σ.server.iwcc σ.client.pc σ.client.recd.count ρ (σ.s2c ++ str) unread e ∧
    Spaced 0 σ.client.recd.hdrs e ∧
    σ.server.sent.hdrs ++ later = σ.client.recd.hdrs ++ unread ∧
    σ.server.objects ++ laterObj = σ.client.results ++ ρ.objects

/-- The client has gone and the server has returned. -/
structure Over (σ : Session) : Prop where
  client : σ.client.pc = .exited
  server : σ.server.pc = .returned 0
  out : σ.server.out = []
  objects : σ.server.objects = σ.client.results
  back : σ.server.sent = σ.client.recd
  forth : σ.client.sent = σ.server.recd
  spacedServer : Spaced 0 σ.server.recd.hdrs σ.server.recd.count
  spacedClient : Spaced 0 σ.client.recd.hdrs σ.client.recd.count

/-- What holds at every moment of a session. -/
inductive Framed (σ : Session) : Prop
  | toServer {κ : Kind} (h : ToServer κ σ)
  | toClient {ρ : Reply} (h : ToClient ρ σ)
  | ended (h : Over σ)

/-! ## What a step does -/

/-- The steps of the client. -/
inductive ClientStep (σ : Session) : Session → Prop
  | wrote {rest : List Byte} {next : WriteThen} {n : ℕ}
      (hpc : σ.client.pc = .writeFull rest next) (hn : 0 < n) (hrest : rest.drop n ≠ []) :
      ClientStep σ { σ with
        client := { σ.client with
          pc := .writeFull (rest.drop n) next
          sent := σ.client.sent.add n }
        c2s := σ.c2s ++ rest.take n }
  | wroteAll {rest : List Byte} {next : WriteThen}
      (hpc : σ.client.pc = .writeFull rest next) :
      ClientStep σ { σ with
        client := Client.writeDone { σ.client with
          pc := .writeFull [] next
          sent := σ.client.sent.add rest.length } next
        c2s := σ.c2s ++ rest }
  | pad {left : ℕ} (hpc : σ.client.pc = .pad left) :
      ClientStep σ { σ with
        client := { σ.client with
          pc := if left ≤ 1 then .writeFull [1#8] .getLoop else .pad (left - 1)
          sent := σ.client.sent.add 1 }
        c2s := σ.c2s ++ [0#8] }
  | read {got : List Byte} {size : ℕ} {next : ReadThen} {bytes rest : List Byte}
      (hpc : σ.client.pc = .readFull got size next) (hs2c : σ.s2c = bytes ++ rest)
      (hn : 0 < bytes.length) (hlt : (got ++ bytes).length < size) :
      ClientStep σ { σ with
        client := { σ.client with
          pc := .readFull (got ++ bytes) size next
          recd := σ.client.recd.add bytes.length }
        s2c := rest }
  | readAll {got : List Byte} {size : ℕ} {next : ReadThen} {bytes rest : List Byte}
      (hpc : σ.client.pc = .readFull got size next) (hs2c : σ.s2c = bytes ++ rest)
      (hn : 0 < bytes.length) (hall : (got ++ bytes).length = size) :
      ClientStep σ { σ with
        client := Client.readDone { σ.client with
          pc := .readFull (got ++ bytes) size next
          recd := σ.client.recd.add bytes.length } (got ++ bytes) next
        s2c := rest }
  | mem {addr : Word} {bytes : List Byte} (hpc : σ.client.pc = .page addr bytes.length) :
      ClientStep σ { σ with
        client := { σ.client with
          pc := if bytes = [] then .writeFull [0#8] .getLoop
            else .writeFull bytes (.memFailed 0#8) } }
  | memFault {addr : Word} {bufSz : ℕ} (hpc : σ.client.pc = .page addr bufSz)
      (hsize : 0 < bufSz) :
      ClientStep σ { σ with client := { σ.client with pc := .pad bufSz } }
  | request {addr : Word} (hpc : σ.client.pc = .running) :
      ClientStep σ { σ with client := σ.client.get addr }
  | exit (hpc : σ.client.pc = .running) :
      ClientStep σ { σ with
        client := { σ.client with pc := .exited }
        closed := true }

theorem clientStep_cases {σ σ' : Session} {e : Event} (h : clientStep σ e = some σ') :
    ClientStep σ σ' := by
  cases e with
  | clientWrote n =>
      unfold clientStep at h
      dsimp only at h
      split at h
      · next rest next hpc =>
        split at h
        · next hn =>
          obtain rfl := Option.some.inj h
          by_cases hdrop : rest.drop n = []
          · have hall : n = rest.length := Nat.le_antisymm hn.2 (List.drop_eq_nil_iff.mp hdrop)
            subst hall
            simp only [List.drop_length, List.take_length, if_true]
            exact .wroteAll hpc
          · simp only [if_neg hdrop]
            exact .wrote hpc hn.1 hdrop
        · cases h
      · next left hpc =>
        split at h
        · obtain rfl := Option.some.inj h
          exact .pad hpc
        · cases h
      · cases h
  | clientRead n =>
      unfold clientStep at h
      dsimp only at h
      split at h
      · next got size next hpc =>
        split at h
        · next hn =>
          obtain rfl := Option.some.inj h
          have hlen : (σ.s2c.take n).length = n := List.length_take_of_le hn.2.1
          have hs2c : σ.s2c = σ.s2c.take n ++ σ.s2c.drop n := (List.take_append_drop n _).symm
          by_cases hall : (got ++ σ.s2c.take n).length = size
          · have hstep := ClientStep.readAll hpc hs2c (by omega) hall
            rw [hlen] at hstep
            simpa only [if_pos hall] using hstep
          · have hstep := ClientStep.read hpc hs2c (by omega) (by
              rw [List.length_append] at hall ⊢
              omega)
            rw [hlen] at hstep
            simpa only [if_neg hall] using hstep
        · cases h
      · cases h
  | mem page =>
      unfold clientStep at h
      dsimp only at h
      split at h
      · next hpc =>
        split at h
        · next hlen =>
          obtain rfl := Option.some.inj h
          subst hlen
          exact .mem hpc
        · cases h
      · next hpc =>
        split at h
        · next hsize =>
          obtain rfl := Option.some.inj h
          exact .memFault hpc hsize
        · cases h
      · cases h
  | request addr =>
      unfold clientStep at h
      dsimp only at h
      split at h
      · next hpc =>
        obtain rfl := Option.some.inj h
        exact .request hpc
      · cases h
  | exit =>
      unfold clientStep at h
      dsimp only at h
      split at h
      · next hpc =>
        obtain rfl := Option.some.inj h
        exact .exit hpc
      · cases h
  | _ => exact absurd h nofun

/-- The server only sends objects that fit a message. -/
def Event.Fits : Event → Prop
  | .initObject data => data.length ≤ Server.intMax
  | .object data => data.length ≤ Server.intMax
  | .cached data => data.length ≤ Server.intMax
  | _ => True

/-- The steps of the server. -/
inductive ServerStep (σ : Session) : Session → Prop
  | read {got : List Byte} {size : ℕ} {next : RecvThen} {bytes rest : List Byte}
      (hpc : σ.server.pc = .read got size next) (hc2s : σ.c2s = bytes ++ rest)
      (hn : 0 < bytes.length) (hlt : (got ++ bytes).length < size) :
      ServerStep σ { σ with
        server := { σ.server with
          pc := .read (got ++ bytes) size next
          recd := σ.server.recd.add bytes.length }
        c2s := rest }
  | readAll {got : List Byte} {size : ℕ} {next : RecvThen} {bytes rest : List Byte}
      (hpc : σ.server.pc = .read got size next) (hc2s : σ.c2s = bytes ++ rest)
      (hn : 0 < bytes.length) (hall : (got ++ bytes).length = size) :
      ServerStep σ { σ with
        server := Server.readDone { σ.server with
          pc := .read (got ++ bytes) size next
          recd := σ.server.recd.add bytes.length } (got ++ bytes) next
        c2s := rest }
  | eof {got : List Byte} {size : ℕ} {next : RecvThen}
      (hpc : σ.server.pc = .read got size next) (hclosed : σ.closed = true)
      (hc2s : σ.c2s = []) : ServerStep σ { σ with server := σ.server.readEof next }
  | spill {bytes rest : List Byte} (hout : σ.server.out = bytes ++ rest)
      (hn : 0 < bytes.length) (hpc : ∀ next, σ.server.pc = .flush next → rest ≠ []) :
      ServerStep σ { σ with
        server := { σ.server with out := rest }
        s2c := σ.s2c ++ bytes }
  | flushed {next : FlushThen} (hpc : σ.server.pc = .flush next)
      (hn : 0 < σ.server.out.length) :
      ServerStep σ { σ with
        server := Server.flushDone { σ.server with out := [] } next
        s2c := σ.s2c ++ σ.server.out }
  | sendfile {bytes rest : List Byte} (hpc : σ.server.pc = .sendfile (bytes ++ rest))
      (hn : 0 < bytes.length) (hrest : rest ≠ []) :
      ServerStep σ { σ with
        server := { σ.server with
          pc := .sendfile rest
          sent := σ.server.sent.add bytes.length }
        s2c := σ.s2c ++ bytes }
  | sendfileAll {rest : List Byte} (hpc : σ.server.pc = .sendfile rest) :
      ServerStep σ { σ with
        server := Server.recvMsg { σ.server with
          pc := .sendfile []
          sent := σ.server.sent.add rest.length } .runHdr
        s2c := σ.s2c ++ rest }
  | initObject {data : List Byte} (hpc : σ.server.pc = .init)
      (hlen : data.length ≤ Server.intMax) :
      ServerStep σ { σ with server := σ.server.sendObject none data }
  | getPage {addr page : Word} (hpc : σ.server.pc = .translating addr) :
      ServerStep σ { σ with server := σ.server.getPage addr page }
  | object {addr : Word} {data : List Byte} (hpc : σ.server.pc = .translating addr)
      (hlen : data.length ≤ Server.intMax) :
      ServerStep σ { σ with server := σ.server.sendObject (some addr) data }
  | cached {addr : Word} {data : List Byte} (hpc : σ.server.pc = .translating addr)
      (hlen : data.length ≤ Server.intMax) :
      ServerStep σ { σ with server := σ.server.cacheHit addr data }

theorem serverStep_cases {σ σ' : Session} {e : Event} (h : serverStep σ e = some σ')
    (hfits : e.Fits) : ServerStep σ σ' := by
  cases e with
  | serverRead n =>
      unfold serverStep at h
      dsimp only at h
      split at h
      · next got size next hpc =>
        split at h
        · next hn =>
          obtain rfl := Option.some.inj h
          have hlen : (σ.c2s.take n).length = n := List.length_take_of_le hn.2.1
          have hc2s : σ.c2s = σ.c2s.take n ++ σ.c2s.drop n := (List.take_append_drop n _).symm
          by_cases hall : (got ++ σ.c2s.take n).length = size
          · have hstep := ServerStep.readAll hpc hc2s (by omega) hall
            rw [hlen] at hstep
            simpa only [if_pos hall] using hstep
          · have hstep := ServerStep.read hpc hc2s (by omega) (by
              rw [List.length_append] at hall ⊢
              omega)
            rw [hlen] at hstep
            simpa only [if_neg hall] using hstep
        · cases h
      · cases h
  | serverEof =>
      unfold serverStep at h
      dsimp only at h
      split at h
      · next hpc =>
        split at h
        · next hc =>
          obtain rfl := Option.some.inj h
          exact .eof hpc hc.1 hc.2
        · cases h
      · cases h
  | spill n =>
      unfold serverStep at h
      dsimp only at h
      split at h
      · next hn =>
        obtain rfl := Option.some.inj h
        have hout : σ.server.out = σ.server.out.take n ++ σ.server.out.drop n :=
          (List.take_append_drop n _).symm
        have hlen : (σ.server.out.take n).length = n := List.length_take_of_le hn.2
        cases hpc : σ.server.pc with
        | flush next =>
            dsimp only
            by_cases hdrop : σ.server.out.drop n = []
            · have hall : n = σ.server.out.length :=
                Nat.le_antisymm hn.2 (List.drop_eq_nil_iff.mp hdrop)
              subst hall
              have hstep := ServerStep.flushed hpc hn.1
              simpa [hpc] using hstep
            · have hstep := ServerStep.spill hout (by omega) (fun _ _ => hdrop)
              simpa only [if_neg hdrop, hpc] using hstep
        | _ =>
            have hstep := ServerStep.spill hout (by omega) (fun next heq =>
              absurd (hpc.symm.trans heq) nofun)
            simpa only [hpc] using hstep
      · cases h
  | sendfile n =>
      unfold serverStep at h
      dsimp only at h
      split at h
      · next rest hpc =>
        split at h
        · next hn =>
          obtain rfl := Option.some.inj h
          by_cases hdrop : rest.drop n = []
          · have hall : n = rest.length := Nat.le_antisymm hn.2 (List.drop_eq_nil_iff.mp hdrop)
            subst hall
            simp only [List.drop_length, List.take_length, if_true]
            exact .sendfileAll hpc
          · have hlen : (rest.take n).length = n := List.length_take_of_le hn.2
            rw [← List.take_append_drop n rest] at hpc
            have hstep := ServerStep.sendfile hpc (by omega) hdrop
            rw [hlen] at hstep
            simpa only [if_neg hdrop] using hstep
        · cases h
      · cases h
  | initObject data =>
      unfold serverStep at h
      dsimp only at h
      split at h
      · next hpc =>
        obtain rfl := Option.some.inj h
        exact .initObject hpc hfits
      · cases h
  | getPage page =>
      unfold serverStep at h
      dsimp only at h
      split at h
      · next hpc =>
        obtain rfl := Option.some.inj h
        exact .getPage hpc
      · cases h
  | object data =>
      unfold serverStep at h
      dsimp only at h
      split at h
      · next hpc =>
        obtain rfl := Option.some.inj h
        exact .object hpc hfits
      · cases h
  | cached data =>
      unfold serverStep at h
      dsimp only at h
      split at h
      · next hpc =>
        obtain rfl := Option.some.inj h
        exact .cached hpc hfits
      · cases h
  | _ => exact absurd h nofun

end PollyInstrew.Protocol
