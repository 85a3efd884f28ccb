import PollyInstrew.Shared.Protocol
import PollyInstrew.Support.Transition

/-!
# A session of client and server

The client (`translator.c`, with the start of `main.c`) and the server
(`Conn`, `RemoteMemory::GetPage` and `IWConnection`) as state machines over two
byte pipes.  A state names the transfer in progress and what follows it; reads
and writes move any number of bytes at a time.  Both sides keep a history of
the headers they sent and received, with their positions in the byte stream,
and of the objects that were sent and returned.
-/

namespace PollyInstrew.Protocol

open PollyInstrew.ByteMemory
open PollyInstrew.Shared

abbrev Word := BitVec 64

/-- What went through one end of a pipe: the number of bytes, and the headers
with their positions. -/
@[ext]
structure Log where
  count : ℕ
  hdrs : List (ℕ × Hdr)
  deriving DecidableEq

def Log.add (l : Log) (n : ℕ) : Log := { l with count := l.count + n }

/-- A header that is about to be sent. -/
def Log.next (l : Log) (h : Hdr) : Log := { l with hdrs := l.hdrs ++ [(l.count, h)] }

/-- A header that has just been received. -/
def Log.last (l : Log) (h : Hdr) : Log := { l with hdrs := l.hdrs ++ [(l.count - 8, h)] }

/-! ## The client -/

/-- What follows a `write_full` of the client. -/
inductive WriteThen where
  | initTsc
  | configFetch
  | getAddr
  | getLoop
  | memPage (addr : Word) (bufSz : ℕ)
  | memFailed (failed : Byte)
  deriving DecidableEq

/-- Which function receives a header. -/
inductive HdrUse where
  | configFetch
  | getObject
  | getLoop
  deriving DecidableEq

/-- What follows a `read_full` of the client. -/
inductive ReadThen where
  | hdr (use : HdrUse)
  | config
  | memrq
  | object
  deriving DecidableEq

inductive ClientPc where
  /-- `write_full` with the bytes that are left. -/
  | writeFull (rest : List Byte) (next : WriteThen)
  /-- `read_full` of `n` bytes with those that were read. -/
  | readFull (got : List Byte) (n : ℕ) (next : ReadThen)
  /-- About to write guest memory. -/
  | page (addr : Word) (bufSz : ℕ)
  /-- Writing zero bytes one by one, `left` are left. -/
  | pad (left : ℕ)
  /-- Running the guest. -/
  | running
  | failed (ret : ℤ)
  | exited
  deriving DecidableEq

/-- `Translator`, with the pending request, the objects returned so far (`none`
is the initial one) and the histories. -/
structure Client where
  pc : ClientPc
  tsc : IWServerConfig
  lastHdr : Hdr
  tc : List Byte
  request : Option Word
  results : List (Option Word × List Byte)
  sent : Log
  recd : Log
  deriving DecidableEq

def eproto : ℤ := 71

def noHdr : Hdr := ⟨MsgId.unknown.code, 0⟩

namespace Client

def fail (t : Client) (ret : ℤ) : Client := { t with pc := .failed ret }

/-- `translator_hdr_send`. -/
def hdrSend (t : Client) (id : MsgId) (sz : ℕ) (next : WriteThen) : Client :=
  if t.lastHdr.id ≠ MsgId.unknown.code then t.fail (-eproto)
  else
    { t with
      pc := .writeFull (Hdr.of id sz).bytes next
      sent := t.sent.next (Hdr.of id sz) }

/-- The end of `translator_hdr_recv`, when `last_hdr` is there. -/
def hdrTake (t : Client) (id : MsgId) : ℤ × Client :=
  if t.lastHdr.id ≠ id.code then (-eproto, t)
  else (t.lastHdr.sz.toInt, { t with lastHdr := noHdr })

/-- The end of `translator_get_object`. -/
def objectDone (t : Client) (bytes : List Byte) : Client :=
  { t with
    pc := .running
    request := none
    results := t.results ++ [(t.request, bytes)] }

/-- `translator_get_object`, when `last_hdr` is there. -/
def getObject (t : Client) : Client :=
  let (sz, t) := t.hdrTake .sObject
  if sz < 0 then t.fail sz
  else if sz = 0 then t.objectDone []
  else { t with pc := .readFull [] sz.toNat .object }

/-- `translator_config_fetch`, the loop of `translator_get` and
`translator_get_object` when `last_hdr` is there. -/
def hdrDone (t : Client) : HdrUse → Client
  | .configFetch =>
      let (sz, t) := t.hdrTake .sInit
      if sz < 0 then t.fail sz
      else if sz ≠ 20 then t.fail (-eproto)
      else { t with pc := .readFull [] 20 .config }
  | .getObject => t.getObject
  | .getLoop =>
      let (sz, t) := t.hdrTake .sMemreq
      if sz = -eproto then
        if t.lastHdr.id = MsgId.unknown.code then
          { t with pc := .readFull [] 8 (.hdr .getObject) }
        else t.getObject
      else if sz < 0 then t.fail sz
      else if sz ≠ 16 then t.fail (-1)
      else { t with pc := .readFull [] 16 .memrq }

/-- `translator_hdr_recv`: a header that was pushed back is not read again. -/
def hdrRecv (t : Client) (use : HdrUse) : Client :=
  if t.lastHdr.id = MsgId.unknown.code then { t with pc := .readFull [] 8 (.hdr use) }
  else t.hdrDone use

/-- After a `write_full`. -/
def writeDone (t : Client) : WriteThen → Client
  | .initTsc => { t with pc := .writeFull t.tsc.bytes .configFetch }
  | .configFetch => t.hdrRecv .configFetch
  | .getAddr => { t with pc := .writeFull (leBytes 8 (t.request.getD 0#64).toNat) .getLoop }
  | .getLoop => t.hdrRecv .getLoop
  | .memPage addr bufSz => { t with pc := .page addr bufSz }
  | .memFailed failed => { t with pc := .writeFull [failed] .getLoop }

/-- A memory request: at most a page is sent. -/
def memRequest (t : Client) (bytes : List Byte) : Client :=
  let addr := BitVec.ofNat 64 (leNat (bytes.take 8))
  let bufSz := min (leNat (bytes.drop 8)) 0x1000
  t.hdrSend .cMembuf (bufSz + 1) (.memPage addr bufSz)

/-- After a `read_full`; once the configuration is there, `main` fetches the
initial object. -/
def readDone (t : Client) (bytes : List Byte) : ReadThen → Client
  | .hdr use =>
      hdrDone { t with
        lastHdr := Hdr.parse bytes
        recd := t.recd.last (Hdr.parse bytes) } use
  | .config => hdrRecv { t with tc := bytes } .getObject
  | .memrq => t.memRequest bytes
  | .object => t.objectDone bytes

/-- `translator_init`. -/
def init (tsc : IWServerConfig) : Client :=
  hdrSend ⟨.running, tsc, noHdr, [], none, [], ⟨0, []⟩, ⟨0, []⟩⟩ .cInit 20 .initTsc

/-- `translator_get`. -/
def get (t : Client) (addr : Word) : Client :=
  hdrSend { t with request := some addr } .cTranslate 8 .getAddr

end Client

/-! ## The server -/

/-- What follows an `fread` of the server. -/
inductive RecvThen where
  | initHdr
  | initConf
  | runHdr
  | addr
  | pageHdr (addr page : Word)
  | pageData (addr page : Word)
  | pageFailed (addr page : Word) (data : List Byte)
  deriving DecidableEq

/-- What follows an `fflush` of the server. -/
inductive FlushThen where
  | objectHdr (request : Option Word) (data : List Byte)
  | sendfile (data : List Byte)
  | recvPage (addr page : Word)
  | recvRun
  deriving DecidableEq

/-- Failed assertions of `Conn`. -/
inductive Abort where
  | unreadMessageParts
  | messageTooSmall
  | noMsgContent
  | msgTooLarge
  deriving DecidableEq

inductive ServerPc where
  /-- `fread` of `n` bytes with those that were read. -/
  | read (got : List Byte) (n : ℕ) (next : RecvThen)
  /-- Waiting in `fflush` for the buffer to become empty. -/
  | flush (next : FlushThen)
  /-- In `Sendfile` with the bytes that are left. -/
  | sendfile (rest : List Byte)
  /-- In `fns->init`. -/
  | init
  /-- In `fns->translate`. -/
  | translating (addr : Word)
  | aborted (why : Abort)
  | returned (code : ℤ)
  deriving DecidableEq

/-- `IWConnection` with its `Conn` and `RemoteMemory`; `out` is the buffer of
`file_wr`, `objects` the history of the objects sent. -/
structure Server where
  pc : ServerPc
  recvSz : BitVec 32
  out : List Byte
  iwcc : IWClientConfig
  needIwcc : Bool
  pageCache : List (Word × List Byte)
  objects : List (Option Word × List Byte)
  sent : Log
  recd : Log
  deriving DecidableEq

namespace Server

/-- `Conn::RecvMsg`, up to reading the header. -/
def recvMsg (s : Server) (next : RecvThen) : Server :=
  if s.recvSz ≠ 0 then { s with pc := .aborted .unreadMessageParts }
  else { s with pc := .read [] 8 next }

/-- `Conn::Read`, up to reading the bytes. -/
def connRead (s : Server) (n : ℕ) (next : RecvThen) : Server :=
  if (s.recvSz.signExtend 64).toNat < n then { s with pc := .aborted .messageTooSmall }
  else { s with pc := .read [] n next }

/-- `fwrite` of a header and of content behind it. -/
def fwriteHdr (s : Server) (id : MsgId) (size : ℕ) : Server :=
  { s with
    out := s.out ++ (Hdr.of id size).bytes
    sent := (s.sent.next (Hdr.of id size)).add 8 }

def fwrite (s : Server) (data : List Byte) : Server :=
  { s with
    out := s.out ++ data
    sent := s.sent.add data.length }

def intMax : ℕ := 0x7fffffff

/-- `SendObject` from the header of the object on. -/
def objectHdr (s : Server) (request : Option Word) (data : List Byte) : Server :=
  if intMax < data.length then { s with pc := .aborted .msgTooLarge }
  else
    { (s.fwriteHdr .sObject data.length).fwrite data with
      pc := .flush .recvRun
      objects := s.objects ++ [(request, data)] }

/-- `IWConnection::SendObject`. -/
def sendObject (s : Server) (request : Option Word) (data : List Byte) : Server :=
  if s.needIwcc then
    { (s.fwriteHdr .sInit 20).fwrite s.iwcc.bytes with
      pc := .flush (.objectHdr request data)
      needIwcc := false }
  else s.objectHdr request data

/-- `IWConnection::CacheProbe` when the object is in the cache. -/
def cacheHit (s : Server) (addr : Word) (data : List Byte) : Server :=
  if intMax < data.length then { s with pc := .aborted .msgTooLarge }
  else
    { s.fwriteHdr .sObject data.length with
      pc := .flush (.sendfile data)
      objects := s.objects ++ [(some addr, data)] }

/-- `RemoteMemory::GetPage`, up to the answer. -/
def getPage (s : Server) (addr page : Word) : Server :=
  if s.pageCache.any (fun entry => entry.1 == page) then s
  else
    { (s.fwriteHdr .sMemreq 16).fwrite
        (leBytes 8 page.toNat ++ leBytes 8 0x1000) with
      pc := .flush (.recvPage addr page) }

def flushDone (s : Server) : FlushThen → Server
  | .objectHdr request data => s.objectHdr request data
  | .sendfile data =>
      if data = [] then s.recvMsg .runHdr else { s with pc := .sendfile data }
  | .recvPage addr page => s.recvMsg (.pageHdr addr page)
  | .recvRun => s.recvMsg .runHdr

/-- `RecvMsg` has received a header. -/
def gotHdr (s : Server) (bytes : List Byte) : Server :=
  { s with
    recvSz := (Hdr.parse bytes).sz
    recd := s.recd.last (Hdr.parse bytes) }

/-- `Read` has received `n` bytes. -/
def gotBytes (s : Server) (n : ℕ) : Server := { s with recvSz := s.recvSz - BitVec.ofNat 32 n }

/-- What `Run` does with the id `RecvMsg` returns. -/
def runMsg (s : Server) (id : BitVec 32) : Server :=
  if id = MsgId.cExit.code then { s with pc := .returned 0 }
  else if id = MsgId.cTranslate.code then s.connRead 8 .addr
  else { s with pc := .returned 1 }

/-- After an `fread`. -/
def readDone (s : Server) (bytes : List Byte) : RecvThen → Server
  | .initHdr =>
      let s := s.gotHdr bytes
      if (Hdr.parse bytes).id ≠ MsgId.cInit.code then { s with pc := .returned 1 }
      else s.connRead 20 .initConf
  | .initConf =>
      { s.gotBytes 20 with
        pc := .init
        needIwcc := serverMode bytes = 0 }
  | .runHdr => (s.gotHdr bytes).runMsg (Hdr.parse bytes).id
  | .addr =>
      { s.gotBytes 8 with
        pc := .translating (BitVec.ofNat 64 (leNat bytes)) }
  | .pageHdr addr page =>
      let s := s.gotHdr bytes
      if (Hdr.parse bytes).id ≠ MsgId.cMembuf.code then { s with pc := .translating addr }
      else s.connRead 0x1000 (.pageData addr page)
  | .pageData addr page => (s.gotBytes 0x1000).connRead 1 (.pageFailed addr page bytes)
  | .pageFailed addr page data =>
      { s.gotBytes 1 with
        pc := .translating addr
        pageCache := if bytes = [0#8] then s.pageCache ++ [(page, data)] else s.pageCache }

/-- An `fread` meets the end of the file. -/
def readEof (s : Server) : RecvThen → Server
  | .initHdr => { s with pc := .returned 1 }
  | .runHdr => s.runMsg MsgId.cExit.code
  | .pageHdr addr _ => { s with pc := .translating addr }
  | _ => { s with pc := .aborted .noMsgContent }

end Server

/-! ## The session -/

/-- Both processes and what is in the pipes; `closed` when the client is gone. -/
structure Session where
  client : Client
  server : Server
  c2s : List Byte
  s2c : List Byte
  closed : Bool
  deriving DecidableEq

/-- What happens next.  `mem` is what a write of guest memory meets: the bytes,
or `-EFAULT` before any byte was written. -/
inductive Event where
  | clientWrote (n : ℕ)
  | clientRead (n : ℕ)
  | mem (page : Option (List Byte))
  | request (addr : Word)
  | exit
  | serverRead (n : ℕ)
  | serverEof
  | spill (n : ℕ)
  | sendfile (n : ℕ)
  | initObject (data : List Byte)
  | getPage (page : Word)
  | object (data : List Byte)
  | cached (data : List Byte)
  deriving DecidableEq

def start (tsc : IWServerConfig) (iwcc : IWClientConfig) : Session where
  client := Client.init tsc
  server := Server.recvMsg ⟨.init, 0, [], iwcc, false, [], [], ⟨0, []⟩, ⟨0, []⟩⟩ .initHdr
  c2s := []
  s2c := []
  closed := false

/-- A system call of the client. -/
def clientStep (σ : Session) : Event → Option Session
  | .clientWrote n =>
      match σ.client.pc with
      | .writeFull rest next =>
          if 0 < n ∧ n ≤ rest.length then
            let t := { σ.client with
              pc := .writeFull (rest.drop n) next
              sent := σ.client.sent.add n }
            some { σ with
              client := if rest.drop n = [] then t.writeDone next else t
              c2s := σ.c2s ++ rest.take n }
          else none
      | .pad left =>
          if n = 1 then
            let t := { σ.client with sent := σ.client.sent.add 1 }
            some { σ with
              client := { t with
                pc := if left ≤ 1 then .writeFull [1#8] .getLoop else .pad (left - 1) }
              c2s := σ.c2s ++ [0#8] }
          else none
      | _ => none
  | .clientRead n =>
      match σ.client.pc with
      | .readFull got size next =>
          if 0 < n ∧ n ≤ σ.s2c.length ∧ got.length + n ≤ size then
            let got := got ++ σ.s2c.take n
            let t := { σ.client with
              pc := .readFull got size next
              recd := σ.client.recd.add n }
            some { σ with
              client := if got.length = size then t.readDone got next else t
              s2c := σ.s2c.drop n }
          else none
      | _ => none
  | .mem page =>
      match σ.client.pc, page with
      | .page _ bufSz, some bytes =>
          if bytes.length = bufSz then
            some { σ with
              client := { σ.client with
                pc := if bytes = [] then .writeFull [0#8] .getLoop
                  else .writeFull bytes (.memFailed 0#8) } }
          else none
      | .page _ bufSz, none =>
          if 0 < bufSz then
            some { σ with client := { σ.client with pc := .pad bufSz } }
          else none
      | _, _ => none
  | .request addr =>
      match σ.client.pc with
      | .running => some { σ with client := σ.client.get addr }
      | _ => none
  | .exit =>
      match σ.client.pc with
      | .running =>
          some { σ with
            client := { σ.client with pc := .exited }
            closed := true }
      | _ => none
  | _ => none

/-- A system call of the server, or a decision of `init` or `translate`. -/
def serverStep (σ : Session) : Event → Option Session
  | .serverRead n =>
      match σ.server.pc with
      | .read got size next =>
          if 0 < n ∧ n ≤ σ.c2s.length ∧ got.length + n ≤ size then
            let got := got ++ σ.c2s.take n
            let s := { σ.server with
              pc := .read got size next
              recd := σ.server.recd.add n }
            some { σ with
              server := if got.length = size then s.readDone got next else s
              c2s := σ.c2s.drop n }
          else none
      | _ => none
  | .serverEof =>
      match σ.server.pc with
      | .read _ _ next =>
          if σ.closed ∧ σ.c2s = [] then some { σ with server := σ.server.readEof next }
          else none
      | _ => none
  | .spill n =>
      if 0 < n ∧ n ≤ σ.server.out.length then
        let s := { σ.server with out := σ.server.out.drop n }
        some { σ with
          server :=
            match s.pc with
            | .flush next => if s.out = [] then s.flushDone next else s
            | _ => s
          s2c := σ.s2c ++ σ.server.out.take n }
      else none
  | .sendfile n =>
      match σ.server.pc with
      | .sendfile rest =>
          if 0 < n ∧ n ≤ rest.length then
            let s := { σ.server with
              pc := .sendfile (rest.drop n)
              sent := σ.server.sent.add n }
            some { σ with
              server := if rest.drop n = [] then s.recvMsg .runHdr else s
              s2c := σ.s2c ++ rest.take n }
          else none
      | _ => none
  | .initObject data =>
      match σ.server.pc with
      | .init => some { σ with server := σ.server.sendObject none data }
      | _ => none
  | .getPage page =>
      match σ.server.pc with
      | .translating addr => some { σ with server := σ.server.getPage addr page }
      | _ => none
  | .object data =>
      match σ.server.pc with
      | .translating addr => some { σ with server := σ.server.sendObject (some addr) data }
      | _ => none
  | .cached data =>
      match σ.server.pc with
      | .translating addr => some { σ with server := σ.server.cacheHit addr data }
      | _ => none
  | _ => none

/-- A step of the session; every event is one of the client or of the server. -/
def step (σ : Session) (e : Event) : Option Session :=
  (clientStep σ e).orElse fun _ => serverStep σ e

end PollyInstrew.Protocol
