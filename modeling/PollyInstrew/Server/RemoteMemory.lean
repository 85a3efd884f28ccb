import Mathlib.Data.List.Nodup
import PollyInstrew.Client.Common
import PollyInstrew.Protocol.Session
import PollyInstrew.Support.StateExcept

/-!
# Reading guest memory from the server

`RemoteMemory::Get` copies a range of guest memory page by page.  Pages are
requested from the client and kept; a page the client cannot read ends the copy
and is requested again the next time.
-/

namespace PollyInstrew.Server

open PollyInstrew.ByteMemory PollyInstrew.StateExcept PollyInstrew.Shared PollyInstrew.Protocol

/-! ## The connection -/

/-- Content of a memory request. -/
structure MemReq where
  addr : Addr
  bufSz : Addr
  deriving DecidableEq

/-- `RemoteMemory` with the receiving side of its `Conn`: the messages that wait
in the pipe, the unread part of the current message and the requests sent. -/
structure Remote where
  pageCache : Addr → Option (List Byte)
  incoming : List (BitVec 32 × List Byte)
  unread : List Byte
  requests : List MemReq

/-- Why a call does not return. -/
inductive Stuck where
  | abort (why : Abort)
  | outOfFuel
  deriving DecidableEq

abbrev RemoteM := Prog Remote Stuck

/-- The message a client sends for a request, given the earlier requests. -/
abbrev MemClient := List MemReq → MemReq → BitVec 32 × List Byte

/-- `Conn::SendMsg` of a memory request, with the client's answer. -/
def sendMemReq (client : MemClient) (req : MemReq) : RemoteM Unit :=
  Prog.modify fun s =>
    { s with
      incoming := s.incoming ++ [client s.requests req]
      requests := s.requests ++ [req] }

/-- `Conn::RecvMsg`. -/
def recvMsg : RemoteM (BitVec 32) := do
  let s ← Prog.get
  if s.unread ≠ [] then
    Prog.fail (.abort .unreadMessageParts)
  else
    match s.incoming with
    | [] => return MsgId.cExit.code
    | msg :: rest => do
        Prog.modify fun s => { s with incoming := rest, unread := msg.2 }
        return msg.1

/-- `Conn::Read` of `n` bytes. -/
def connRead (n : ℕ) : RemoteM (List Byte) := do
  let s ← Prog.get
  if s.unread.length < n then
    Prog.fail (.abort .messageTooSmall)
  else do
    Prog.modify fun s => { s with unread := s.unread.drop n }
    return s.unread.take n

/-! ## Pages -/

/-- `PG_SIZE`. -/
def pgSize : Addr := 0x1000

/-- `RemoteMemory::GetPage`. -/
def getPage (client : MemClient) (pageAddr : Addr) : RemoteM (Option (List Byte)) := do
  let s ← Prog.get
  match s.pageCache pageAddr with
  | some page => return some page
  | none => do
      sendMemReq client ⟨pageAddr, pgSize⟩
      let msgid ← recvMsg
      if msgid ≠ MsgId.cMembuf.code then
        return none
      else do
        let page ← connRead pgSize.toNat
        let failed ← connRead 1
        if failed ≠ [0#8] then
          return none
        else do
          Prog.modify fun s =>
            { s with pageCache := Function.update s.pageCache pageAddr (some page) }
          return some page

/-- The loop of `Get` from page `cur` on, with `bytesWritten` bytes in the buffer
at `buf` of the server's memory `m`. -/
def getLoop (client : MemClient) (start endp buf : Addr) :
    ℕ → Addr → Addr → Mem → RemoteM (Addr × Mem)
  | 0, _, _, _ => Prog.fail .outOfFuel
  | fuel + 1, cur, bytesWritten, m =>
      if cur ≤ endp &&& ~~~(pgSize - 1) then do
        let page ← getPage client cur
        match page with
        | none => return (bytesWritten, m)
        | some page =>
            let startOff := if cur < start then start &&& (pgSize - 1) else 0#64
            let endOff := if endp < cur + pgSize then endp &&& (pgSize - 1) else pgSize
            getLoop client start endp buf fuel (cur + pgSize)
              (bytesWritten + (endOff - startOff))
              (writeBytes m (buf + bytesWritten)
                ((page.take endOff.toNat).drop startOff.toNat))
      else
        return (bytesWritten, m)

/-- `RemoteMemory::Get`: the number of bytes and the server's memory with the
buffer. -/
def get (client : MemClient) (fuel : ℕ) (start endp buf : Addr) (m : Mem) :
    RemoteM (Addr × Mem) :=
  getLoop client start endp buf fuel (start &&& ~~~(pgSize - 1)) 0#64 m

/-! ## The guest -/

/-- Unchanging guest memory whose topmost page is not readable. -/
structure GuestPages where
  page : Addr → Option (List Byte)
  length_eq : ∀ p bytes, page p = some bytes → bytes.length = 0x1000
  top : page 0xfffffffffffff000#64 = none

/-- The byte at an address. -/
def GuestPages.byte (g : GuestPages) (a : Addr) : Option Byte :=
  (g.page (a &&& ~~~(pgSize - 1))).bind fun bytes => bytes[(a &&& (pgSize - 1)).toNat]?

/-- A client that answers with the page of the guest, or says that reading it has
failed. -/
def Answers (g : GuestPages) (client : MemClient) : Prop :=
  ∀ requests p,
    match g.page p with
    | some bytes => client requests ⟨p, pgSize⟩ = (MsgId.cMembuf.code, bytes ++ [0#8])
    | none => ∃ bytes failed, bytes.length = 0x1000 ∧ failed ≠ 0#8 ∧
        client requests ⟨p, pgSize⟩ = (MsgId.cMembuf.code, bytes ++ [failed])

/-- `n` bytes of `[start, endp)` come before the first page that is not readable. -/
structure ReadableLength (g : GuestPages) (start endp : Addr) (n : ℕ) : Prop where
  le : n ≤ endp.toNat - start.toNat
  readable : ∀ k < n, (g.byte (start + BitVec.ofNat 64 k)).isSome
  stops : n < endp.toNat - start.toNat → g.byte (start + BitVec.ofNat 64 n) = none

/-- Page `p` is accessed by a copy that has come to page `cur`: the pages from
`cur` up to `p` are readable. -/
def Visits (g : GuestPages) (cur endp p : Addr) : Prop :=
  ∃ i, p.toNat = cur.toNat + 0x1000 * i ∧ p.toNat ≤ endp.toNat ∧
    ∀ j < i, g.page (cur + BitVec.ofNat 64 (0x1000 * j)) ≠ none

/-- Between calls no message is pending, the cache holds pages of the guest, and
exactly the readable pages that are not in it have not been requested. -/
structure Synced (g : GuestPages) (s : Remote) : Prop where
  incoming_eq : s.incoming = []
  unread_eq : s.unread = []
  cached : ∀ p bytes, s.pageCache p = some bytes → g.page p = some bytes
  requested : ∀ p, g.page p ≠ none →
    s.requests.count ⟨p, pgSize⟩ = if s.pageCache p = none then 0 else 1

/-! ## One page -/

section Conn

variable {cache : Addr → Option (List Byte)} {incoming : List (BitVec 32 × List Byte)}
  {requests : List MemReq}

theorem run_recvMsg (id : BitVec 32) (content : List Byte) :
    recvMsg.run ⟨cache, (id, content) :: incoming, [], requests⟩ =
      (.ok id, ⟨cache, incoming, content, requests⟩) := by
  simp [recvMsg, Prog.run_bind]

theorem run_connRead {n : ℕ} {xs : List Byte} (hlen : xs.length = n) (ys : List Byte) :
    (connRead n).run ⟨cache, incoming, xs ++ ys, requests⟩ =
      (.ok xs, ⟨cache, incoming, ys, requests⟩) := by
  have hle : ¬(xs ++ ys).length < n := by
    rw [List.length_append]
    omega
  simp only [connRead, Prog.run_bind, Prog.run_get, if_neg hle, Prog.run_modify, Prog.run_pure]
  rw [List.take_left' hlen, List.drop_left' hlen]

end Conn

section OnePage

variable {g : GuestPages} {client : MemClient} (hclient : Answers g client) {s : Remote}
  (hs : Synced g s)
include hs

/-- The state after page `p`, which was not cached, has been requested and
received. -/
theorem Synced.request {p : Addr} (hcache : s.pageCache p = none) :
    Synced g ⟨Function.update s.pageCache p (g.page p), [], [],
      s.requests ++ [⟨p, pgSize⟩]⟩ := by
  refine ⟨rfl, rfl, ?_, ?_⟩
  · intro q bytes hq
    by_cases hqp : q = p
    · subst hqp
      simpa using hq
    · exact hs.cached q bytes (by simpa [hqp] using hq)
  · intro q hq
    have hcount := hs.requested q hq
    by_cases hqp : q = p
    · subst hqp
      rw [if_pos hcache] at hcount
      simp [hcount, hq]
    · have hne : (⟨p, pgSize⟩ : MemReq) ≠ ⟨q, pgSize⟩ := fun h => hqp (MemReq.mk.inj h).1.symm
      simp [hcount, hqp, hne]

include hclient

/-- What `GetPage` receives for a page that is not cached. -/
theorem getPage_request {p : Addr} (hcache : s.pageCache p = none) :
    (getPage client p).run s = (.ok (g.page p), ⟨Function.update s.pageCache p (g.page p), [], [],
      s.requests ++ [⟨p, pgSize⟩]⟩) := by
  have hans := hclient s.requests p
  have hreply : ∀ bytes failed, bytes.length = 0x1000 →
      client s.requests ⟨p, pgSize⟩ = (MsgId.cMembuf.code, bytes ++ [failed]) →
      (getPage client p).run s = (.ok (if failed = 0#8 then some bytes else none),
        ⟨if failed = 0#8 then Function.update s.pageCache p (some bytes) else s.pageCache, [], [],
          s.requests ++ [⟨p, pgSize⟩]⟩) := by
    intro bytes failed hlen heq
    rw [getPage, Prog.run_bind, Prog.run_get]
    dsimp only
    rw [hcache]
    dsimp only
    rw [Prog.run_bind, sendMemReq, Prog.run_modify]
    dsimp only
    rw [hs.incoming_eq, hs.unread_eq, heq, List.nil_append,
      Prog.run_bind_of_ok (run_recvMsg _ _), if_neg (not_not.mpr rfl),
      Prog.run_bind_of_ok (run_connRead (n := pgSize.toNat) hlen _),
      ← List.append_nil [failed], Prog.run_bind_of_ok (run_connRead (n := 1) rfl _)]
    by_cases hfailed : failed = 0#8
    · subst hfailed
      rfl
    · rw [if_pos (fun h => hfailed (List.head_eq_of_cons_eq h)), if_neg hfailed, if_neg hfailed]
      rfl
  cases hpage : g.page p with
  | some bytes =>
      rw [hpage] at hans
      exact hreply bytes 0#8 (g.length_eq p bytes hpage) hans
  | none =>
      rw [hpage] at hans
      obtain ⟨bytes, failed, hlen, hfailed, heq⟩ := hans
      have hupdate : Function.update s.pageCache p none = s.pageCache := by
        rw [← hcache, Function.update_eq_self]
      rw [hupdate]
      simpa [hfailed] using hreply bytes failed hlen heq

/-- `GetPage` returns the page of the guest and requests it if it is not cached. -/
theorem getPage_ok (p : Addr) :
    ∃ s', (getPage client p).run s = (.ok (g.page p), s') ∧ Synced g s' ∧
      s'.requests = s.requests ++ (if s.pageCache p = none then [⟨p, pgSize⟩] else []) ∧
      s'.pageCache = Function.update s.pageCache p (g.page p) := by
  cases hcache : s.pageCache p with
  | some bytes =>
      have hpage := hs.cached p bytes hcache
      refine ⟨s, ?_, hs, by simp, ?_⟩
      · simp only [getPage, Prog.run_bind, Prog.run_get, hcache, hpage]
        rfl
      · rw [hpage, ← hcache, Function.update_eq_self]
  | none => exact ⟨_, getPage_request hclient hs hcache, hs.request hcache, by simp, rfl⟩

end OnePage

/-! ## Addresses and pages -/

theorem pageAddr_toNat (a : Addr) :
    (a &&& ~~~(pgSize - 1)).toNat = a.toNat - a.toNat % 0x1000 :=
  Client.alignDown_toNat (k := 12) (a := pgSize) rfl a

theorem pageOff_toNat (a : Addr) : (a &&& (pgSize - 1)).toNat = a.toNat % 0x1000 :=
  Client.and_sub_one_toNat (k := 12) (a := pgSize) rfl a

/-- The byte at offset `o` of a page. -/
theorem GuestPages.byte_eq (g : GuestPages) {cur a : Addr} {o : ℕ} (hcur : cur.toNat % 0x1000 = 0)
    (ha : a.toNat = cur.toNat + o) (ho : o < 0x1000) :
    g.byte a = (g.page cur).bind fun bytes => bytes[o]? := by
  have hpage : a &&& ~~~(pgSize - 1) = cur := by
    apply BitVec.eq_of_toNat_eq
    rw [pageAddr_toNat]
    omega
  have hoff : (a &&& (pgSize - 1)).toNat = o := by
    rw [pageOff_toNat]
    omega
  rw [GuestPages.byte, hpage, hoff]

/-- After a readable page there is another one. -/
theorem GuestPages.next_toNat (g : GuestPages) {cur : Addr} (hcur : cur.toNat % 0x1000 = 0)
    (hpage : g.page cur ≠ none) :
    cur.toNat + 0x1000 < 2 ^ 64 ∧ (cur + pgSize).toNat = cur.toNat + 0x1000 := by
  have hne : cur.toNat ≠ 0xfffffffffffff000 := by
    intro h
    have : cur = 0xfffffffffffff000#64 := BitVec.eq_of_toNat_eq h
    exact hpage (this ▸ g.top)
  have hlt := cur.isLt
  have hsz : pgSize.toNat = 0x1000 := rfl
  rw [BitVec.toNat_add, hsz]
  omega

section Visits

variable {g : GuestPages} {cur endp : Addr}

theorem not_visits (h : endp.toNat < cur.toNat) (p : Addr) : ¬Visits g cur endp p := by
  rintro ⟨i, hp, hle, -⟩
  omega

theorem visits_of_unreadable (hpage : g.page cur = none) (hle : cur.toNat ≤ endp.toNat)
    (p : Addr) : Visits g cur endp p ↔ p = cur := by
  constructor
  · rintro ⟨i, hp, -, hread⟩
    cases i with
    | zero => exact BitVec.eq_of_toNat_eq hp
    | succ i =>
        have h0 := hread 0 (Nat.succ_pos i)
        rw [Nat.mul_zero, BitVec.add_zero] at h0
        exact absurd hpage h0
  · rintro rfl
    exact ⟨0, rfl, hle, nofun⟩

theorem visits_of_readable (hcur : cur.toNat % 0x1000 = 0) (hpage : g.page cur ≠ none)
    (hle : cur.toNat ≤ endp.toNat) (p : Addr) :
    Visits g cur endp p ↔ p = cur ∨ Visits g (cur + pgSize) endp p := by
  obtain ⟨-, hnext⟩ := g.next_toNat hcur hpage
  have hshift : ∀ j, cur + BitVec.ofNat 64 (0x1000 * (j + 1)) =
      cur + pgSize + BitVec.ofNat 64 (0x1000 * j) := by
    intro j
    rw [Nat.mul_succ, Nat.add_comm, BitVec.ofNat_add, ← BitVec.add_assoc]
    rfl
  constructor
  · rintro ⟨i, hp, hpe, hread⟩
    cases i with
    | zero => exact Or.inl (BitVec.eq_of_toNat_eq hp)
    | succ i =>
        refine Or.inr ⟨i, by omega, hpe, fun j hj => ?_⟩
        rw [← hshift]
        exact hread (j + 1) (by omega)
  · rintro (rfl | ⟨i, hp, hpe, hread⟩)
    · exact ⟨0, rfl, hle, nofun⟩
    · refine ⟨i + 1, by omega, hpe, fun j hj => ?_⟩
      cases j with
      | zero =>
          rw [Nat.mul_zero, BitVec.add_zero]
          exact hpage
      | succ j =>
          rw [hshift]
          exact hread j (by omega)

end Visits

/-! ## The copy -/

/-- The first `n` bytes at `buf` are those of the guest at `start`; nothing else
has changed since `m₀`. -/
structure Copied (g : GuestPages) (start buf : Addr) (m₀ : Mem) (n : ℕ) (m : Mem) : Prop where
  bytes : ∀ k < n, g.byte (start + BitVec.ofNat 64 k) = some (m (buf + BitVec.ofNat 64 k))
  frame : ∀ x, ¬InRange buf n x → m x = m₀ x

theorem Copied.append {g : GuestPages} {start buf : Addr} {m₀ m : Mem} {n : ℕ}
    (h : Copied g start buf m₀ n m) {chunk : List Byte} (hlen : n + chunk.length ≤ 2 ^ 64)
    (hchunk : ∀ k < chunk.length, g.byte (start + BitVec.ofNat 64 (n + k)) = chunk[k]?) :
    Copied g start buf m₀ (n + chunk.length) (writeBytes m (buf + BitVec.ofNat 64 n) chunk) := by
  have hrange : ∀ x, InRange (buf + BitVec.ofNat 64 n) chunk.length x →
      n ≤ (x - buf).toNat ∧ (x - buf).toNat < n + chunk.length := by
    intro x hx
    have hd := (x - buf).isLt
    unfold InRange at hx
    rw [← BitVec.sub_sub, BitVec.toNat_sub, BitVec.toNat_ofNat] at hx
    omega
  constructor
  · intro k hk
    by_cases hkn : k < n
    · have hd : (buf + BitVec.ofNat 64 k - buf).toNat = k := by
        rw [BitVec.add_comm, BitVec.add_sub_cancel, BitVec.toNat_ofNat]
        omega
      rw [writeBytes_of_not_inRange fun hx => absurd (hrange _ hx).1 (by omega)]
      exact h.bytes k hkn
    · obtain ⟨j, rfl⟩ := Nat.exists_eq_add_of_le (Nat.le_of_not_lt hkn)
      have hj : j < chunk.length := by omega
      rw [hchunk j hj, BitVec.ofNat_add, ← BitVec.add_assoc, writeBytes_add hj (by omega)]
      exact List.getElem?_eq_getElem hj
  · intro x hx
    unfold InRange at hx
    rw [writeBytes_of_not_inRange fun h => hx (hrange x h).2]
    refine h.frame x fun hn => hx ?_
    unfold InRange at hn
    omega

/-- What one iteration copies. -/
theorem chunk_ok {g : GuestPages} {start endp cur n : Addr} {bytes : List Byte}
    (hle : start.toNat ≤ endp.toNat) (hcur : cur.toNat % 0x1000 = 0)
    (hpage : g.page cur = some bytes) (hstart : start.toNat < cur.toNat + 0x1000)
    (hend : cur.toNat ≤ endp.toNat) (hn : n.toNat = cur.toNat - start.toNat)
    {startOff endOff : Addr}
    (hso : startOff = if cur < start then start &&& (pgSize - 1) else 0#64)
    (heo : endOff = if endp < cur + pgSize then endp &&& (pgSize - 1) else pgSize) :
    n.toNat + ((bytes.take endOff.toNat).drop startOff.toNat).length =
        min (cur.toNat + 0x1000) endp.toNat - start.toNat ∧
      (n + (endOff - startOff)).toNat =
        min (cur.toNat + 0x1000) endp.toNat - start.toNat ∧
      ∀ k < ((bytes.take endOff.toNat).drop startOff.toNat).length,
        g.byte (start + BitVec.ofNat 64 (n.toNat + k)) =
          ((bytes.take endOff.toNat).drop startOff.toNat)[k]? := by
  obtain ⟨hlt, hnext⟩ := g.next_toNat hcur (by rw [hpage]; exact nofun)
  have hlen := g.length_eq cur bytes hpage
  have hstartOff : startOff.toNat = start.toNat - cur.toNat := by
    rw [hso]
    split
    · next h =>
      rw [BitVec.lt_def] at h
      rw [pageOff_toNat]
      omega
    · next h =>
      rw [BitVec.lt_def] at h
      rw [BitVec.toNat_ofNat]
      omega
  have hendOff : endOff.toNat = min 0x1000 (endp.toNat - cur.toNat) := by
    have hsz : pgSize.toNat = 0x1000 := rfl
    rw [heo]
    split
    · next h =>
      rw [BitVec.lt_def, hnext] at h
      rw [pageOff_toNat]
      omega
    · next h =>
      rw [BitVec.lt_def, hnext] at h
      omega
  have hchunk : ((bytes.take endOff.toNat).drop startOff.toNat).length =
      endOff.toNat - startOff.toNat := by
    rw [List.length_drop, List.length_take]
    omega
  refine ⟨by omega, ?_, ?_⟩
  · rw [BitVec.toNat_add, BitVec.toNat_sub]
    omega
  · intro k hk
    rw [hchunk] at hk
    have haddr : (start + BitVec.ofNat 64 (n.toNat + k)).toNat =
        cur.toNat + (startOff.toNat + k) := by
      rw [BitVec.toNat_add, BitVec.toNat_ofNat]
      omega
    rw [g.byte_eq hcur haddr (by omega), hpage, List.getElem?_drop, List.getElem?_take,
      if_pos (by omega)]
    rfl

/-- The result of a copy that was in state `s` when it came to page `cur`: the
bytes, and the requests `new` it has made. -/
structure GetResult (g : GuestPages) (start endp buf : Addr) (m₀ : Mem) (cur : Addr) (s : Remote)
    (n : Addr) (m : Mem) (s' : Remote) (new : List MemReq) : Prop where
  length : ReadableLength g start endp n.toNat
  copied : Copied g start buf m₀ n.toNat m
  synced : Synced g s'
  requests_eq : s'.requests = s.requests ++ new
  nodup : new.Nodup
  mem_new : ∀ r, r ∈ new ↔ ∃ p, r = ⟨p, pgSize⟩ ∧ Visits g cur endp p ∧ s.pageCache p = none
  visited : ∀ p, Visits g cur endp p → s'.pageCache p = g.page p
  other : ∀ p, ¬Visits g cur endp p → s'.pageCache p = s.pageCache p

section Loop

variable {g : GuestPages} {start endp buf cur n : Addr} {m₀ m : Mem} {s s₁ : Remote}
  (hmod : cur.toNat % 0x1000 = 0) (hstart : start.toNat < cur.toNat + 0x1000)
  (hn : n.toNat = min cur.toNat endp.toNat - start.toNat)
  (hcopied : Copied g start buf m₀ n.toNat m)
include hn hcopied

/-- The loop has passed the last page. -/
theorem getResult_past (hs : Synced g s) (hpast : endp.toNat < cur.toNat) :
    GetResult g start endp buf m₀ cur s n m s [] where
  length := by
    refine ⟨by omega, fun k hk => ?_, by omega⟩
    rw [hcopied.bytes k hk]
    rfl
  copied := hcopied
  synced := hs
  requests_eq := (List.append_nil _).symm
  nodup := List.nodup_nil
  mem_new := by
    intro r
    refine ⟨nofun, ?_⟩
    rintro ⟨p, -, hvisit, -⟩
    exact absurd hvisit (not_visits hpast p)
  visited := fun p hvisit => absurd hvisit (not_visits hpast p)
  other := fun _ _ => rfl

include hmod hstart

/-- Page `cur` is not readable. -/
theorem getResult_unreadable (hpage : g.page cur = none) (hle : start.toNat ≤ endp.toNat)
    (hend : cur.toNat ≤ endp.toNat) (hs : s.pageCache cur = none) (hs₁ : Synced g s₁)
    (hreq : s₁.requests = s.requests ++ [⟨cur, pgSize⟩]) (hcache : s₁.pageCache = s.pageCache) :
    GetResult g start endp buf m₀ cur s n m s₁ [⟨cur, pgSize⟩] where
  length := by
    refine ⟨by omega, fun k hk => ?_, fun _ => ?_⟩
    · rw [hcopied.bytes k hk]
      rfl
    · have hlt := endp.isLt
      have haddr : (start + BitVec.ofNat 64 n.toNat).toNat =
          cur.toNat + (start.toNat - cur.toNat) := by
        rw [BitVec.toNat_add, BitVec.toNat_ofNat]
        omega
      rw [g.byte_eq hmod haddr (by omega), hpage]
      rfl
  copied := hcopied
  synced := hs₁
  requests_eq := hreq
  nodup := by simp
  mem_new := by
    intro r
    rw [List.mem_singleton]
    constructor
    · rintro rfl
      exact ⟨cur, rfl, (visits_of_unreadable hpage hend cur).mpr rfl, hs⟩
    · rintro ⟨p, rfl, hvisit, -⟩
      rw [(visits_of_unreadable hpage hend p).mp hvisit]
  visited := by
    intro p hvisit
    rw [(visits_of_unreadable hpage hend p).mp hvisit, hcache, hpage, hs]
  other := fun _ _ => by rw [hcache]

end Loop

/-- Page `cur` is readable, and the copy goes on with the next one. -/
theorem GetResult.prepend {g : GuestPages} {start endp buf cur n : Addr} {m₀ m : Mem}
    {s s₁ s' : Remote} {new : List MemReq} (hmod : cur.toNat % 0x1000 = 0)
    (hpage : g.page cur ≠ none) (hend : cur.toNat ≤ endp.toNat)
    (h : GetResult g start endp buf m₀ (cur + pgSize) s₁ n m s' new)
    (hreq : s₁.requests =
      s.requests ++ (if s.pageCache cur = none then [⟨cur, pgSize⟩] else []))
    (hcache : s₁.pageCache = Function.update s.pageCache cur (g.page cur)) :
    GetResult g start endp buf m₀ cur s n m s'
      ((if s.pageCache cur = none then [⟨cur, pgSize⟩] else []) ++ new) := by
  obtain ⟨hlt, hnext⟩ := g.next_toNat hmod hpage
  have hne : ∀ p, Visits g (cur + pgSize) endp p → p ≠ cur := by
    rintro p ⟨i, hp, -⟩ rfl
    omega
  have hvisits := visits_of_readable hmod hpage hend
  refine ⟨h.length, h.copied, h.synced, ?_, ?_, ?_, ?_, ?_⟩
  · rw [h.requests_eq, hreq, List.append_assoc]
  · rw [List.nodup_append]
    refine ⟨by split <;> simp, h.nodup, ?_⟩
    intro r hr r' hr' heq
    subst heq
    obtain ⟨p, rfl, hvisit, -⟩ := (h.mem_new r).mp hr'
    split at hr
    · exact hne p hvisit (MemReq.mk.inj (List.mem_singleton.mp hr)).1
    · exact absurd hr (List.not_mem_nil)
  · intro r
    rw [List.mem_append, h.mem_new]
    constructor
    · rintro (hr | ⟨p, rfl, hvisit, hp⟩)
      · split at hr
        · next hnone =>
          exact ⟨cur, List.mem_singleton.mp hr, (hvisits cur).mpr (Or.inl rfl), hnone⟩
        · exact absurd hr (List.not_mem_nil)
      · refine ⟨p, rfl, (hvisits p).mpr (Or.inr hvisit), ?_⟩
        rwa [hcache, Function.update_of_ne (hne p hvisit)] at hp
    · rintro ⟨p, rfl, hvisit, hp⟩
      rcases (hvisits p).mp hvisit with rfl | hvisit
      · rw [if_pos hp]
        exact Or.inl (List.mem_singleton.mpr rfl)
      · refine Or.inr ⟨p, rfl, hvisit, ?_⟩
        rw [hcache, Function.update_of_ne (hne p hvisit)]
        exact hp
  · intro p hvisit
    by_cases hrest : Visits g (cur + pgSize) endp p
    · exact h.visited p hrest
    · rw [h.other p hrest, hcache, ((hvisits p).mp hvisit).resolve_right hrest,
        Function.update_self]
  · intro p hvisit
    rw [h.other p fun hrest => hvisit ((hvisits p).mpr (Or.inr hrest)), hcache,
      Function.update_of_ne fun heq => hvisit ((hvisits p).mpr (Or.inl heq))]

/-- The loop from page `cur` on, with what is before it copied. -/
theorem getLoop_ok {g : GuestPages} {client : MemClient} (hclient : Answers g client)
    {start endp buf : Addr} (hle : start.toNat ≤ endp.toNat) {m₀ : Mem} :
    ∀ (k : ℕ) {cur n : Addr} {m : Mem} {s : Remote}, cur.toNat % 0x1000 = 0 →
      start.toNat < cur.toNat + 0x1000 → endp.toNat + 0x1000 < cur.toNat + 0x1000 * k →
      cur.toNat ≤ endp.toNat + 0x1000 →
      n.toNat = min cur.toNat endp.toNat - start.toNat → Copied g start buf m₀ n.toNat m →
      Synced g s →
      ∃ n' m' s' new, (∀ fuel ≥ k, (getLoop client start endp buf fuel cur n m).run s =
          (.ok (n', m'), s')) ∧ GetResult g start endp buf m₀ cur s n' m' s' new := by
  intro k
  induction k with
  | zero =>
      intro cur n m s _ _ hfuel hcur
      omega
  | succ k ih =>
      intro cur n m s hmod hstart hfuel hend hn hcopied hs
      have hcond : cur ≤ endp &&& ~~~(pgSize - 1) ↔ cur.toNat ≤ endp.toNat := by
        rw [BitVec.le_def, pageAddr_toNat]
        omega
      by_cases hpast : cur.toNat ≤ endp.toNat
      · obtain ⟨s₁, hrun, hs₁, hreq₁, hcache₁⟩ := getPage_ok hclient hs cur
        cases hpage : g.page cur with
        | none =>
            rw [hpage] at hrun hcache₁
            have hnone : s.pageCache cur = none := by
              cases hc : s.pageCache cur with
              | none => rfl
              | some bytes => exact absurd (hs.cached cur bytes hc) (by rw [hpage]; exact nofun)
            rw [if_pos hnone] at hreq₁
            rw [← hnone, Function.update_eq_self] at hcache₁
            refine ⟨n, m, s₁, _, ?_, getResult_unreadable hmod hstart hn hcopied hpage hle hpast
              hnone hs₁ hreq₁ hcache₁⟩
            intro fuel hfuel
            obtain ⟨fuel, rfl⟩ := Nat.exists_eq_add_of_le' (Nat.le_trans (Nat.succ_pos k) hfuel)
            rw [getLoop, if_pos (hcond.mpr hpast), Prog.run_bind_of_ok hrun]
            rfl
        | some bytes =>
            have hne : g.page cur ≠ none := by
              rw [hpage]
              exact nofun
            obtain ⟨hlt, hnext⟩ := g.next_toNat hmod hne
            obtain ⟨hlen, hn', hchunk⟩ :=
              chunk_ok (n := n) hle hmod hpage hstart hpast (by omega) rfl rfl
            have hcopied' := hcopied.append (by omega) hchunk
            rw [hlen, ← hn'] at hcopied'
            rw [BitVec.ofNat_toNat, BitVec.setWidth_eq] at hcopied'
            have hmod' : (cur + pgSize).toNat % 4096 = 0 := by omega
            obtain ⟨n', m', s', new, hrest, hres⟩ := ih hmod' (by omega) (by omega) (by omega)
              (by rw [hn', hnext]) hcopied' hs₁
            refine ⟨n', m', s', _, ?_, hres.prepend hmod hne hpast hreq₁ hcache₁⟩
            intro fuel hfuel
            obtain ⟨fuel, rfl⟩ := Nat.exists_eq_add_of_le' (Nat.le_trans (Nat.succ_pos k) hfuel)
            rw [hpage] at hrun
            rw [getLoop, if_pos (hcond.mpr hpast), Prog.run_bind_of_ok hrun]
            exact hrest fuel (by omega)
      · refine ⟨n, m, s, [], ?_, getResult_past hn hcopied hs (by omega)⟩
        intro fuel hfuel
        obtain ⟨fuel, rfl⟩ := Nat.exists_eq_add_of_le' (Nat.le_trans (Nat.succ_pos k) hfuel)
        rw [getLoop, if_neg fun h => hpast (hcond.mp h)]
        rfl

/-! ## Sequences of calls -/

/-- The states between the calls of `Get`, of any sequence of them. -/
inductive RemoteReach (client : MemClient) : Remote → Prop
  | init : RemoteReach client ⟨fun _ => none, [], [], []⟩
  | get {s s' : Remote} {fuel : ℕ} {start endp buf n : Addr} {m m' : Mem}
      (hs : RemoteReach client s) (hle : start ≤ endp)
      (hrun : (get client fuel start endp buf m).run s = (.ok (n, m'), s')) :
      RemoteReach client s'

/-- More iterations than a copy needs change nothing. -/
theorem getLoop_mono {client : MemClient} {start endp buf : Addr} :
    ∀ {fuel fuel' : ℕ} {cur n : Addr} {m : Mem} {s s' : Remote} {r : Addr × Mem}, fuel ≤ fuel' →
      (getLoop client start endp buf fuel cur n m).run s = (.ok r, s') →
      (getLoop client start endp buf fuel' cur n m).run s = (.ok r, s') := by
  intro fuel
  induction fuel with
  | zero =>
      intro fuel' cur n m s s' r _ hrun
      exact absurd (Prod.mk.inj hrun).1 nofun
  | succ fuel ih =>
      intro fuel' cur n m s s' r hle hrun
      obtain ⟨fuel', rfl⟩ := Nat.exists_eq_add_of_le' (Nat.le_trans (Nat.succ_pos fuel) hle)
      rw [getLoop] at hrun ⊢
      by_cases hcond : cur ≤ endp &&& ~~~(pgSize - 1)
      · rw [if_pos hcond] at hrun ⊢
        obtain ⟨page, s₁, hpage, hrun⟩ := Prog.run_bind_eq_ok.mp hrun
        rw [Prog.run_bind_of_ok hpage]
        cases page with
        | none => exact hrun
        | some bytes => exact ih (by omega) hrun
      · rw [if_neg hcond] at hrun ⊢
        exact hrun

/-- One call; a page takes one iteration. -/
theorem get_ok {g : GuestPages} {client : MemClient} (hclient : Answers g client) {s : Remote}
    (hs : Synced g s) {start endp : Addr} (hle : start ≤ endp) (buf : Addr) (m : Mem) :
    ∃ n m' s' new, (∀ fuel, endp.toNat / 0x1000 + 2 ≤ fuel + start.toNat / 0x1000 →
        (get client fuel start endp buf m).run s = (.ok (n, m'), s')) ∧
      GetResult g start endp buf m (start &&& ~~~(pgSize - 1)) s n m' s' new := by
  rw [BitVec.le_def] at hle
  have hpage := pageAddr_toNat start
  have hmod : (start &&& ~~~(pgSize - 1)).toNat % 0x1000 = 0 := by omega
  have hempty : Copied g start buf m (0#64).toNat m := ⟨nofun, fun _ _ => rfl⟩
  obtain ⟨n, m', s', new, hrun, hres⟩ := getLoop_ok hclient hle
    (endp.toNat / 0x1000 + 2 - start.toNat / 0x1000) hmod (by omega) (by omega) (by omega)
    (by rw [BitVec.toNat_ofNat]; omega) hempty hs
  exact ⟨n, m', s', new, fun fuel hfuel => hrun fuel (by omega), hres⟩

theorem RemoteReach.synced {g : GuestPages} {client : MemClient} (hclient : Answers g client)
    {s : Remote} (h : RemoteReach client s) : Synced g s := by
  induction h with
  | init =>
      refine ⟨rfl, rfl, nofun, fun p hp => ?_⟩
      rw [if_pos rfl]
      rfl
  | @get s s' fuel start endp buf n m m' _ hle hrun ih =>
      obtain ⟨n₁, m₁, s₁, new, hrun₁, hres⟩ := get_ok hclient ih hle buf m
      have hsame := getLoop_mono (Nat.le_add_right fuel (endp.toNat / 0x1000 + 2)) hrun
      have heq := (hrun₁ _ (by omega)).symm.trans hsame
      rw [← (Prod.mk.inj heq).2]
      exact hres.synced

/-- After any sequence of calls, a call terminates and copies the bytes before the
first page that is not readable.  It requests the pages it visits that it does not
have yet, so no page is requested after it was received, and a page that is not
readable is requested on every visit. -/
theorem get_reads_guest {g : GuestPages} {client : MemClient} (hclient : Answers g client)
    {s : Remote} (hs : RemoteReach client s) {start endp : Addr} (hle : start ≤ endp)
    (buf : Addr) (m : Mem) :
    ∃ n m' s' new, (∀ fuel, endp.toNat / 0x1000 + 2 ≤ fuel + start.toNat / 0x1000 →
        (get client fuel start endp buf m).run s = (.ok (n, m'), s')) ∧
      ReadableLength g start endp n.toNat ∧
      (readBytes m' buf n.toNat).map some =
        (List.range n.toNat).map (fun k => g.byte (start + BitVec.ofNat 64 k)) ∧
      (∀ x, ¬InRange buf n.toNat x → m' x = m x) ∧
      s'.requests = s.requests ++ new ∧
      (∀ p, ⟨p, pgSize⟩ ∈ new ↔
        Visits g (start &&& ~~~(pgSize - 1)) endp p ∧ s.pageCache p = none) ∧
      (∀ p, g.page p ≠ none → s'.requests.count ⟨p, pgSize⟩ ≤ 1) ∧
      ∀ p, g.page p = none → Visits g (start &&& ~~~(pgSize - 1)) endp p →
        new.count ⟨p, pgSize⟩ = 1 := by
  have hsync := hs.synced hclient
  obtain ⟨n, m', s', new, hrun, hres⟩ := get_ok hclient hsync hle buf m
  have hnew : ∀ p, ⟨p, pgSize⟩ ∈ new ↔
      Visits g (start &&& ~~~(pgSize - 1)) endp p ∧ s.pageCache p = none := by
    intro p
    rw [hres.mem_new]
    constructor
    · rintro ⟨q, heq, hq⟩
      rw [(MemReq.mk.inj heq).1]
      exact hq
    · exact fun hp => ⟨p, rfl, hp⟩
  refine ⟨n, m', s', new, hrun, hres.length, ?_, hres.copied.frame, hres.requests_eq, hnew, ?_, ?_⟩
  · rw [readBytes, List.map_map]
    apply List.map_congr_left
    intro k hk
    exact (hres.copied.bytes k (List.mem_range.mp hk)).symm
  · intro p hp
    rw [hres.synced.requested p hp]
    split <;> decide
  · intro p hp hvisit
    have hnone : s.pageCache p = none := by
      cases hc : s.pageCache p with
      | none => rfl
      | some bytes => exact absurd (hsync.cached p bytes hc) (by simp [hp])
    exact List.count_eq_one_of_mem hres.nodup ((hnew p).mpr ⟨hvisit, hnone⟩)

/-- A guest with a single page, at `0x1000`, and a client for it. -/
def onePage : GuestPages where
  page := fun p => if p = 0x1000#64 then some (List.replicate 0x1000 0x90#8) else none
  length_eq := by
    intro p bytes h
    split at h
    · rw [← Option.some.inj h]
      exact List.length_replicate
    · exact absurd h nofun
  top := by decide

def onePageClient : MemClient := fun _ req =>
  match onePage.page req.addr with
  | some bytes => (MsgId.cMembuf.code, bytes ++ [0#8])
  | none => (MsgId.cMembuf.code, List.replicate 0x1000 0#8 ++ [1#8])

theorem answers_onePageClient : Answers onePage onePageClient := by
  intro requests p
  cases h : onePage.page p with
  | some bytes => simp only [onePageClient, h]
  | none =>
      simp only [onePageClient, h]
      exact ⟨_, 1#8, List.length_replicate, by decide, rfl⟩

theorem get_reads_guest_onePage :
    ∃ n m' s', (get onePageClient 3 0x1ff8#64 0x2004#64 0#64 fun _ => 0).run
      ⟨fun _ => none, [], [], []⟩ = (.ok (n, m'), s') ∧
      ReadableLength onePage 0x1ff8#64 0x2004#64 n.toNat := by
  have hle : 0x1ff8#64 ≤ 0x2004#64 := by decide
  obtain ⟨n, m', s', new, hrun, hlen, -⟩ :=
    get_reads_guest answers_onePageClient .init hle 0#64 fun _ => 0
  exact ⟨n, m', s', hrun 3 (by decide), hlen⟩

end PollyInstrew.Server
