import PollyInstrew.Protocol.ToServer

/-!
# Replies of the server

While a reply of the server is on its way, the server writes it and the client
reads it; when the client has read all of it, it is its turn.
-/

namespace PollyInstrew.Protocol

open PollyInstrew.ByteMemory
open PollyInstrew.Shared

/-! ## The server writes -/

section ServerSends

variable {iwcc : IWClientConfig} {pc : ServerPc} {out str : List Byte} {count : ℕ} {ρ : Reply}
  {later : List (ℕ × Hdr)} {laterObj : List (Option Word × List Byte)}

/-- Part of an `fflush`. -/
theorem ServerSends.spill {bytes rest : List Byte}
    (h : ServerSends iwcc pc out count ρ str later laterObj) (hout : out = bytes ++ rest)
    (hn : 0 < bytes.length) (hpc : ∀ next, pc = .flush next → rest ≠ []) :
    ∃ str', str = bytes ++ str' ∧ ServerSends iwcc pc rest count ρ str' later laterObj := by
  have hne : bytes ++ rest ≠ [] := by
    simp [List.ne_nil_of_length_pos hn]
  cases h with
  | startInit _ hlen =>
      exact ⟨_, by rw [hout, List.append_assoc], .startInit (hpc _ rfl) hlen⟩
  | startObject _ hlen => exact ⟨_, hout, .startObject (hpc _ rfl) hlen⟩
  | memreq => exact ⟨_, hout, .memreq (hpc _ rfl)⟩
  | object _ hlen => exact ⟨_, hout, .object (hpc _ rfl) hlen⟩
  | cached _ hlen =>
      exact ⟨_, by rw [hout, List.append_assoc], .cached (hpc _ rfl) hlen⟩
  | _ => exact absurd hout.symm hne

/-- What the server does when its reply is written. -/
def Reply.Waits : Reply → ServerPc → Prop
  | .thinkInit, pc => pc = .init
  | .think addr, pc => pc = .translating addr
  | .start _, pc => pc = .read [] 8 .runHdr
  | .memreq addr page, pc => pc = .read [] 8 (.pageHdr addr page)
  | .object _ _, pc => pc = .read [] 8 .runHdr

theorem ServerSends.waits (h : ServerSends iwcc pc out count ρ str later laterObj)
    (hstr : str = []) : ρ.Waits pc ∧ out = [] ∧ later = [] ∧ laterObj = [] := by
  cases h with
  | startInit hout => exact absurd (List.append_eq_nil_iff.mp hstr).1 hout
  | startObject hout => exact absurd hstr hout
  | memreq hout => exact absurd hstr hout
  | object hout => exact absurd hstr hout
  | cached hout => exact absurd (List.append_eq_nil_iff.mp hstr).1 hout
  | sendfile hrest => exact absurd hstr hrest
  | _ => exact ⟨rfl, rfl, rfl, rfl⟩

/-- The size of an object fits its header. -/
theorem ServerSends.length_le (h : ServerSends iwcc pc out count ρ str later laterObj)
    {request : Option Word} {data : List Byte} (hmem : (request, data) ∈ ρ.objects) :
    data.length ≤ Server.intMax := by
  cases h <;> simp only [Reply.objects, List.mem_singleton, List.not_mem_nil] at hmem <;>
    obtain ⟨rfl, rfl⟩ := Prod.mk.inj hmem <;> assumption

theorem ServerSends.of_init (h : ServerSends iwcc .init out count ρ str later laterObj) :
    ρ = .thinkInit := by
  cases h
  rfl

theorem ServerSends.of_translating {addr : Word}
    (h : ServerSends iwcc (.translating addr) out count ρ str later laterObj) :
    ρ = .think addr := by
  cases h
  rfl

theorem ServerSends.of_sendfile {rest : List Byte}
    (h : ServerSends iwcc (.sendfile rest) out count ρ str later laterObj) :
    out = [] ∧ str = rest ∧ later = [] ∧ laterObj = [] ∧
      ∃ addr data, ρ = .object addr data ∧ data.length ≤ Server.intMax := by
  cases h with
  | sendfile _ hlen => exact ⟨rfl, rfl, rfl, rfl, _, _, rfl, hlen⟩

theorem ClientWants.of_thinkInit {pc : ClientPc} {e : ℕ} {unread : List (ℕ × Hdr)}
    (h : ClientWants iwcc pc count .thinkInit str unread e) :
    pc = .readFull [] 8 (.hdr .configFetch) ∧ str = [] ∧ unread = [] ∧ e = count := by
  cases h
  exact ⟨rfl, rfl, rfl, rfl⟩

theorem ClientWants.of_think {pc : ClientPc} {addr : Word} {e : ℕ} {unread : List (ℕ × Hdr)}
    (h : ClientWants iwcc pc count (.think addr) str unread e) :
    pc = .readFull [] 8 (.hdr .getLoop) ∧ str = [] ∧ unread = [] ∧ e = count := by
  cases h
  exact ⟨rfl, rfl, rfl, rfl⟩

end ServerSends

section ServerWrites

variable {ρ : Reply} {σ : Session}

/-- The server has written its reply and waits for a message. -/
theorem ToClient.written (h : ToClient ρ σ) (pc : ServerPc) {next : RecvThen} {sent : Log}
    {s2c : List Byte} {unread : List (ℕ × Hdr)} {e : ℕ}
    (hsends : ServerSends σ.server.iwcc (.read [] 8 next) [] sent.count ρ [] [] [])
    (hcount : sent.count = σ.client.recd.count + s2c.length)
    (hwants : ClientWants σ.server.iwcc σ.client.pc σ.client.recd.count ρ s2c unread e)
    (hspaced : Spaced 0 σ.client.recd.hdrs e) (hhdrs : sent.hdrs = σ.client.recd.hdrs ++ unread)
    (hobjects : σ.server.objects = σ.client.results ++ ρ.objects) :
    ToClient ρ { σ with
      server := Server.recvMsg { σ.server with
        pc := pc
        out := []
        sent := sent } next
      s2c := s2c } := by
  have hrecv : Server.recvMsg { σ.server with
      pc := pc
      out := []
      sent := sent } next = { σ.server with
      pc := .read [] 8 next
      out := []
      sent := sent } := by
    simp [Server.recvMsg, h.recvSz]
  rw [hrecv]
  refine
    { h with
      count := hcount
      sends := ⟨[], [], [], unread, e, hsends, ?_, hspaced, ?_, ?_⟩ }
  · change ClientWants _ σ.client.pc _ ρ (s2c ++ []) _ _
    rw [List.append_nil]
    exact hwants
  · rw [List.append_nil]
    exact hhdrs
  · rw [List.append_nil]
    exact hobjects

/-- The end of an `fflush`. -/
theorem ToClient.flushDone (h : ToClient ρ σ) {next : FlushThen}
    (hpc : σ.server.pc = .flush next) {s : Server} (hs : s = { σ.server with out := [] }) :
    ToClient ρ { σ with
      server := s.flushDone next
      s2c := σ.s2c ++ σ.server.out } := by
  obtain ⟨str, later, laterObj, unread, e, hsends, hwants, hspaced, hhdrs, hobjects⟩ := h.sends
  have hcount := h.count
  rw [hpc] at hsends
  generalize hout : σ.server.out = out at hsends hcount
  have hlen : σ.server.sent.count = σ.client.recd.count + (σ.s2c ++ out).length := by
    rw [hcount, List.length_append]
    omega
  subst hs
  cases hsends with
  | @startInit _ data _ hout' hle =>
      have hdone : Server.flushDone { σ.server with out := [] } (.objectHdr none data) =
          { σ.server with
            pc := .flush .recvRun
            out := (Hdr.of .sObject data.length).bytes ++ data
            objects := σ.server.objects ++ [(none, data)]
            sent := ⟨σ.server.sent.count + 8 + data.length,
              σ.server.sent.hdrs ++ [(σ.server.sent.count, Hdr.of .sObject data.length)]⟩ } := by
        simp [Server.flushDone, Server.objectHdr, Nat.not_lt.mpr hle, Server.fwriteHdr,
          Server.fwrite, Log.next, Log.add]
      rw [hdone]
      refine
        { h with
          count := ?_
          sends := ⟨_, [], [], unread, e, .startObject ?_ hle, ?_, hspaced, ?_, ?_⟩ }
      · change σ.server.sent.count + 8 + data.length = σ.client.recd.count +
          (σ.s2c ++ out).length + ((Hdr.of .sObject data.length).bytes ++ data).length
        rw [hlen, List.length_append, List.length_append, Hdr.length_bytes]
        omega
      · simp [Hdr.bytes_ne_nil]
      · rw [← List.append_assoc] at hwants
        exact hwants
      · rw [List.append_nil]
        exact hhdrs
      · rw [List.append_nil]
        exact hobjects
  | startObject _ hle =>
      rw [List.append_nil] at hhdrs hobjects
      exact h.written _ (.startDone hle) hlen hwants hspaced hhdrs hobjects
  | memreq =>
      rw [List.append_nil] at hhdrs hobjects
      exact h.written _ .memreqDone hlen hwants hspaced hhdrs hobjects
  | object _ hle =>
      rw [List.append_nil] at hhdrs hobjects
      exact h.written _ (.objectDone hle) hlen hwants hspaced hhdrs hobjects
  | @cached _ data _ addr _ hle =>
      rw [Server.flushDone]
      by_cases hdata : data = []
      · rw [if_pos hdata]
        rw [hdata, List.append_nil] at hwants
        rw [List.append_nil] at hhdrs hobjects
        exact h.written _ (.objectDone hle) hlen (hdata ▸ hwants) hspaced hhdrs hobjects
      · rw [if_neg hdata]
        refine
          { h with
            count := hlen
            sends := ⟨data, [], [], unread, e, .sendfile hdata hle, ?_, hspaced, hhdrs,
              hobjects⟩ }
        rw [← List.append_assoc] at hwants
        exact hwants

/-- The server has not decided: nothing is on its way. -/
theorem ToClient.thinks (h : ToClient ρ σ) {pc : ClientPc}
    (hthink : ∀ {str unread e}, ClientWants σ.server.iwcc σ.client.pc σ.client.recd.count ρ str
      unread e → σ.client.pc = pc ∧ str = [] ∧ unread = [] ∧ e = σ.client.recd.count)
    (hnone : ρ.objects = []) :
    σ.client.pc = pc ∧ σ.s2c = [] ∧ σ.server.out = [] ∧ σ.server.sent = σ.client.recd ∧
      Spaced 0 σ.client.recd.hdrs σ.client.recd.count ∧
      σ.server.objects = σ.client.results := by
  obtain ⟨str, later, laterObj, unread, e, hsends, hwants, hspaced, hhdrs, hobjects⟩ := h.sends
  have hcount := h.count
  obtain ⟨hpc, hstream, rfl, rfl⟩ := hthink hwants
  obtain ⟨hs2c, rfl⟩ := List.append_eq_nil_iff.mp hstream
  obtain ⟨-, hout, rfl, rfl⟩ := hsends.waits rfl
  refine ⟨hpc, hs2c, hout, Log.ext ?_ ?_, hspaced, ?_⟩
  · rw [hcount, hs2c, hout]
    rfl
  · simpa using hhdrs
  · simpa [hnone] using hobjects

/-- The server begins a reply with the header `hdr`. -/
theorem ToClient.answer (h : ToClient ρ σ) (hs2c : σ.s2c = [])
    (hspaced : Spaced 0 σ.client.recd.hdrs σ.client.recd.count)
    (hobjects : σ.server.objects = σ.client.results) {ρ' : Reply} {pc : ServerPc}
    {out str : List Byte} {hdr : Hdr} {later : List (ℕ × Hdr)}
    {objects laterObj : List (Option Word × List Byte)}
    (hsends : ServerSends σ.server.iwcc pc out (σ.client.recd.count + out.length) ρ' str later
      laterObj)
    (hwants : ClientWants σ.server.iwcc σ.client.pc σ.client.recd.count ρ' str
      ((σ.client.recd.count, hdr) :: later) σ.client.recd.count)
    (hrequest : ρ.request = ρ'.request) (hthink : ρ' ≠ .thinkInit)
    (hnew : objects ++ laterObj = ρ'.objects) :
    ToClient ρ' { σ with
      server := { σ.server with
        pc := pc
        out := out
        needIwcc := false
        objects := σ.server.objects ++ objects
        sent := ⟨σ.client.recd.count + out.length,
          σ.client.recd.hdrs ++ [(σ.client.recd.count, hdr)]⟩ } } := by
  refine
    { h with
      request := h.request.trans hrequest
      needIwcc := (decide_eq_false hthink).symm
      count := ?_
      sends := ⟨str, later, laterObj, (σ.client.recd.count, hdr) :: later, σ.client.recd.count,
        hsends, ?_, hspaced, ?_, ?_⟩ }
  · change σ.client.recd.count + out.length = σ.client.recd.count + σ.s2c.length + out.length
    rw [hs2c]
    rfl
  · change ClientWants _ _ _ _ (σ.s2c ++ str) _ _
    rw [hs2c]
    exact hwants
  · rw [List.append_assoc]
    rfl
  · rw [List.append_assoc, hnew, hobjects]

/-- `fns->init` has sent the initial object, with the configuration before it. -/
theorem ToClient.initObject (h : ToClient ρ σ) (hpc : σ.server.pc = .init) {data : List Byte}
    (hlen : data.length ≤ Server.intMax) :
    ToClient (.start data) { σ with server := σ.server.sendObject none data } := by
  obtain rfl : ρ = .thinkInit := by
    obtain ⟨str, later, laterObj, unread, e, hsends, -⟩ := h.sends
    rw [hpc] at hsends
    exact hsends.of_init
  obtain ⟨hwait, hs2c, hout, hlog, hspaced, hobjects⟩ := h.thinks ClientWants.of_thinkInit rfl
  have hneed : σ.server.needIwcc = true := h.needIwcc
  have hsend : σ.server.sendObject none data = { σ.server with
      pc := .flush (.objectHdr none data)
      out := (Hdr.of .sInit 20).bytes ++ σ.server.iwcc.bytes
      needIwcc := false
      objects := σ.server.objects ++ []
      sent := ⟨σ.client.recd.count + ((Hdr.of .sInit 20).bytes ++ σ.server.iwcc.bytes).length,
        σ.client.recd.hdrs ++ [(σ.client.recd.count, Hdr.of .sInit 20)]⟩ } := by
    simp [Server.sendObject, hneed, Server.fwriteHdr, Server.fwrite, hout, hlog, Log.next, Log.add]
  rw [hsend]
  refine h.answer hs2c hspaced hobjects (.startInit ?_ hlen) ?_ rfl (by simp) rfl
  · simp [Hdr.bytes_ne_nil]
  · rw [hwait, List.length_append, Hdr.length_bytes, IWClientConfig.length_bytes]
    exact .startHdr (Nat.zero_lt_succ 7) (by simp)

/-- What the client waits for while a request is served. -/
theorem ToClient.translating (h : ToClient ρ σ) {addr : Word}
    (hpc : σ.server.pc = .translating addr) :
    ρ = .think addr ∧ σ.client.pc = .readFull [] 8 (.hdr .getLoop) ∧ σ.s2c = [] ∧
      σ.server.out = [] ∧ σ.server.sent = σ.client.recd ∧
      Spaced 0 σ.client.recd.hdrs σ.client.recd.count ∧
      σ.server.objects = σ.client.results ∧ σ.server.needIwcc = false := by
  obtain rfl : ρ = .think addr := by
    obtain ⟨str, later, laterObj, unread, e, hsends, -⟩ := h.sends
    rw [hpc] at hsends
    exact hsends.of_translating
  obtain ⟨hwait, hs2c, hout, hlog, hspaced, hobjects⟩ := h.thinks ClientWants.of_think rfl
  exact ⟨rfl, hwait, hs2c, hout, hlog, hspaced, hobjects, h.needIwcc⟩

/-- `GetPage`: the page is in the cache or is requested. -/
theorem ToClient.getPage (h : ToClient ρ σ) {addr : Word} (hpc : σ.server.pc = .translating addr)
    (page : Word) : Framed { σ with server := σ.server.getPage addr page } := by
  obtain ⟨rfl, hwait, hs2c, hout, hlog, hspaced, hobjects, hneed⟩ := h.translating hpc
  by_cases hcached : σ.server.pageCache.any (fun entry => entry.1 == page)
  · rw [Server.getPage, if_pos hcached]
    exact .toClient h
  · have hsend : σ.server.getPage addr page = { σ.server with
        pc := .flush (.recvPage addr page)
        out := (Hdr.of .sMemreq 16).bytes ++ memreqBytes page
        needIwcc := false
        objects := σ.server.objects ++ []
        sent := ⟨σ.client.recd.count + ((Hdr.of .sMemreq 16).bytes ++ memreqBytes page).length,
          σ.client.recd.hdrs ++ [(σ.client.recd.count, Hdr.of .sMemreq 16)]⟩ } := by
      rw [Server.getPage, if_neg hcached]
      simp [Server.fwriteHdr, Server.fwrite, hout, hlog, hneed, Log.next, Log.add, memreqBytes]
    rw [hsend]
    refine .toClient (h.answer hs2c hspaced hobjects (.memreq ?_) ?_ rfl (by simp) rfl)
    · simp [Hdr.bytes_ne_nil]
    · rw [hwait]
      exact .memHdr (Nat.zero_lt_succ 7) rfl

/-- The object for a request is sent from memory. -/
theorem ToClient.object (h : ToClient ρ σ) {addr : Word} (hpc : σ.server.pc = .translating addr)
    {data : List Byte} (hlen : data.length ≤ Server.intMax) :
    ToClient (.object addr data) { σ with server := σ.server.sendObject (some addr) data } := by
  obtain ⟨rfl, hwait, hs2c, hout, hlog, hspaced, hobjects, hneed⟩ := h.translating hpc
  have hsend : σ.server.sendObject (some addr) data = { σ.server with
      pc := .flush .recvRun
      out := (Hdr.of .sObject data.length).bytes ++ data
      needIwcc := false
      objects := σ.server.objects ++ [(some addr, data)]
      sent := ⟨σ.client.recd.count + ((Hdr.of .sObject data.length).bytes ++ data).length,
        σ.client.recd.hdrs ++ [(σ.client.recd.count, Hdr.of .sObject data.length)]⟩ } := by
    simp [Server.sendObject, hneed, Server.objectHdr, Nat.not_lt.mpr hlen, Server.fwriteHdr,
      Server.fwrite, hout, hlog, Log.next, Log.add, Nat.add_assoc]
  rw [hsend]
  refine h.answer hs2c hspaced hobjects (.object ?_ hlen) ?_ rfl (by simp) rfl
  · simp [Hdr.bytes_ne_nil]
  · rw [hwait]
    exact .objHdr (Nat.zero_lt_succ 7) rfl

/-- The object for a request is sent from the cache. -/
theorem ToClient.cached (h : ToClient ρ σ) {addr : Word} (hpc : σ.server.pc = .translating addr)
    {data : List Byte} (hlen : data.length ≤ Server.intMax) :
    ToClient (.object addr data) { σ with server := σ.server.cacheHit addr data } := by
  obtain ⟨rfl, hwait, hs2c, hout, hlog, hspaced, hobjects, hneed⟩ := h.translating hpc
  have hsend : σ.server.cacheHit addr data = { σ.server with
      pc := .flush (.sendfile data)
      out := (Hdr.of .sObject data.length).bytes
      needIwcc := false
      objects := σ.server.objects ++ [(some addr, data)]
      sent := ⟨σ.client.recd.count + (Hdr.of .sObject data.length).bytes.length,
        σ.client.recd.hdrs ++ [(σ.client.recd.count, Hdr.of .sObject data.length)]⟩ } := by
    simp [Server.cacheHit, hneed, Nat.not_lt.mpr hlen, Server.fwriteHdr, hout, hlog, Log.next,
      Log.add]
  rw [hsend]
  refine h.answer hs2c hspaced hobjects (.cached (Hdr.bytes_ne_nil _) hlen) ?_ rfl (by simp) rfl
  rw [hwait]
  exact .objHdr (Nat.zero_lt_succ 7) rfl

/-- A step of the server while its reply is on the way. -/
theorem ToClient.of_serverStep (h : ToClient ρ σ) {σ' : Session} (hstep : ServerStep σ σ') :
    Framed σ' := by
  cases hstep with
  | read hpc hc2s hn =>
      rw [h.c2s] at hc2s
      rw [(List.append_eq_nil_iff.mp hc2s.symm).1] at hn
      exact absurd hn (by simp)
  | readAll hpc hc2s hn =>
      rw [h.c2s] at hc2s
      rw [(List.append_eq_nil_iff.mp hc2s.symm).1] at hn
      exact absurd hn (by simp)
  | eof hpc hclosed => exact absurd (h.closed.symm.trans hclosed) nofun
  | @spill bytes rest hout hn hpc =>
      obtain ⟨str, later, laterObj, unread, e, hsends, hwants, hspaced, hhdrs, hobjects⟩ := h.sends
      obtain ⟨str', rfl, hsends'⟩ := hsends.spill hout hn hpc
      have hspill : ToClient ρ { σ with
          server := { σ.server with out := rest }
          s2c := σ.s2c ++ bytes } := by
        refine
          { h with
            count := ?_
            sends := ⟨str', later, laterObj, unread, e, hsends', ?_, hspaced, hhdrs, hobjects⟩ }
        · have hcount := h.count
          rw [hout, List.length_append] at hcount
          change σ.server.sent.count = σ.client.recd.count + (σ.s2c ++ bytes).length + rest.length
          rw [hcount, List.length_append]
          omega
        · rw [← List.append_assoc] at hwants
          exact hwants
      exact .toClient hspill
  | flushed hpc => exact .toClient (h.flushDone hpc rfl)
  | @sendfile bytes rest hpc hn hrest =>
      obtain ⟨str, later, laterObj, unread, e, hsends, hwants, hspaced, hhdrs, hobjects⟩ := h.sends
      rw [hpc] at hsends
      obtain ⟨hout, rfl, rfl, rfl, addr, data, rfl, hlen⟩ := hsends.of_sendfile
      have hsent : ToClient (.object addr data) { σ with
          server := { σ.server with
            pc := .sendfile rest
            sent := σ.server.sent.add bytes.length }
          s2c := σ.s2c ++ bytes } := by
        refine
          { h with
            count := ?_
            sends := ⟨rest, [], [], unread, e, ?_, ?_, hspaced, hhdrs, hobjects⟩ }
        · change σ.server.sent.count + bytes.length =
            σ.client.recd.count + (σ.s2c ++ bytes).length + σ.server.out.length
          rw [h.count, List.length_append]
          omega
        · change ServerSends _ _ σ.server.out _ _ _ _ _
          rw [hout]
          exact .sendfile hrest hlen
        · rw [← List.append_assoc] at hwants
          exact hwants
      exact .toClient hsent
  | @sendfileAll rest hpc =>
      obtain ⟨str, later, laterObj, unread, e, hsends, hwants, hspaced, hhdrs, hobjects⟩ := h.sends
      rw [hpc] at hsends
      obtain ⟨hout, rfl, rfl, rfl, addr, data, rfl, hlen⟩ := hsends.of_sendfile
      rw [List.append_nil] at hhdrs hobjects
      have hcount : (σ.server.sent.add str.length).count =
          σ.client.recd.count + (σ.s2c ++ str).length := by
        change σ.server.sent.count + str.length = _
        rw [h.count, hout, List.length_append, List.length_nil]
        omega
      have hdone := h.written (.sendfile []) (.objectDone hlen) hcount hwants hspaced hhdrs
        hobjects
      rw [← hout] at hdone
      exact .toClient hdone
  | initObject hpc hlen => exact .toClient (h.initObject hpc hlen)
  | getPage hpc => exact h.getPage hpc _
  | object hpc hlen => exact .toClient (h.object hpc hlen)
  | cached hpc hlen => exact .toClient (h.cached hpc hlen)

end ServerWrites

/-! ## The client reads -/

section ClientWants

variable {iwcc : IWClientConfig} {pc : ClientPc} {got str : List Byte} {size count e : ℕ}
  {next : ReadThen} {ρ : Reply} {unread : List (ℕ × Hdr)}

theorem ClientWants.reads (h : ClientWants iwcc pc count ρ str unread e) :
    ∃ got size next, pc = .readFull got size next := by
  cases h <;> exact ⟨_, _, _, rfl⟩

/-- Part of a `read_full`. -/
theorem ClientWants.part {bytes : List Byte}
    (h : ClientWants iwcc (.readFull got size next) count ρ (bytes ++ str) unread e)
    (hlt : (got ++ bytes).length < size) :
    ClientWants iwcc (.readFull (got ++ bytes) size next) (count + bytes.length) ρ str unread
      e := by
  generalize hall : bytes ++ str = all at h
  have hlen : all.length = bytes.length + str.length := by
    rw [← hall, List.length_append]
  cases h with
  | thinkInit =>
      obtain ⟨rfl, rfl⟩ := List.append_eq_nil_iff.mp hall
      exact .thinkInit
  | think =>
      obtain ⟨rfl, rfl⟩ := List.append_eq_nil_iff.mp hall
      exact .think
  | startHdr _ hstr =>
      rw [Nat.add_assoc, ← List.length_append]
      exact .startHdr hlt (by rw [List.append_assoc, hall, hstr])
  | startConf _ hstr hcount =>
      exact .startConf hlt (by rw [List.append_assoc, hall, hstr]) (by
        rw [List.length_append]
        omega)
  | startObjHdr _ hstr =>
      rw [Nat.add_assoc, ← List.length_append]
      exact .startObjHdr hlt (by rw [List.append_assoc, hall, hstr])
  | startObj _ hstr hcount =>
      exact .startObj hlt (by rw [List.append_assoc, hall, hstr]) (by omega)
  | memHdr _ hstr =>
      rw [Nat.add_assoc, ← List.length_append]
      exact .memHdr hlt (by rw [List.append_assoc, hall, hstr])
  | memrq _ hstr hcount =>
      exact .memrq hlt (by rw [List.append_assoc, hall, hstr]) (by omega)
  | objHdr _ hstr =>
      rw [Nat.add_assoc, ← List.length_append]
      exact .objHdr hlt (by rw [List.append_assoc, hall, hstr])
  | obj _ hstr hcount =>
      exact .obj hlt (by rw [List.append_assoc, hall, hstr]) (by omega)

theorem ClientWants.of_configFetch
    (h : ClientWants iwcc (.readFull got size (.hdr .configFetch)) count ρ str unread e)
    (hne : str ≠ []) :
    size = 8 ∧ count = e + got.length ∧ ∃ data, ρ = .start data ∧
      unread = [(e, Hdr.of .sInit 20), (e + 28, Hdr.of .sObject data.length)] ∧
      got ++ str = (Hdr.of .sInit 20).bytes ++
        (iwcc.bytes ++ ((Hdr.of .sObject data.length).bytes ++ data)) := by
  cases h with
  | thinkInit => exact absurd rfl hne
  | startHdr _ hstr => exact ⟨rfl, rfl, _, rfl, rfl, hstr⟩

theorem ClientWants.of_config
    (h : ClientWants iwcc (.readFull got size .config) count ρ str unread e) :
    size = 20 ∧ e + got.length = count + 20 ∧ ∃ data, ρ = .start data ∧
      unread = [(e, Hdr.of .sObject data.length)] ∧
      got ++ str = iwcc.bytes ++ ((Hdr.of .sObject data.length).bytes ++ data) := by
  cases h with
  | startConf _ hstr hcount => exact ⟨rfl, hcount, _, rfl, rfl, hstr⟩

theorem ClientWants.of_getObject
    (h : ClientWants iwcc (.readFull got size (.hdr .getObject)) count ρ str unread e) :
    size = 8 ∧ count = e + got.length ∧ ∃ data, ρ = .start data ∧
      unread = [(e, Hdr.of .sObject data.length)] ∧
      got ++ str = (Hdr.of .sObject data.length).bytes ++ data := by
  cases h with
  | startObjHdr _ hstr => exact ⟨rfl, rfl, _, rfl, rfl, hstr⟩

theorem ClientWants.of_getLoop
    (h : ClientWants iwcc (.readFull got size (.hdr .getLoop)) count ρ str unread e)
    (hne : str ≠ []) :
    size = 8 ∧ count = e + got.length ∧
      ((∃ addr page, ρ = .memreq addr page ∧ unread = [(e, Hdr.of .sMemreq 16)] ∧
        got ++ str = (Hdr.of .sMemreq 16).bytes ++ memreqBytes page) ∨
      ∃ addr data, ρ = .object addr data ∧ unread = [(e, Hdr.of .sObject data.length)] ∧
        got ++ str = (Hdr.of .sObject data.length).bytes ++ data) := by
  cases h with
  | think => exact absurd rfl hne
  | memHdr _ hstr => exact ⟨rfl, rfl, Or.inl ⟨_, _, rfl, rfl, hstr⟩⟩
  | objHdr _ hstr => exact ⟨rfl, rfl, Or.inr ⟨_, _, rfl, rfl, hstr⟩⟩

theorem ClientWants.of_memrq
    (h : ClientWants iwcc (.readFull got size .memrq) count ρ str unread e) :
    size = 16 ∧ e = count + str.length ∧ unread = [] ∧
      ∃ addr page, ρ = .memreq addr page ∧ got ++ str = memreqBytes page := by
  cases h with
  | memrq _ hstr hcount => exact ⟨rfl, hcount, rfl, _, _, rfl, hstr⟩

theorem ClientWants.of_object
    (h : ClientWants iwcc (.readFull got size .object) count ρ str unread e) :
    size = (got ++ str).length ∧ e = count + str.length ∧ unread = [] ∧
      ((ρ = .start (got ++ str)) ∨ ∃ addr, ρ = .object addr (got ++ str)) := by
  cases h with
  | startObj _ hstr hcount => exact ⟨by rw [hstr], hcount, rfl, Or.inl (by rw [hstr])⟩
  | obj _ hstr hcount => exact ⟨by rw [hstr], hcount, rfl, Or.inr ⟨_, by rw [hstr]⟩⟩

end ClientWants

/-- `translator_get_object` with the header of an object of `n` bytes. -/
theorem Client.getObject_eq {t : Client} {n : ℕ} (hlast : t.lastHdr = Hdr.of .sObject n)
    (hn : n ≤ Server.intMax) :
    t.getObject = if n = 0 then { t with lastHdr := noHdr }.objectDone []
      else { t with
        lastHdr := noHdr
        pc := .readFull [] n .object } := by
  have hsz : t.lastHdr.sz.toInt = n := by
    rw [hlast]
    exact Hdr.toInt_sz_of (Nat.lt_succ_of_le hn)
  have hid : t.lastHdr.id = MsgId.sObject.code := by
    rw [hlast]
    rfl
  have hnonneg : ¬ (n : ℤ) < 0 := by omega
  simp only [Client.getObject, Client.hdrTake, hid, ne_eq, not_true_eq_false, if_false, hsz,
    hnonneg, Int.natCast_eq_zero, Int.toNat_natCast]

section ClientReads

variable {ρ : Reply} {σ : Session}

/-- The client reads on in the reply. -/
theorem ToClient.advance (h : ToClient ρ σ) {pc : ClientPc} (tc : List Byte) (recd : Log)
    {bytes rest str : List Byte} {later unread : List (ℕ × Hdr)}
    {laterObj : List (Option Word × List Byte)} {e : ℕ} (hs2c : σ.s2c = bytes ++ rest)
    (hsends : ServerSends σ.server.iwcc σ.server.pc σ.server.out σ.server.sent.count ρ str later
      laterObj)
    (hcount : recd.count = σ.client.recd.count + bytes.length)
    (hwants : ClientWants σ.server.iwcc pc recd.count ρ (rest ++ str) unread e)
    (hspaced : Spaced 0 recd.hdrs e)
    (hhdrs : σ.server.sent.hdrs ++ later = recd.hdrs ++ unread)
    (hobjects : σ.server.objects ++ laterObj = σ.client.results ++ ρ.objects) :
    ToClient ρ { σ with
      client := { σ.client with
        pc := pc
        tc := tc
        recd := recd }
      s2c := rest } := by
  refine
    { h with
      count := ?_
      sends := ⟨str, later, laterObj, unread, e, hsends, hwants, hspaced, hhdrs, hobjects⟩ }
  have hsent := h.count
  rw [hs2c, List.length_append] at hsent
  change σ.server.sent.count = recd.count + rest.length + σ.server.out.length
  omega

/-- The client has read the reply; what it does next is up to `t`. -/
theorem ToClient.finish (h : ToClient ρ σ) {t : Client} (hpc : t.pc = .running)
    (hlast : t.lastHdr = noHdr) (hrequest : t.request = none)
    (hresults : t.results = σ.client.results ++ ρ.objects) (hsent : t.sent = σ.client.sent)
    (hrecd : t.recd = σ.server.sent) (hspaced : Spaced 0 t.recd.hdrs t.recd.count)
    (hserver : σ.server.pc = .read [] 8 .runHdr) (hout : σ.server.out = [])
    (hobjects : σ.server.objects = σ.client.results ++ ρ.objects) (hthink : ρ ≠ .thinkInit) :
    ToServer .none { σ with
      client := t
      s2c := [] } where
  s2c := rfl
  out := hout
  mode := nofun
  lastHdr := hlast
  request := hrequest
  closed := by
    refine iff_of_false ?_ ?_
    · exact fun hclosed => absurd (h.closed.symm.trans hclosed) nofun
    · exact fun hexited => absurd (hpc.symm.trans hexited) nofun
  needIwcc := Or.inr (h.needIwcc.trans (decide_eq_false hthink))
  objects := hobjects.trans hresults.symm
  back := hrecd.symm
  spaced := hspaced
  count := by
    change t.sent.count = σ.server.recd.count + σ.c2s.length
    rw [hsent, h.forth, h.c2s]
    rfl
  sends := ⟨[], by
    rw [hpc]
    exact .running⟩
  wants := by
    refine ⟨[], σ.server.recd.count, ?_, h.spaced, ?_⟩
    · intro str hstr
      rw [hstr.of_none.1]
      change ServerWants _ σ.server.pc σ.server.recvSz _ _ (σ.c2s ++ []) _ _
      rw [hserver, h.recvSz, h.c2s]
      exact .idle
    · change t.sent.hdrs = _
      rw [hsent, h.forth, List.append_nil]

/-- The reply brings the object `data`. -/
def Reply.Carries (ρ : Reply) (data : List Byte) : Prop :=
  ρ = .start data ∨ ∃ addr, ρ = .object addr data

theorem Reply.Carries.objects {data : List Byte} (h : ρ.Carries data) :
    ρ.objects = [(ρ.request, data)] := by
  obtain rfl | ⟨addr, rfl⟩ := h
  · rfl
  · rfl

theorem Reply.Carries.waits {data : List Byte} (h : ρ.Carries data) {pc : ServerPc}
    (hwaits : ρ.Waits pc) : pc = .read [] 8 .runHdr := by
  obtain rfl | ⟨addr, rfl⟩ := h
  · exact hwaits
  · exact hwaits

theorem Reply.Carries.ne_thinkInit {data : List Byte} (h : ρ.Carries data) :
    ρ ≠ .thinkInit := by
  obtain rfl | ⟨addr, rfl⟩ := h
  · exact nofun
  · exact nofun

theorem Reply.Carries.wants {data : List Byte} (h : ρ.Carries data) {iwcc : IWClientConfig}
    {count : ℕ} {str : List Byte} (hdata : data ≠ []) (hstr : str = data) :
    ClientWants iwcc (.readFull [] data.length .object) count ρ str []
      (count + data.length) := by
  have hlen : ([] : List Byte).length < data.length := List.length_pos_iff.mpr hdata
  have hcount : count + data.length = count + str.length := by rw [hstr]
  obtain rfl | ⟨addr, rfl⟩ := h
  · exact .startObj hlen hstr hcount
  · exact .obj hlen hstr hcount

/-- The client has received the object and returns it. -/
theorem ToClient.objectDone (h : ToClient ρ σ) {data : List Byte} (hcarries : ρ.Carries data)
    {str : List Byte} {later unread : List (ℕ × Hdr)}
    {laterObj : List (Option Word × List Byte)} {pc : ClientPc} {recd : Log}
    (hsends : ServerSends σ.server.iwcc σ.server.pc σ.server.out σ.server.sent.count ρ str later
      laterObj) (hstr : str = [])
    (hhdrs : σ.server.sent.hdrs ++ later = σ.client.recd.hdrs ++ unread)
    (hobjects : σ.server.objects ++ laterObj = σ.client.results ++ ρ.objects)
    (hrecd : recd = ⟨σ.client.recd.count + σ.s2c.length, σ.client.recd.hdrs ++ unread⟩)
    (hspaced : Spaced 0 recd.hdrs recd.count) :
    Framed { σ with
      client := Client.objectDone { σ.client with
        pc := pc
        lastHdr := noHdr
        recd := recd } data
      s2c := [] } := by
  obtain ⟨hwaits, hout, rfl, rfl⟩ := hsends.waits hstr
  have hlog : recd = σ.server.sent := by
    rw [hrecd]
    refine Log.ext ?_ ?_
    · rw [h.count, hout]
      rfl
    · rw [← hhdrs, List.append_nil]
  refine .toServer (h.finish rfl rfl rfl ?_ rfl hlog hspaced (hcarries.waits hwaits) hout ?_
    hcarries.ne_thinkInit)
  · rw [hcarries.objects, ← h.request]
    rfl
  · rw [← hobjects, List.append_nil]

/-- The client has received the header of an object. -/
theorem ToClient.objectHdr_done (h : ToClient ρ σ) {data : List Byte}
    (hcarries : ρ.Carries data) {bytes rest str : List Byte} {later : List (ℕ × Hdr)}
    {laterObj : List (Option Word × List Byte)} {pc : ClientPc} {e : ℕ}
    (hs2c : σ.s2c = bytes ++ rest) (hpos : σ.client.recd.count + bytes.length = e + 8)
    (hsends : ServerSends σ.server.iwcc σ.server.pc σ.server.out σ.server.sent.count ρ str later
      laterObj) (hstr : rest ++ str = data) (hspaced : Spaced 0 σ.client.recd.hdrs e)
    (hhdrs : σ.server.sent.hdrs ++ later =
      σ.client.recd.hdrs ++ [(e, Hdr.of .sObject data.length)])
    (hobjects : σ.server.objects ++ laterObj = σ.client.results ++ ρ.objects) :
    Framed { σ with
      client := Client.getObject { σ.client with
        pc := pc
        lastHdr := Hdr.of .sObject data.length
        recd := ⟨e + 8, σ.client.recd.hdrs ++ [(e, Hdr.of .sObject data.length)]⟩ }
      s2c := rest } := by
  have hlen : data.length ≤ Server.intMax := by
    have hmem : (ρ.request, data) ∈ ρ.objects := by
      rw [hcarries.objects]
      exact List.mem_singleton_self _
    exact hsends.length_le hmem
  have hspaced' : Spaced 0 (σ.client.recd.hdrs ++ [(e, Hdr.of .sObject data.length)])
      (e + 8 + data.length) := by
    have := hspaced.append (h := Hdr.of .sObject data.length)
    rwa [Hdr.toNat_sz_of (Nat.lt_succ_of_le hlen)] at this
  rw [Client.getObject_eq rfl hlen]
  by_cases hdata : data = []
  · subst hdata
    obtain ⟨rfl, rfl⟩ := List.append_eq_nil_iff.mp hstr
    rw [List.append_nil] at hs2c
    rw [if_pos List.length_nil]
    refine h.objectDone hcarries hsends rfl hhdrs hobjects ?_ hspaced'
    rw [hs2c, hpos]
  · rw [if_neg (fun hzero => hdata (List.eq_nil_of_length_eq_zero hzero))]
    have hlast := h.lastHdr
    have hnext := h.advance σ.client.tc
      ⟨e + 8, σ.client.recd.hdrs ++ [(e, Hdr.of .sObject data.length)]⟩ hs2c hsends
      hpos.symm (hcarries.wants hdata hstr) hspaced' (by rw [hhdrs, List.append_nil]) hobjects
    rw [← hlast]
    exact .toClient hnext

/-- The page request as the client decodes it. -/
theorem memRequest_bytes (t : Client) (page : Word) (hlast : t.lastHdr = noHdr) :
    t.memRequest (memreqBytes page) = { t with
      pc := .writeFull (Hdr.of .cMembuf 4097).bytes (.memPage page 0x1000)
      sent := t.sent.next (Hdr.of .cMembuf 4097) } := by
  have haddr : BitVec.ofNat 64 (leNat (leBytes 8 page.toNat)) = page :=
    ofNat_leNat_leBytes (k := 8) page
  have hsize : leNat (leBytes 8 0x1000) = 0x1000 := by decide
  rw [Client.memRequest, memreqBytes, List.take_left' (length_leBytes 8 _),
    List.drop_left' (length_leBytes 8 _), haddr, hsize]
  simp [Client.hdrSend, hlast, noHdr]

section Done

variable {got bytes rest : List Byte} {size : ℕ} {next : ReadThen} {t : Client}
  (hpc : σ.client.pc = .readFull got size next) (hs2c : σ.s2c = bytes ++ rest)
  (hall : (got ++ bytes).length = size)
  (ht : t = { σ.client with
    pc := .readFull (got ++ bytes) size next
    recd := σ.client.recd.add bytes.length })

include hpc hs2c hall ht

theorem ToClient.configFetch_done (h : ToClient ρ σ)
    (hn : 0 < bytes.length) (hnext : next = .hdr .configFetch) :
    Framed { σ with
      client := t.readDone (got ++ bytes) next
      s2c := rest } := by
  subst hnext
  obtain ⟨str, later, laterObj, unread, e, hsends, hwants, hspaced, hhdrs, hobjects⟩ := h.sends
  rw [hpc, hs2c] at hwants
  obtain ⟨rfl, hcount, data, rfl, rfl, heq⟩ :=
    hwants.of_configFetch (by simp [List.ne_nil_of_length_pos hn])
  obtain ⟨hbytes, hrest⟩ := append_split (by rw [hall, Hdr.length_bytes]) heq
  have hpos : σ.client.recd.count + bytes.length = e + 8 := by
    rw [List.length_append] at hall
    omega
  have hlast := h.lastHdr
  have hdone : t.readDone (got ++ bytes) (.hdr .configFetch) = { σ.client with
      pc := .readFull [] 20 .config
      recd := ⟨e + 8, σ.client.recd.hdrs ++ [(e, Hdr.of .sInit 20)]⟩ } := by
    rw [ht, hbytes, Client.readDone]
    simp [Client.hdrDone, Client.hdrTake, Hdr.of, Log.last, Log.add, hpos, hlast]
  rw [hdone]
  have hconf : ClientWants σ.server.iwcc (.readFull [] 20 .config) (e + 8) (.start data)
      (rest ++ str) [(e + 28, Hdr.of .sObject data.length)] (e + 28) :=
    .startConf (Nat.zero_lt_succ 19) hrest rfl
  refine .toClient (h.advance _ _ hs2c hsends hpos.symm hconf hspaced.append ?_ hobjects)
  rw [hhdrs, List.append_assoc]
  rfl

theorem ToClient.config_done (h : ToClient ρ σ) (hnext : next = .config) :
    Framed { σ with
      client := t.readDone (got ++ bytes) next
      s2c := rest } := by
  subst hnext
  obtain ⟨str, later, laterObj, unread, e, hsends, hwants, hspaced, hhdrs, hobjects⟩ := h.sends
  rw [hpc, hs2c] at hwants
  obtain ⟨rfl, hcount, data, rfl, rfl, heq⟩ := hwants.of_config
  obtain ⟨-, hrest⟩ := append_split (by rw [hall, IWClientConfig.length_bytes]) heq
  have hpos : (σ.client.recd.add bytes.length).count = e := by
    rw [List.length_append] at hall
    change σ.client.recd.count + bytes.length = e
    omega
  have hlast := h.lastHdr
  have hdone : t.readDone (got ++ bytes) .config = { σ.client with
      pc := .readFull [] 8 (.hdr .getObject)
      tc := got ++ bytes
      recd := σ.client.recd.add bytes.length } := by
    rw [ht, Client.readDone]
    simp [Client.hdrRecv, hlast, noHdr]
  rw [hdone]
  refine .toClient (h.advance _ _ hs2c hsends rfl ?_ hspaced hhdrs hobjects)
  rw [hpos]
  exact .startObjHdr (Nat.zero_lt_succ 7) hrest

theorem ToClient.getObject_done (h : ToClient ρ σ) (hnext : next = .hdr .getObject) :
    Framed { σ with
      client := t.readDone (got ++ bytes) next
      s2c := rest } := by
  subst hnext
  obtain ⟨str, later, laterObj, unread, e, hsends, hwants, hspaced, hhdrs, hobjects⟩ := h.sends
  rw [hpc, hs2c] at hwants
  obtain ⟨rfl, hcount, data, rfl, rfl, heq⟩ := hwants.of_getObject
  obtain ⟨hbytes, hrest⟩ := append_split (by rw [hall, Hdr.length_bytes]) heq
  have hpos : σ.client.recd.count + bytes.length = e + 8 := by
    rw [List.length_append] at hall
    omega
  have hdone : t.readDone (got ++ bytes) (.hdr .getObject) = Client.getObject { σ.client with
      pc := .readFull (got ++ bytes) 8 (.hdr .getObject)
      lastHdr := Hdr.of .sObject data.length
      recd := ⟨e + 8, σ.client.recd.hdrs ++ [(e, Hdr.of .sObject data.length)]⟩ } := by
    rw [ht, hbytes, Client.readDone]
    simp [Client.hdrDone, Log.last, Log.add, hpos]
  rw [hdone]
  exact h.objectHdr_done (Or.inl rfl) hs2c hpos hsends hrest hspaced hhdrs hobjects

theorem ToClient.getLoop_done (h : ToClient ρ σ)
    (hn : 0 < bytes.length) (hnext : next = .hdr .getLoop) :
    Framed { σ with
      client := t.readDone (got ++ bytes) next
      s2c := rest } := by
  subst hnext
  obtain ⟨str, later, laterObj, unread, e, hsends, hwants, hspaced, hhdrs, hobjects⟩ := h.sends
  rw [hpc, hs2c] at hwants
  obtain ⟨rfl, hcount, hcase⟩ := hwants.of_getLoop (by simp [List.ne_nil_of_length_pos hn])
  have hpos : σ.client.recd.count + bytes.length = e + 8 := by
    rw [List.length_append] at hall
    omega
  have hlast := h.lastHdr
  obtain ⟨addr, page, rfl, rfl, heq⟩ | ⟨addr, data, rfl, rfl, heq⟩ := hcase
  · obtain ⟨hbytes, hrest⟩ := append_split (by rw [hall, Hdr.length_bytes]) heq
    have hdone : t.readDone (got ++ bytes) (.hdr .getLoop) = { σ.client with
        pc := .readFull [] 16 .memrq
        recd := ⟨e + 8, σ.client.recd.hdrs ++ [(e, Hdr.of .sMemreq 16)]⟩ } := by
      rw [ht, hbytes, Client.readDone]
      simp [Client.hdrDone, Client.hdrTake, Hdr.of, Log.last, Log.add, hpos, hlast, eproto]
    rw [hdone]
    have hmemrq : ClientWants σ.server.iwcc (.readFull [] 16 .memrq) (e + 8)
        (.memreq addr page) (rest ++ str) [] (e + 24) :=
      .memrq (Nat.zero_lt_succ 15) hrest (by rw [hrest]; simp [memreqBytes])
    refine .toClient (h.advance _ _ hs2c hsends hpos.symm hmemrq hspaced.append ?_ hobjects)
    rw [hhdrs, List.append_nil]
  · obtain ⟨hbytes, hrest⟩ := append_split (by rw [hall, Hdr.length_bytes]) heq
    have hdone : t.readDone (got ++ bytes) (.hdr .getLoop) = Client.getObject { σ.client with
        pc := .readFull (got ++ bytes) 8 (.hdr .getLoop)
        lastHdr := Hdr.of .sObject data.length
        recd := ⟨e + 8, σ.client.recd.hdrs ++ [(e, Hdr.of .sObject data.length)]⟩ } := by
      rw [ht, hbytes, Client.readDone]
      simp [Client.hdrDone, Client.hdrTake, Hdr.of, MsgId.code, Log.last, Log.add, hpos]
    rw [hdone]
    exact h.objectHdr_done (Or.inr ⟨addr, rfl⟩) hs2c hpos hsends hrest hspaced hhdrs hobjects

/-- The client has read a page request and answers it. -/
theorem ToClient.memrq_done (h : ToClient ρ σ) (hnext : next = .memrq) :
    Framed { σ with
      client := t.readDone (got ++ bytes) next
      s2c := rest } := by
  subst hnext
  obtain ⟨str, later, laterObj, unread, e, hsends, hwants, hspaced, hhdrs, hobjects⟩ := h.sends
  rw [hpc, hs2c] at hwants
  obtain ⟨rfl, hcount, rfl, addr, page, rfl, heq⟩ := hwants.of_memrq
  have hlen : (got ++ bytes).length = (memreqBytes page).length := by
    rw [hall]
    simp [memreqBytes]
  rw [← List.append_nil (memreqBytes page)] at heq
  obtain ⟨hbytes, hend⟩ := append_split hlen heq
  obtain ⟨rfl, rfl⟩ := List.append_eq_nil_iff.mp hend
  obtain ⟨hwaits, hout, rfl, rfl⟩ := hsends.waits rfl
  change σ.server.pc = _ at hwaits
  simp only [List.append_nil, Reply.objects] at hhdrs hobjects hcount hs2c
  have hdone : t.readDone (got ++ bytes) .memrq = { σ.client with
      pc := .writeFull (Hdr.of .cMembuf 4097).bytes (.memPage page 0x1000)
      sent := σ.client.sent.next (Hdr.of .cMembuf 4097)
      recd := σ.client.recd.add bytes.length } := by
    rw [ht, hbytes, Client.readDone]
    exact memRequest_bytes _ page h.lastHdr
  rw [hdone]
  have hnext : ToServer (.membuf addr) { σ with
      client := { σ.client with
        pc := .writeFull (Hdr.of .cMembuf 4097).bytes (.memPage page 0x1000)
        sent := σ.client.sent.next (Hdr.of .cMembuf 4097)
        recd := σ.client.recd.add bytes.length }
      s2c := [] } := by
    refine
      { s2c := rfl
        out := hout
        mode := nofun
        lastHdr := h.lastHdr
        request := h.request
        closed := iff_of_false (fun hclosed => absurd (h.closed.symm.trans hclosed) nofun) nofun
        needIwcc := Or.inr h.needIwcc
        objects := hobjects
        back := Log.ext ?_ hhdrs
        spaced := ?_
        count := ?_
        sends := ⟨_, .memHdr (Hdr.bytes_ne_nil _) (List.length_replicate (n := 4097) (a := 0#8))⟩
        wants := ⟨[(σ.server.recd.count, Hdr.of .cMembuf 4097)], σ.server.recd.count, ?_, h.spaced,
          ?_⟩ }
    · rw [h.count, hs2c, hout]
      rfl
    · rw [hcount] at hspaced
      exact hspaced
    · change σ.client.sent.count = σ.server.recd.count + σ.c2s.length
      rw [h.forth, h.c2s]
      rfl
    · intro str hstr
      cases hstr with
      | memHdr _ hcontent =>
          change ServerWants _ σ.server.pc σ.server.recvSz _ _ (σ.c2s ++ _) _ _
          rw [hwaits, h.recvSz, h.c2s]
          exact .pageHdr (Nat.zero_lt_succ 7) hcontent rfl
    · change σ.client.sent.hdrs ++ [(σ.client.sent.count, _)] = _
      rw [h.forth]
  exact .toServer hnext

theorem ToClient.object_done (h : ToClient ρ σ) (hnext : next = .object) :
    Framed { σ with
      client := t.readDone (got ++ bytes) next
      s2c := rest } := by
  subst hnext
  obtain ⟨str, later, laterObj, unread, e, hsends, hwants, hspaced, hhdrs, hobjects⟩ := h.sends
  rw [hpc, hs2c] at hwants
  obtain ⟨hsize, hcount, rfl, hcarries⟩ := hwants.of_object
  have hend : rest ++ str = [] := by
    apply List.eq_nil_of_length_eq_zero
    simp only [List.length_append] at hsize hall ⊢
    omega
  obtain ⟨rfl, rfl⟩ := List.append_eq_nil_iff.mp hend
  simp only [List.append_nil] at hs2c hcount hcarries
  have hlast := h.lastHdr
  have hdone : t.readDone (got ++ bytes) .object = Client.objectDone { σ.client with
      pc := .readFull (got ++ bytes) size .object
      lastHdr := noHdr
      recd := σ.client.recd.add bytes.length } (got ++ bytes) := by
    rw [ht, Client.readDone, ← hlast]
  rw [hdone]
  refine h.objectDone hcarries hsends rfl hhdrs hobjects ?_ ?_
  · rw [hs2c, List.append_nil]
    rfl
  · rw [hcount] at hspaced
    exact hspaced

end Done

/-- A step of the client while a reply of the server is on its way. -/
theorem ToClient.of_clientStep (h : ToClient ρ σ) {σ' : Session} (hstep : ClientStep σ σ') :
    Framed σ' := by
  obtain ⟨got, size, next, hread⟩ : ∃ got size next, σ.client.pc = .readFull got size next := by
    obtain ⟨str, later, laterObj, unread, e, -, hwants, -⟩ := h.sends
    exact hwants.reads
  cases hstep with
  | read hpc hs2c hn hlt =>
      obtain ⟨str, later, laterObj, unread, e, hsends, hwants, hspaced, hhdrs, hobjects⟩ := h.sends
      rw [hpc, hs2c, List.append_assoc] at hwants
      exact .toClient (h.advance _ _ hs2c hsends rfl (hwants.part hlt) hspaced hhdrs hobjects)
  | @readAll _ _ next _ _ hpc hs2c hn hall =>
      cases next with
      | hdr use =>
          cases use with
          | configFetch => exact h.configFetch_done hpc hs2c hall rfl hn rfl
          | getObject => exact h.getObject_done hpc hs2c hall rfl rfl
          | getLoop => exact h.getLoop_done hpc hs2c hall rfl hn rfl
      | config => exact h.config_done hpc hs2c hall rfl rfl
      | memrq => exact h.memrq_done hpc hs2c hall rfl rfl
      | object => exact h.object_done hpc hs2c hall rfl rfl
  | wrote hpc => exact absurd (hread.symm.trans hpc) nofun
  | wroteAll hpc => exact absurd (hread.symm.trans hpc) nofun
  | pad hpc => exact absurd (hread.symm.trans hpc) nofun
  | mem hpc => exact absurd (hread.symm.trans hpc) nofun
  | memFault hpc => exact absurd (hread.symm.trans hpc) nofun
  | request hpc => exact absurd (hread.symm.trans hpc) nofun
  | exit hpc => exact absurd (hread.symm.trans hpc) nofun

end ClientReads

end PollyInstrew.Protocol
