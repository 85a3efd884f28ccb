import PollyInstrew.Protocol.Framing

/-!
# Messages of the client

While a message of the client is on its way, the client writes it and the
server reads it; when the server has read all of it, it is its turn.
-/

namespace PollyInstrew.Protocol

open PollyInstrew.ByteMemory
open PollyInstrew.Shared

/-! ## The client writes -/

theorem take_append_drop_append {α : Type*} (l tail : List α) (n : ℕ) :
    l.take n ++ (l.drop n ++ tail) = l ++ tail := by
  rw [← List.append_assoc, List.take_append_drop]

theorem ClientSends.of_none {tsc : IWServerConfig} {pc : ClientPc} {str : List Byte}
    (h : ClientSends tsc pc .none str) : str = [] ∧ (pc = .running ∨ pc = .exited) := by
  cases h with
  | running => exact ⟨rfl, Or.inl rfl⟩
  | exited => exact ⟨rfl, Or.inr rfl⟩

theorem ClientSends.ne_exited {tsc : IWServerConfig} {pc : ClientPc} {κ : Kind}
    {str : List Byte} (h : ClientSends tsc pc κ str) (hκ : κ ≠ .none) : pc ≠ .exited := by
  rintro rfl
  cases h
  exact hκ rfl

theorem ServerWants.of_none {tsc : IWServerConfig} {pc : ServerPc} {sz : BitVec 32}
    {count e : ℕ} {str : List Byte} {unread : List (ℕ × Hdr)}
    (h : ServerWants tsc pc sz count .none str unread e) :
    pc = .read [] 8 .runHdr ∧ sz = 0 ∧ str = [] ∧ unread = [] ∧ e = count := by
  cases h with
  | idle => exact ⟨rfl, rfl, rfl, rfl, rfl⟩

theorem ServerWants.runHdr_start {tsc : IWServerConfig} {e : ℕ} {addr : Word} :
    ServerWants tsc (.read [] 8 .runHdr) 0 e (.translate addr)
      ((Hdr.of .cTranslate 8).bytes ++ leBytes 8 addr.toNat) [(e, Hdr.of .cTranslate 8)] e :=
  .runHdr (Nat.zero_lt_succ 7) rfl

theorem ServerWants.initConf_start {tsc : IWServerConfig} {count : ℕ} {str : List Byte}
    (hstr : str = tsc.bytes) :
    ServerWants tsc (.read [] 20 .initConf) 20 count .init str [] (count + 20) := by
  apply ServerWants.initConf
  · exact Nat.zero_lt_succ 19
  · exact hstr
  · rw [hstr, IWServerConfig.length_bytes]

theorem ServerWants.addr_start {tsc : IWServerConfig} {count : ℕ} {addr : Word}
    {str : List Byte} (hstr : str = leBytes 8 addr.toNat) :
    ServerWants tsc (.read [] 8 .addr) 8 count (.translate addr) str [] (count + 8) := by
  apply ServerWants.addr
  · exact Nat.zero_lt_succ 7
  · exact hstr
  · rw [hstr, length_leBytes]

section ClientWrites

variable {κ : Kind} {σ : Session}

/-- The client writes `bytes` of its message. -/
theorem ToServer.emit (h : ToServer κ σ) {pc : ClientPc} (bytes : List Byte)
    (hκ : κ ≠ .none) (hsends : ∃ str, ClientSends σ.client.tsc pc κ str)
    (hemit : ∀ str, ClientSends σ.client.tsc pc κ str →
      ClientSends σ.client.tsc σ.client.pc κ (bytes ++ str)) :
    ToServer κ { σ with
      client := { σ.client with
        pc := pc
        sent := σ.client.sent.add bytes.length }
      c2s := σ.c2s ++ bytes } := by
  obtain ⟨unread, e, hwants, hspaced, hhdrs⟩ := h.wants
  refine
    { h with
      closed := h.closed.trans (iff_of_false ?_ ?_)
      count := ?_
      sends := hsends
      wants := ⟨unread, e, ?_, hspaced, hhdrs⟩ }
  · exact h.sends.choose_spec.ne_exited hκ
  · exact hsends.choose_spec.ne_exited hκ
  · change σ.client.sent.count + bytes.length =
      σ.server.recd.count + (σ.c2s ++ bytes).length
    rw [h.count, List.length_append]
    omega
  · intro str hstr
    have := hwants _ (hemit str hstr)
    rwa [← List.append_assoc] at this

/-- Part of a `write_full`. -/
theorem ClientSends.part {tsc : IWServerConfig} {rest : List Byte} {next : WriteThen} {n : ℕ}
    (hne : rest.drop n ≠ []) :
    (∀ str, ClientSends tsc (.writeFull rest next) κ str →
      ∃ str', ClientSends tsc (.writeFull (rest.drop n) next) κ str') ∧
    ∀ str, ClientSends tsc (.writeFull (rest.drop n) next) κ str →
      ClientSends tsc (.writeFull rest next) κ (rest.take n ++ str) := by
  have hrest : rest ≠ [] := by
    rintro rfl
    exact hne List.drop_nil
  constructor
  · intro str hstr
    cases hstr with
    | initHdr => exact ⟨_, .initHdr hne⟩
    | initTsc => exact ⟨_, .initTsc hne⟩
    | getHdr => exact ⟨_, .getHdr hne⟩
    | getAddr => exact ⟨_, .getAddr hne⟩
    | memHdr _ hlen => exact ⟨_, .memHdr hne hlen⟩
    | memPage => exact ⟨_, .memPage hne⟩
    | memFailed => exact ⟨_, .memFailed hne⟩
  · intro str hstr
    cases hstr with
    | initHdr =>
        rw [take_append_drop_append]
        exact .initHdr hrest
    | initTsc =>
        rw [List.take_append_drop]
        exact .initTsc hrest
    | getHdr =>
        rw [take_append_drop_append]
        exact .getHdr hrest
    | getAddr =>
        rw [List.take_append_drop]
        exact .getAddr hrest
    | memHdr _ hlen =>
        rw [take_append_drop_append]
        exact .memHdr hrest hlen
    | memPage =>
        rw [take_append_drop_append]
        exact .memPage hrest
    | memFailed =>
        rw [List.take_append_drop]
        exact .memFailed hrest

/-- The end of a `write_full`: the client goes on to its next transfer. -/
theorem ToServer.writeDone (h : ToServer κ σ) {rest : List Byte} {next : WriteThen}
    (hpc : σ.client.pc = .writeFull rest next) {t : Client}
    (ht : t = { σ.client with
      pc := .writeFull [] next
      sent := σ.client.sent.add rest.length }) :
    ToServer κ { σ with
      client := t.writeDone next
      c2s := σ.c2s ++ rest } := by
  have hlast := h.lastHdr
  have hreq := h.request
  obtain ⟨str, hs⟩ := h.sends
  rw [hpc] at hs
  have hκ : κ ≠ .none := by
    rintro rfl
    cases hs
  have hgoal : ∀ pc, t.writeDone next = { σ.client with
        pc := pc
        sent := σ.client.sent.add rest.length } →
      (∃ str, ClientSends σ.client.tsc pc κ str) →
      (∀ str, ClientSends σ.client.tsc pc κ str →
        ClientSends σ.client.tsc (.writeFull rest next) κ (rest ++ str)) →
      ToServer κ { σ with
        client := t.writeDone next
        c2s := σ.c2s ++ rest } := by
    intro pc heq hex hemit
    rw [heq]
    rw [← hpc] at hemit
    exact h.emit rest hκ hex hemit
  subst ht
  cases hs with
  | initHdr hrest =>
      refine hgoal (.writeFull σ.client.tsc.bytes .configFetch) rfl
        ⟨_, .initTsc (List.ne_nil_of_length_pos (by simp))⟩ ?_
      intro str hstr
      cases hstr with
      | initTsc => exact .initHdr hrest
  | initTsc hrest =>
      refine hgoal (.readFull [] 8 (.hdr .configFetch)) ?_ ⟨_, .initDone⟩ ?_
      · simp [Client.writeDone, Client.hdrRecv, hlast, noHdr]
      · intro str hstr
        cases hstr with
        | initDone =>
            rw [List.append_nil]
            exact .initTsc hrest
  | @getHdr _ addr hrest =>
      refine hgoal (.writeFull (leBytes 8 addr.toNat) .getLoop) ?_
        ⟨_, .getAddr (List.ne_nil_of_length_pos (by simp))⟩ ?_
      · simp [Client.writeDone, hreq, Kind.request]
      · intro str hstr
        cases hstr with
        | getAddr => exact .getHdr hrest
  | getAddr hrest =>
      refine hgoal (.readFull [] 8 (.hdr .getLoop)) ?_ ⟨_, .getDone⟩ ?_
      · simp [Client.writeDone, Client.hdrRecv, hlast, noHdr]
      · intro str hstr
        cases hstr with
        | getDone =>
            rw [List.append_nil]
            exact .getAddr hrest
  | memHdr hrest hlen =>
      refine hgoal (.page _ 0x1000) rfl ⟨_, .page hlen⟩ ?_
      intro str hstr
      cases hstr with
      | page hlen => exact .memHdr hrest hlen
  | @memPage _ failed _ hrest =>
      refine hgoal (.writeFull [failed] .getLoop) rfl
        ⟨_, .memFailed (List.cons_ne_nil _ _)⟩ ?_
      intro str hstr
      cases hstr with
      | memFailed => exact .memPage hrest
  | memFailed hrest =>
      refine hgoal (.readFull [] 8 (.hdr .getLoop)) ?_ ⟨_, .memDone⟩ ?_
      · simp [Client.writeDone, Client.hdrRecv, hlast, noHdr]
      · intro str hstr
        cases hstr with
        | memDone =>
            rw [List.append_nil]
            exact .memFailed hrest

/-- The server waits for a request. -/
theorem ToServer.idle (h : ToServer .none σ) :
    σ.c2s = [] ∧ σ.server.pc = .read [] 8 .runHdr ∧ σ.server.recvSz = 0 ∧
      σ.client.sent = σ.server.recd ∧ Spaced 0 σ.server.recd.hdrs σ.server.recd.count := by
  obtain ⟨str, hs⟩ := h.sends
  obtain ⟨unread, e, hwants, hspaced, hhdrs⟩ := h.wants
  have hwant := hwants str hs
  rw [hs.of_none.1, List.append_nil] at hwant
  obtain ⟨hpc, hsz, hc2s, rfl, rfl⟩ := hwant.of_none
  refine ⟨hc2s, hpc, hsz, Log.ext ?_ ?_, hspaced⟩
  · rw [h.count, hc2s]
    rfl
  · rw [hhdrs, List.append_nil]

/-- The guest needs the code at `addr`. -/
theorem ToServer.get (h : ToServer .none σ) (hpc : σ.client.pc = .running) (addr : Word) :
    ToServer (.translate addr) { σ with client := σ.client.get addr } := by
  obtain ⟨hc2s, hserver, hsz, hlog, hspaced⟩ := h.idle
  have hget : σ.client.get addr = { σ.client with
      pc := .writeFull (Hdr.of .cTranslate 8).bytes .getAddr
      request := some addr
      sent := σ.client.sent.next (Hdr.of .cTranslate 8) } := by
    simp [Client.get, Client.hdrSend, h.lastHdr, noHdr]
  rw [hget]
  refine
    { h with
      mode := nofun
      request := rfl
      closed := ?_
      needIwcc := Or.inr (h.needIwcc.resolve_left nofun)
      count := ?_
      sends := ⟨_, .getHdr (Hdr.bytes_ne_nil _)⟩
      wants := ⟨[(σ.server.recd.count, Hdr.of .cTranslate 8)], σ.server.recd.count, ?_,
        hspaced, ?_⟩ }
  · refine h.closed.trans (iff_of_false ?_ nofun)
    rw [hpc]
    exact nofun
  · exact h.count
  · intro str hstr
    cases hstr with
    | getHdr =>
        change ServerWants _ σ.server.pc σ.server.recvSz σ.server.recd.count _ (σ.c2s ++ _) _ _
        rw [hc2s, hserver, hsz, List.nil_append]
        exact .runHdr_start
  · change σ.client.sent.hdrs ++ [(σ.client.sent.count, Hdr.of .cTranslate 8)] = _
    rw [hlog]

/-- What the client finds in guest memory only changes how it goes on. -/
theorem ToServer.turn (h : ToServer κ σ) {pc : ClientPc} (hκ : κ ≠ .none)
    (hsends : ∃ str, ClientSends σ.client.tsc pc κ str)
    (hturn : ∀ str, ClientSends σ.client.tsc pc κ str →
      ClientSends σ.client.tsc σ.client.pc κ str) :
    ToServer κ { σ with client := { σ.client with pc := pc } } := by
  have := h.emit [] hκ hsends hturn
  simpa [Log.add] using this

/-- A step of the client while its message is on the way. -/
theorem ToServer.of_clientStep (h : ToServer κ σ) {σ' : Session} (hstep : ClientStep σ σ') :
    Framed σ' := by
  obtain ⟨str, hs⟩ := h.sends
  cases hstep with
  | @wrote rest next n hpc hn hrest =>
      rw [hpc] at hs
      have hlen : (rest.take n).length = n := by
        have hlt : n < rest.length := by
          by_contra hle
          exact hrest (List.drop_eq_nil_of_le (by omega))
        exact List.length_take_of_le (Nat.le_of_lt hlt)
      have hκ : κ ≠ .none := by
        rintro rfl
        cases hs
      have hemit := h.emit (rest.take n) hκ ((ClientSends.part hrest).1 str hs)
        (by rw [hpc]; exact (ClientSends.part hrest).2)
      rw [hlen] at hemit
      exact .toServer hemit
  | wroteAll hpc => exact .toServer (h.writeDone hpc rfl)
  | @pad left hpc =>
      rw [hpc] at hs
      obtain ⟨addr, rfl⟩ : ∃ addr, κ = .membuf addr := by
        cases hs
        exact ⟨_, rfl⟩
      refine .toServer (h.emit [0#8] nofun ?_ ?_)
      · split
        · exact ⟨_, .memFailed (List.cons_ne_nil _ _)⟩
        · exact ⟨List.replicate left 0, .pad (by omega) (by simp; omega)⟩
      · rw [hpc]
        intro str hstr
        have hleft : 0 < left := by
          cases hs
          assumption
        split at hstr
        · cases hstr with
          | memFailed => exact .pad hleft (by simp; omega)
        · cases hstr with
          | pad _ hlen => exact .pad hleft (by simp [hlen]; omega)
  | read hpc hs2c hn =>
      rw [h.s2c] at hs2c
      rw [(List.append_eq_nil_iff.mp hs2c.symm).1] at hn
      cases hn
  | readAll hpc hs2c hn =>
      rw [h.s2c] at hs2c
      rw [(List.append_eq_nil_iff.mp hs2c.symm).1] at hn
      cases hn
  | @mem addr bytes hpc =>
      rw [hpc] at hs
      obtain ⟨request, rfl, hlen⟩ : ∃ request, κ = .membuf request ∧ bytes.length = 0x1000 := by
        generalize bytes.length = size at hs
        cases hs
        exact ⟨_, rfl, rfl⟩
      have hne : bytes ≠ [] := List.ne_nil_of_length_pos (by omega)
      rw [if_neg hne]
      refine .toServer (h.turn nofun ⟨_, .memPage hne⟩ ?_)
      rw [hpc, hlen]
      intro str hstr
      cases hstr with
      | memPage => exact .page (by simp [hlen])
  | @memFault addr bufSz hpc hsize =>
      rw [hpc] at hs
      obtain ⟨request, rfl, rfl⟩ : ∃ request, κ = .membuf request ∧ bufSz = 0x1000 := by
        cases hs
        exact ⟨_, rfl, rfl⟩
      refine .toServer (h.turn nofun
        ⟨List.replicate 4097 0, .pad hsize (by rw [List.length_replicate])⟩ ?_)
      rw [hpc]
      intro str hstr
      cases hstr with
      | pad _ hlen => exact .page hlen
  | @request addr hpc =>
      rw [hpc] at hs
      obtain rfl : κ = .none := by
        cases hs
        rfl
      exact .toServer (h.get hpc addr)
  | exit hpc =>
      rw [hpc] at hs
      obtain rfl : κ = .none := by
        cases hs
        rfl
      obtain ⟨unread, e, hwants, hrest⟩ := h.wants
      have hexit : ToServer .none { σ with
          client := { σ.client with pc := .exited }
          closed := true } := by
        refine
          { h with
            mode := nofun
            closed := iff_of_true rfl rfl
            sends := ⟨[], .exited⟩
            wants := ⟨unread, e, ?_, hrest⟩ }
        intro str hstr
        rw [hstr.of_none.1]
        rw [hpc] at hwants
        exact hwants [] .running
      exact .toServer hexit

end ClientWrites

/-! ## The server reads -/

/-- What the client does when its message is written. -/
def Kind.Waits : Kind → ClientPc → Prop
  | .init, pc => pc = .readFull [] 8 (.hdr .configFetch)
  | .translate _, pc => pc = .readFull [] 8 (.hdr .getLoop)
  | .membuf _, pc => pc = .readFull [] 8 (.hdr .getLoop)
  | .none, pc => pc = .running ∨ pc = .exited

theorem ClientSends.waits {tsc : IWServerConfig} {pc : ClientPc} {κ : Kind} {str : List Byte}
    (h : ClientSends tsc pc κ str) (hstr : str = []) : κ.Waits pc := by
  cases h with
  | initHdr hrest => exact absurd (List.append_eq_nil_iff.mp hstr).1 hrest
  | initTsc hrest => exact absurd hstr hrest
  | initDone => rfl
  | getHdr hrest => exact absurd (List.append_eq_nil_iff.mp hstr).1 hrest
  | getAddr hrest => exact absurd hstr hrest
  | getDone => rfl
  | memHdr hrest => exact absurd (List.append_eq_nil_iff.mp hstr).1 hrest
  | page hlen =>
      rw [hstr] at hlen
      exact absurd hlen (by decide)
  | memPage hrest => exact absurd (List.append_eq_nil_iff.mp hstr).1 hrest
  | pad _ hlen =>
      rw [hstr] at hlen
      cases hlen
  | memFailed hrest => exact absurd hstr hrest
  | memDone => rfl
  | running => exact Or.inl rfl
  | exited => exact Or.inr rfl

/-- Part of an `fread`. -/
theorem ServerWants.part {tsc : IWServerConfig} {got : List Byte} {size : ℕ} {next : RecvThen}
    {sz : BitVec 32} {count e : ℕ} {κ : Kind} {bytes str : List Byte} {unread : List (ℕ × Hdr)}
    (h : ServerWants tsc (.read got size next) sz count κ (bytes ++ str) unread e)
    (hlt : (got ++ bytes).length < size) :
    ServerWants tsc (.read (got ++ bytes) size next) sz (count + bytes.length) κ str unread e := by
  generalize hall : bytes ++ str = all at h
  have hlen : all.length = bytes.length + str.length := by
    rw [← hall, List.length_append]
  cases h with
  | initHdr hgot hstr =>
      rw [Nat.add_assoc, ← List.length_append]
      exact .initHdr hlt (by rw [List.append_assoc, hall, hstr])
  | initConf hgot hstr hcount =>
      exact .initConf hlt (by rw [List.append_assoc, hall, hstr]) (by omega)
  | runHdr hgot hstr =>
      rw [Nat.add_assoc, ← List.length_append]
      exact .runHdr hlt (by rw [List.append_assoc, hall, hstr])
  | addr hgot hstr hcount =>
      exact .addr hlt (by rw [List.append_assoc, hall, hstr]) (by omega)
  | pageHdr hgot hcontent hstr =>
      rw [Nat.add_assoc, ← List.length_append]
      exact .pageHdr hlt hcontent (by rw [List.append_assoc, hall, hstr])
  | pageData hgot hstr hcount =>
      exact .pageData hlt (by rw [List.length_append]; omega) (by omega)
  | pageFailed hstr hcount =>
      obtain rfl : bytes = [] := List.eq_nil_of_length_eq_zero (by simpa using hlt)
      exact .pageFailed (by simpa [hlen] using hstr) (by simpa [hlen] using hcount)
  | idle =>
      obtain ⟨rfl, rfl⟩ := List.append_eq_nil_iff.mp hall
      exact .idle

theorem ServerWants.reads {tsc : IWServerConfig} {pc : ServerPc} {sz : BitVec 32} {count e : ℕ}
    {κ : Kind} {str : List Byte} {unread : List (ℕ × Hdr)}
    (h : ServerWants tsc pc sz count κ str unread e) :
    ∃ got size next, pc = .read got size next := by
  cases h <;> exact ⟨_, _, _, rfl⟩

section Inversion

variable {tsc : IWServerConfig} {got str : List Byte} {size count e : ℕ} {sz : BitVec 32}
  {κ : Kind} {unread : List (ℕ × Hdr)}

theorem ServerWants.of_initHdr
    (h : ServerWants tsc (.read got size .initHdr) sz count κ str unread e) :
    size = 8 ∧ count = e + got.length ∧ κ = .init ∧ unread = [(e, Hdr.of .cInit 20)] ∧
      got ++ str = (Hdr.of .cInit 20).bytes ++ tsc.bytes := by
  cases h with
  | initHdr _ hstr => exact ⟨rfl, rfl, rfl, rfl, hstr⟩

theorem ServerWants.of_initConf
    (h : ServerWants tsc (.read got size .initConf) sz count κ str unread e) :
    size = 20 ∧ sz = 20 ∧ e = count + str.length ∧ κ = .init ∧ unread = [] ∧
      got ++ str = tsc.bytes := by
  cases h with
  | initConf _ hstr hcount => exact ⟨rfl, rfl, hcount, rfl, rfl, hstr⟩

theorem ServerWants.of_runHdr
    (h : ServerWants tsc (.read got size .runHdr) sz count κ str unread e) (hstr : str ≠ []) :
    size = 8 ∧ count = e + got.length ∧ ∃ addr, κ = .translate addr ∧
      unread = [(e, Hdr.of .cTranslate 8)] ∧
      got ++ str = (Hdr.of .cTranslate 8).bytes ++ leBytes 8 addr.toNat := by
  cases h with
  | @runHdr _ _ _ addr _ heq => exact ⟨rfl, rfl, addr, rfl, rfl, heq⟩
  | idle => exact absurd rfl hstr

theorem ServerWants.of_addr
    (h : ServerWants tsc (.read got size .addr) sz count κ str unread e) :
    size = 8 ∧ sz = 8 ∧ e = count + str.length ∧ unread = [] ∧
      ∃ addr, κ = .translate addr ∧ got ++ str = leBytes 8 addr.toNat := by
  cases h with
  | @addr _ _ _ addr _ hstr _ hcount => exact ⟨rfl, rfl, hcount, rfl, addr, rfl, hstr⟩

theorem ServerWants.of_pageHdr {addr page : Word}
    (h : ServerWants tsc (.read got size (.pageHdr addr page)) sz count κ str unread e) :
    size = 8 ∧ count = e + got.length ∧ κ = .membuf addr ∧
      unread = [(e, Hdr.of .cMembuf 4097)] ∧
      ∃ content, content.length = 4097 ∧ got ++ str = (Hdr.of .cMembuf 4097).bytes ++ content := by
  cases h with
  | pageHdr _ hlen hstr => exact ⟨rfl, rfl, rfl, rfl, _, hlen, hstr⟩

theorem ServerWants.of_pageData {addr page : Word}
    (h : ServerWants tsc (.read got size (.pageData addr page)) sz count κ str unread e) :
    size = 0x1000 ∧ sz = 4097 ∧ e = count + str.length ∧ κ = .membuf addr ∧ unread = [] ∧
      got.length + str.length = 4097 := by
  cases h with
  | pageData _ hstr hcount => exact ⟨rfl, rfl, hcount, rfl, rfl, hstr⟩

theorem ServerWants.of_pageFailed {addr page : Word} {data : List Byte}
    (h : ServerWants tsc (.read got size (.pageFailed addr page data)) sz count κ str unread e) :
    size = 1 ∧ sz = 1 ∧ got = [] ∧ e = count + str.length ∧ κ = .membuf addr ∧ unread = [] ∧
      str.length = 1 := by
  cases h with
  | pageFailed hstr hcount => exact ⟨rfl, rfl, rfl, hcount, rfl, rfl, hstr⟩

end Inversion

/-- What has been read is the first part of what was expected. -/
theorem append_split {α : Type*} {got bytes rest str first content : List α}
    (hlen : (got ++ bytes).length = first.length)
    (h : got ++ (bytes ++ rest ++ str) = first ++ content) :
    got ++ bytes = first ∧ rest ++ str = content := by
  apply List.append_inj _ hlen
  rw [← h]
  simp only [List.append_assoc]

section ServerReads

variable {κ : Kind} {σ : Session}

/-- The server reads on in the message. -/
theorem ToServer.advance (h : ToServer κ σ) {pc : ServerPc} {recvSz : BitVec 32} {recd : Log}
    {rest : List Byte} {unread : List (ℕ × Hdr)} {e : ℕ}
    (hcount : σ.client.sent.count = recd.count + rest.length)
    (hwants : ∀ str, ClientSends σ.client.tsc σ.client.pc κ str →
      ServerWants σ.client.tsc pc recvSz recd.count κ (rest ++ str) unread e)
    (hspaced : Spaced 0 recd.hdrs e) (hhdrs : σ.client.sent.hdrs = recd.hdrs ++ unread) :
    ToServer κ { σ with
      server := { σ.server with
        pc := pc
        recvSz := recvSz
        recd := recd }
      c2s := rest } :=
  { h with
    count := hcount
    wants := ⟨unread, e, hwants, hspaced, hhdrs⟩ }

/-- The server has read the message and has not decided what to answer. -/
theorem ToServer.complete (h : ToServer κ σ) {ρ : Reply} {pc : ServerPc} {needIwcc : Bool}
    {pageCache : List (Word × List Byte)} {n : ℕ}
    (hn : σ.c2s.length = n) (hopen : σ.client.pc ≠ .exited)
    (hspaced : Spaced 0 σ.server.recd.hdrs (σ.server.recd.count + n))
    (hhdrs : σ.client.sent.hdrs = σ.server.recd.hdrs)
    (hrequest : κ.request = ρ.request) (hneed : needIwcc = decide (ρ = .thinkInit))
    (hobjects : ρ.objects = [])
    (hsends : ∀ count, ServerSends σ.server.iwcc pc [] count ρ [] [] [])
    (hwants : ∀ e, ClientWants σ.server.iwcc σ.client.pc e ρ [] [] e) :
    ToClient ρ { σ with
      server := { σ.server with
        pc := pc
        recvSz := 0
        needIwcc := needIwcc
        pageCache := pageCache
        recd := σ.server.recd.add n }
      c2s := [] } where
  c2s := rfl
  closed := by
    by_contra hclosed
    exact hopen (h.closed.mp (by simpa using hclosed))
  recvSz := rfl
  lastHdr := h.lastHdr
  request := h.request.trans hrequest
  needIwcc := hneed
  forth := Log.ext (by rw [h.count, hn]; rfl) hhdrs
  spaced := hspaced
  count := by
    change σ.server.sent.count = σ.client.recd.count + σ.s2c.length + σ.server.out.length
    rw [h.back, h.s2c, h.out]
    rfl
  sends := by
    refine ⟨[], [], [], [], σ.client.recd.count, ?_, ?_, h.spaced, ?_, ?_⟩
    · change ServerSends _ pc σ.server.out _ _ _ _ _
      rw [h.out]
      exact hsends _
    · change ClientWants _ σ.client.pc σ.client.recd.count ρ (σ.s2c ++ []) [] _
      rw [h.s2c]
      exact hwants _
    · rw [List.append_nil, List.append_nil]
      exact congrArg Log.hdrs h.back
    · rw [List.append_nil, hobjects, List.append_nil]
      exact h.objects

/-- The server goes on to the content of a message. -/
theorem ToServer.hdrDone (h : ToServer κ σ) {bytes rest : List Byte} {hdr : Hdr} {e : ℕ}
    {pc : ServerPc} (hc2s : σ.c2s = bytes ++ rest)
    (hpos : σ.server.recd.count + bytes.length = e + 8)
    (hspaced : Spaced 0 σ.server.recd.hdrs e)
    (hhdrs : σ.client.sent.hdrs = σ.server.recd.hdrs ++ [(e, hdr)])
    (hwants : ∀ str, ClientSends σ.client.tsc σ.client.pc κ str →
      ServerWants σ.client.tsc pc hdr.sz (e + 8) κ (rest ++ str) [] (e + 8 + hdr.sz.toNat)) :
    ToServer κ { σ with
      server := { σ.server with
        pc := pc
        recvSz := hdr.sz
        recd := ⟨e + 8, σ.server.recd.hdrs ++ [(e, hdr)]⟩ }
      c2s := rest } := by
  refine h.advance ?_ hwants hspaced.append ?_
  · have hcount := h.count
    rw [hc2s, List.length_append] at hcount
    change _ = e + 8 + rest.length
    omega
  · rw [hhdrs, List.append_nil]

section Done

variable {got bytes rest : List Byte} {size : ℕ} {next : RecvThen} {s : Server}
  (hpc : σ.server.pc = .read got size next) (hc2s : σ.c2s = bytes ++ rest)
  (hall : (got ++ bytes).length = size)
  (hs : s = { σ.server with
    pc := .read (got ++ bytes) size next
    recd := σ.server.recd.add bytes.length })

/-- The client has written all of a message and the server has read it. -/
theorem ClientSends.read_all {str : List Byte}
    (hstr : ClientSends σ.client.tsc σ.client.pc κ str) (hc2s : σ.c2s = bytes ++ rest)
    (hend : rest ++ str = []) :
    rest = [] ∧ σ.c2s.length = bytes.length ∧ κ.Waits σ.client.pc := by
  obtain ⟨hrest, hnil⟩ := List.append_eq_nil_iff.mp hend
  exact ⟨hrest, by rw [hc2s, hrest, List.append_nil], hstr.waits hnil⟩

include hpc hc2s hall hs

theorem ToServer.initHdr_done (h : ToServer κ σ) (hnext : next = .initHdr) :
    Framed { σ with
      server := s.readDone (got ++ bytes) next
      c2s := rest } := by
  subst hnext
  obtain ⟨str, hstr⟩ := h.sends
  obtain ⟨unread, e, hwants, hspaced, hhdrs⟩ := h.wants
  simp only [hpc, hc2s] at hwants
  obtain ⟨rfl, hcount, rfl, rfl, heq⟩ := (hwants str hstr).of_initHdr
  have hlen : (got ++ bytes).length = (Hdr.of .cInit 20).bytes.length := by
    rw [hall, Hdr.length_bytes]
  have hbytes := (append_split hlen heq).1
  have hpos : σ.server.recd.count + bytes.length = e + 8 := by
    rw [List.length_append] at hall
    omega
  have hdone : s.readDone (got ++ bytes) .initHdr = { σ.server with
      pc := .read [] 20 .initConf
      recvSz := 20
      recd := ⟨e + 8, σ.server.recd.hdrs ++ [(e, Hdr.of .cInit 20)]⟩ } := by
    rw [hs, Server.readDone, hbytes]
    simp [Server.gotHdr, Server.connRead, Log.last, Log.add, hpos, Hdr.of]
  rw [hdone]
  refine .toServer (h.hdrDone hc2s hpos hspaced hhdrs ?_)
  intro str hstr
  have hrest := (append_split hlen (hwants str hstr).of_initHdr.2.2.2.2).2
  exact .initConf_start hrest

theorem ToServer.runHdr_done (h : ToServer κ σ) (hn : 0 < bytes.length) (hnext : next = .runHdr) :
    Framed { σ with
      server := s.readDone (got ++ bytes) next
      c2s := rest } := by
  subst hnext
  obtain ⟨str, hstr⟩ := h.sends
  obtain ⟨unread, e, hwants, hspaced, hhdrs⟩ := h.wants
  simp only [hpc, hc2s] at hwants
  have hne : ∀ str, bytes ++ rest ++ str ≠ [] := by
    intro str
    simp [List.ne_nil_of_length_pos hn]
  obtain ⟨rfl, hcount, addr, rfl, rfl, heq⟩ := (hwants str hstr).of_runHdr (hne str)
  have hlen : (got ++ bytes).length = (Hdr.of .cTranslate 8).bytes.length := by
    rw [hall, Hdr.length_bytes]
  have hbytes := (append_split hlen heq).1
  have hpos : σ.server.recd.count + bytes.length = e + 8 := by
    rw [List.length_append] at hall
    omega
  have hdone : s.readDone (got ++ bytes) .runHdr = { σ.server with
      pc := .read [] 8 .addr
      recvSz := 8
      recd := ⟨e + 8, σ.server.recd.hdrs ++ [(e, Hdr.of .cTranslate 8)]⟩ } := by
    rw [hs, Server.readDone, hbytes]
    simp [Server.gotHdr, Server.runMsg, Server.connRead, Log.last, Log.add, hpos, Hdr.of,
      MsgId.code]
  rw [hdone]
  refine .toServer (h.hdrDone hc2s hpos hspaced hhdrs ?_)
  intro str hstr
  obtain ⟨-, -, addr', hkind, -, heq⟩ := (hwants str hstr).of_runHdr (hne str)
  obtain rfl := Kind.translate.inj hkind
  have hrest := (append_split hlen heq).2
  exact .addr_start hrest

theorem ToServer.pageHdr_done (h : ToServer κ σ) {addr page : Word}
    (hnext : next = .pageHdr addr page) :
    Framed { σ with
      server := s.readDone (got ++ bytes) next
      c2s := rest } := by
  subst hnext
  obtain ⟨str, hstr⟩ := h.sends
  obtain ⟨unread, e, hwants, hspaced, hhdrs⟩ := h.wants
  simp only [hpc, hc2s] at hwants
  obtain ⟨rfl, hcount, rfl, rfl, content, hcontent, heq⟩ := (hwants str hstr).of_pageHdr
  have hlen : (got ++ bytes).length = (Hdr.of .cMembuf 4097).bytes.length := by
    rw [hall, Hdr.length_bytes]
  have hbytes := (append_split hlen heq).1
  have hpos : σ.server.recd.count + bytes.length = e + 8 := by
    rw [List.length_append] at hall
    omega
  have hdone : s.readDone (got ++ bytes) (.pageHdr addr page) = { σ.server with
      pc := .read [] 0x1000 (.pageData addr page)
      recvSz := 4097
      recd := ⟨e + 8, σ.server.recd.hdrs ++ [(e, Hdr.of .cMembuf 4097)]⟩ } := by
    rw [hs, Server.readDone, hbytes]
    simp [Server.gotHdr, Server.connRead, Log.last, Log.add, hpos, Hdr.of]
  rw [hdone]
  refine .toServer (h.hdrDone hc2s hpos hspaced hhdrs ?_)
  intro str hstr
  obtain ⟨-, -, -, -, content, hcontent, heq⟩ := (hwants str hstr).of_pageHdr
  have hrest := (append_split hlen heq).2
  exact .pageData (by decide) (by rw [hrest, hcontent]; rfl) (by rw [hrest, hcontent]; rfl)

theorem ToServer.pageData_done (h : ToServer κ σ) {addr page : Word}
    (hnext : next = .pageData addr page) :
    Framed { σ with
      server := s.readDone (got ++ bytes) next
      c2s := rest } := by
  subst hnext
  obtain ⟨str, hstr⟩ := h.sends
  obtain ⟨unread, e, hwants, hspaced, hhdrs⟩ := h.wants
  simp only [hpc, hc2s] at hwants
  obtain ⟨rfl, hsz, hcount, rfl, rfl, heq⟩ := (hwants str hstr).of_pageData
  have hdone : s.readDone (got ++ bytes) (.pageData addr page) = { σ.server with
      pc := .read [] 1 (.pageFailed addr page (got ++ bytes))
      recvSz := 1
      recd := σ.server.recd.add bytes.length } := by
    rw [hs, Server.readDone]
    simp [Server.gotBytes, Server.connRead, hsz]
  rw [hdone]
  refine .toServer (h.advance ?_ ?_ hspaced hhdrs)
  · rw [h.count, hc2s, List.length_append, ← Nat.add_assoc]
    rfl
  · intro str hstr
    obtain ⟨-, -, hcount, -, -, heq⟩ := (hwants str hstr).of_pageData
    simp only [List.length_append] at hall hcount heq
    have hlen : (rest ++ str).length = 1 := by
      rw [List.length_append]
      omega
    refine .pageFailed hlen ?_
    rw [hlen, hcount]
    dsimp only [Log.add]
    omega

theorem ToServer.initConf_done (h : ToServer κ σ) (hnext : next = .initConf) :
    Framed { σ with
      server := s.readDone (got ++ bytes) next
      c2s := rest } := by
  subst hnext
  obtain ⟨str, hstr⟩ := h.sends
  obtain ⟨unread, e, hwants, hspaced, hhdrs⟩ := h.wants
  simp only [hpc, hc2s] at hwants
  obtain ⟨rfl, hsz, hcount, rfl, rfl, heq⟩ := (hwants str hstr).of_initConf
  have hlen : (got ++ bytes).length = σ.client.tsc.bytes.length := by
    rw [hall, IWServerConfig.length_bytes]
  rw [← List.append_nil σ.client.tsc.bytes] at heq
  obtain ⟨hbytes, hend⟩ := append_split hlen heq
  obtain ⟨rfl, hn, hwait⟩ := hstr.read_all hc2s hend
  obtain rfl := (List.append_eq_nil_iff.mp hend).2
  simp only [List.append_nil] at hcount hhdrs
  have hdone : s.readDone (got ++ bytes) .initConf = { σ.server with
      pc := .init
      recvSz := 0
      needIwcc := true
      recd := σ.server.recd.add bytes.length } := by
    rw [hs, Server.readDone, hbytes]
    simp [Server.gotBytes, hsz, serverMode_bytes, h.mode rfl]
  rw [hdone]
  change σ.client.pc = _ at hwait
  exact .toClient (h.complete hn (by rw [hwait]; exact nofun) (hcount ▸ hspaced) hhdrs rfl rfl rfl
    (fun _ => .thinkInit) (by rw [hwait]; exact fun _ => .thinkInit))

theorem ToServer.addr_done (h : ToServer κ σ) (hnext : next = .addr) :
    Framed { σ with
      server := s.readDone (got ++ bytes) next
      c2s := rest } := by
  subst hnext
  obtain ⟨str, hstr⟩ := h.sends
  obtain ⟨unread, e, hwants, hspaced, hhdrs⟩ := h.wants
  simp only [hpc, hc2s] at hwants
  obtain ⟨rfl, hsz, hcount, rfl, addr, rfl, heq⟩ := (hwants str hstr).of_addr
  have hlen : (got ++ bytes).length = (leBytes 8 addr.toNat).length := by
    rw [hall, length_leBytes]
  rw [← List.append_nil (leBytes 8 addr.toNat)] at heq
  obtain ⟨hbytes, hend⟩ := append_split hlen heq
  obtain ⟨rfl, hn, hwait⟩ := hstr.read_all hc2s hend
  obtain rfl := (List.append_eq_nil_iff.mp hend).2
  simp only [List.append_nil] at hcount hhdrs
  have haddr : BitVec.ofNat 64 (leNat (leBytes 8 addr.toNat)) = addr :=
    ofNat_leNat_leBytes (k := 8) addr
  have hdone : s.readDone (got ++ bytes) .addr = { σ.server with
      pc := .translating addr
      recvSz := 0
      recd := σ.server.recd.add bytes.length } := by
    rw [hs, Server.readDone, hbytes, haddr]
    simp [Server.gotBytes, hsz]
  change σ.client.pc = _ at hwait
  have hneed : σ.server.needIwcc = decide (Reply.think addr = .thinkInit) :=
    h.needIwcc.resolve_left nofun
  rw [hdone]
  exact .toClient (h.complete hn (by rw [hwait]; exact nofun) (hcount ▸ hspaced) hhdrs rfl
    hneed rfl (fun _ => .think) (by rw [hwait]; exact fun _ => .think))

theorem ToServer.pageFailed_done (h : ToServer κ σ) {addr page : Word} {data : List Byte}
    (hnext : next = .pageFailed addr page data) :
    Framed { σ with
      server := s.readDone (got ++ bytes) next
      c2s := rest } := by
  subst hnext
  obtain ⟨str, hstr⟩ := h.sends
  obtain ⟨unread, e, hwants, hspaced, hhdrs⟩ := h.wants
  simp only [hpc, hc2s] at hwants
  obtain ⟨rfl, hsz, rfl, hcount, rfl, rfl, heq⟩ := (hwants str hstr).of_pageFailed
  rw [List.nil_append] at hall
  have hend : rest ++ str = [] := by
    apply List.eq_nil_of_length_eq_zero
    simp only [List.length_append] at heq ⊢
    omega
  obtain ⟨rfl, hn, hwait⟩ := hstr.read_all hc2s hend
  obtain rfl := (List.append_eq_nil_iff.mp hend).2
  simp only [List.append_nil] at hcount hhdrs
  have hdone : s.readDone ([] ++ bytes) (.pageFailed addr page data) = { σ.server with
      pc := .translating addr
      recvSz := 0
      pageCache :=
        if bytes = [0#8] then σ.server.pageCache ++ [(page, data)] else σ.server.pageCache
      recd := σ.server.recd.add bytes.length } := by
    rw [hs, Server.readDone]
    simp [Server.gotBytes, hsz]
  change σ.client.pc = _ at hwait
  have hneed : σ.server.needIwcc = decide (Reply.think addr = .thinkInit) :=
    h.needIwcc.resolve_left nofun
  rw [hdone]
  exact .toClient (h.complete hn (by rw [hwait]; exact nofun) (hcount ▸ hspaced) hhdrs rfl
    hneed rfl (fun _ => .think) (by rw [hwait]; exact fun _ => .think))

end Done

/-- The client is gone and the server reads the end of the file. -/
theorem ToServer.eof (h : ToServer κ σ) {got : List Byte} {size : ℕ} {next : RecvThen}
    (hpc : σ.server.pc = .read got size next) (hclosed : σ.closed = true) :
    Framed { σ with server := σ.server.readEof next } := by
  have hexited := h.closed.mp hclosed
  obtain ⟨str, hstr⟩ := h.sends
  rw [hexited] at hstr
  obtain rfl : κ = .none := by
    cases hstr
    rfl
  obtain ⟨hc2s, hserver, hsz, hlog, hspaced⟩ := h.idle
  rw [hpc] at hserver
  obtain ⟨rfl, rfl, rfl⟩ := ServerPc.read.inj hserver
  exact .ended
    { client := hexited
      server := rfl
      out := h.out
      objects := h.objects
      back := h.back
      forth := hlog
      spacedServer := hspaced
      spacedClient := h.spaced }

/-- The server reads while a message of the client is on its way. -/
theorem ToServer.reads (h : ToServer κ σ) : ∃ got size next, σ.server.pc = .read got size next := by
  obtain ⟨str, hstr⟩ := h.sends
  obtain ⟨unread, e, hwants, -⟩ := h.wants
  exact (hwants str hstr).reads

/-- A step of the server while a message of the client is on its way. -/
theorem ToServer.of_serverStep (h : ToServer κ σ) {σ' : Session} (hstep : ServerStep σ σ') :
    Framed σ' := by
  obtain ⟨got, size, next, hread⟩ := h.reads
  cases hstep with
  | @read _ _ _ bytes rest hpc hc2s hn hlt =>
      obtain ⟨unread, e, hwants, hspaced, hhdrs⟩ := h.wants
      simp only [hpc, hc2s, List.append_assoc] at hwants
      refine .toServer (h.advance ?_ (fun str hstr => (hwants str hstr).part hlt) hspaced hhdrs)
      rw [h.count, hc2s, List.length_append, ← Nat.add_assoc]
      rfl
  | @readAll _ _ next _ _ hpc hc2s hn hall =>
      cases next with
      | initHdr => exact h.initHdr_done hpc hc2s hall rfl rfl
      | initConf => exact h.initConf_done hpc hc2s hall rfl rfl
      | runHdr => exact h.runHdr_done hpc hc2s hall rfl hn rfl
      | addr => exact h.addr_done hpc hc2s hall rfl rfl
      | pageHdr addr page => exact h.pageHdr_done hpc hc2s hall rfl rfl
      | pageData addr page => exact h.pageData_done hpc hc2s hall rfl rfl
      | pageFailed addr page data => exact h.pageFailed_done hpc hc2s hall rfl rfl
  | eof hpc hclosed => exact h.eof hpc hclosed
  | spill hout hn =>
      rw [h.out] at hout
      rw [(List.append_eq_nil_iff.mp hout.symm).1] at hn
      cases hn
  | flushed hpc => exact absurd (hread.symm.trans hpc) nofun
  | sendfile hpc => exact absurd (hread.symm.trans hpc) nofun
  | sendfileAll hpc => exact absurd (hread.symm.trans hpc) nofun
  | initObject hpc => exact absurd (hread.symm.trans hpc) nofun
  | getPage hpc => exact absurd (hread.symm.trans hpc) nofun
  | object hpc => exact absurd (hread.symm.trans hpc) nofun
  | cached hpc => exact absurd (hread.symm.trans hpc) nofun

end ServerReads

end PollyInstrew.Protocol
