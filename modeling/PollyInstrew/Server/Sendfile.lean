import PollyInstrew.Shared.Protocol
import PollyInstrew.Support.StateExcept

/-!
# Sending a cached object

`CacheProbe` announces the size of a cached file and lets the kernel send it.
`Conn::Sendfile` goes on until everything is sent, also when `sendfile` makes no
progress, and in the end takes the count that is left, not the one that was sent,
off the announced size.
-/

namespace PollyInstrew.Server

open PollyInstrew.ByteMemory PollyInstrew.Shared PollyInstrew.StateExcept

/-! ## The writing side of `Conn` -/

/-- `buffer` is that of `file_wr`, `stream` what has gone to its descriptor. -/
structure Conn where
  wrHdr : Hdr
  buffer : List Byte
  stream : List Byte
  deriving DecidableEq

/-- Why a function of `Conn` does not return: a failed assertion, or a loop that has not
ended within the given number of iterations. -/
inductive ConnStop where
  | msgTooLarge
  | noMsgHdr
  | noMsgContent
  | noSendfile
  | running
  deriving DecidableEq

/-- What the system does: whether `fwrite` takes the bytes, and what call number `i` of
`sendfile` sends of `n` bytes; a negative result is none. -/
structure ConnHost where
  fwrite : List Byte → Bool
  sendfile : ℕ → ℕ → Option (List Byte)
  sendfile_le : ∀ i n bytes, sendfile i n = some bytes → bytes.length ≤ n

abbrev ConnM := Prog Conn ConnStop

def fwrite (host : ConnHost) (bytes : List Byte) (why : ConnStop) : ConnM Unit :=
  if host.fwrite bytes then
    Prog.modify fun c => { c with buffer := c.buffer ++ bytes }
  else
    Prog.fail why

def fflush : ConnM Unit :=
  Prog.modify fun c => { c with
    stream := c.stream ++ c.buffer
    buffer := [] }

/-- `wr_hdr.sz -= size`, an `int32_t` and a `size_t`. -/
def takeOff (size : BitVec 64) : ConnM Unit :=
  Prog.modify fun c => { c with
    wrHdr := { c.wrHdr with sz := (c.wrHdr.sz.signExtend 64 - size).setWidth 32 } }

/-- `Conn::SendMsgHdr`. -/
def sendMsgHdr (host : ConnHost) (id : MsgId) (size : BitVec 64) : ConnM Unit :=
  if 0x7fffffff < size then
    Prog.fail .msgTooLarge
  else do
    Prog.modify fun c => { c with wrHdr := ⟨id.code, size.setWidth 32⟩ }
    let c ← Prog.get
    fwrite host c.wrHdr.bytes .noMsgHdr

/-- `fwrite` of content that may be empty. -/
def fwriteContent (host : ConnHost) (buf : List Byte) : ConnM Unit :=
  if buf.length > 0 then fwrite host buf .noMsgContent else pure ()

/-- `Conn::Write`. -/
def write (host : ConnHost) (buf : List Byte) : ConnM Unit := do
  fwriteContent host buf
  takeOff (BitVec.ofNat 64 buf.length)
  let c ← Prog.get
  if c.wrHdr.sz = 0 then fflush else pure ()

/-- The loop of `Conn::Sendfile`, from call number `i` on: what is left of the count. -/
def sendfileLoop (host : ConnHost) : ℕ → ℕ → BitVec 64 → ConnM (BitVec 64)
  | 0, _, _ => Prog.fail .running
  | fuel + 1, i, size =>
      if size = 0 then
        pure size
      else
        match host.sendfile i size.toNat with
        | none => Prog.fail .noSendfile
        | some bytes => do
            Prog.modify fun c => { c with stream := c.stream ++ bytes }
            sendfileLoop host fuel (i + 1) (size - BitVec.ofNat 64 bytes.length)

/-- `Conn::Sendfile`. -/
def sendfile (host : ConnHost) (fuel : ℕ) (size : BitVec 64) : ConnM Unit := do
  fflush
  let size ← sendfileLoop host fuel 0 size
  takeOff size

/-- `IWConnection::CacheProbe`, for the size of the file that `Cache::Get` has found. -/
def cacheProbe (host : ConnHost) (fuel : ℕ) (res : Option (BitVec 64)) : ConnM Bool :=
  match res with
  | none => pure false
  | some size => do
      sendMsgHdr host .sObject size
      sendfile host fuel size
      return true

/-! ## What sending should do -/

/-- The header and so many bytes have been sent, and nothing is pending. -/
structure SentAll (size : BitVec 64) (c c' : Conn) : Prop where
  stream_eq : ∃ payload : List Byte, payload.length = size.toNat ∧
    c'.stream = c.stream ++ c.buffer ++ (Hdr.of .sObject size.toNat).bytes ++ payload
  buffer_eq : c'.buffer = []
  sz_eq : c'.wrHdr.sz = 0

/-- Sending a cached object ends, and if it returns everything is sent. -/
def SendsRight (host : ConnHost) (size : BitVec 64) (c : Conn) : Prop :=
  (∃ fuel, ((cacheProbe host fuel (some size)).run c).1 ≠ .error .running) ∧
    ∀ fuel c', (cacheProbe host fuel (some size)).run c = (.ok true, c') → SentAll size c c'

/-! ## The loop -/

section Loop

variable {host : ConnHost}

/-- From call number `i` on, `n` bytes are sent. -/
inductive Sends (host : ConnHost) : ℕ → ℕ → List Byte → Prop
  | done {i : ℕ} : Sends host i 0 []
  | more {i n : ℕ} {bytes payload : List Byte} (hn : n ≠ 0) (hsend : host.sendfile i n = some bytes)
      (hrest : Sends host (i + 1) (n - bytes.length) payload) : Sends host i n (bytes ++ payload)

/-- From call number `i` on, a negative result comes before `n` bytes are sent. -/
inductive Fails (host : ConnHost) : ℕ → ℕ → Prop
  | now {i n : ℕ} (hn : n ≠ 0) (hsend : host.sendfile i n = none) : Fails host i n
  | later {i n : ℕ} {bytes : List Byte} (hn : n ≠ 0) (hsend : host.sendfile i n = some bytes)
      (hrest : Fails host (i + 1) (n - bytes.length)) : Fails host i n

theorem Sends.length_eq {i n : ℕ} {payload : List Byte} (h : Sends host i n payload) :
    payload.length = n := by
  induction h with
  | done => rfl
  | more hn hsend hrest ih =>
      have hle := host.sendfile_le _ _ _ hsend
      rw [List.length_append, ih]
      omega

theorem Fails.not_sends {i n : ℕ} (h : Fails host i n) :
    ∀ payload, ¬Sends host i n payload := by
  induction h with
  | now hn hsend =>
      intro payload hsends
      cases hsends with
      | done => exact hn rfl
      | more _ hsend' _ =>
          rw [hsend] at hsend'
          exact absurd hsend' (by simp)
  | later hn hsend hrest ih =>
      intro payload hsends
      cases hsends with
      | done => exact hn rfl
      | more _ hsend' hrest' =>
          rw [hsend] at hsend'
          obtain rfl := Option.some.inj hsend'
          exact ih _ hrest'

theorem toNat_sub_length {i : ℕ} {size : BitVec 64} {bytes : List Byte}
    (hsend : host.sendfile i size.toNat = some bytes) :
    (size - BitVec.ofNat 64 bytes.length).toNat = size.toNat - bytes.length := by
  have hle := host.sendfile_le _ _ _ hsend
  have hlt := size.isLt
  rw [BitVec.toNat_sub, BitVec.toNat_ofNat]
  omega

/-- How the loop ends. -/
theorem sendfileLoop_cases (host : ConnHost) : ∀ (fuel i : ℕ) (size : BitVec 64) (c : Conn),
    (∃ payload, Sends host i size.toNat payload ∧ (sendfileLoop host fuel i size).run c =
        (.ok 0, { c with stream := c.stream ++ payload })) ∨
      (Fails host i size.toNat ∧ ((sendfileLoop host fuel i size).run c).1 =
        .error .noSendfile) ∨
      ((sendfileLoop host fuel i size).run c).1 = .error .running := by
  intro fuel
  induction fuel with
  | zero => exact fun i size c => Or.inr (Or.inr rfl)
  | succ fuel ih =>
      intro i size c
      rw [sendfileLoop]
      by_cases hsize : size = 0
      · rw [if_pos hsize, hsize]
        refine Or.inl ⟨[], .done, ?_⟩
        rw [List.append_nil]
        rfl
      have hn : size.toNat ≠ 0 := fun h => hsize (BitVec.eq_of_toNat_eq h)
      rw [if_neg hsize]
      cases hsend : host.sendfile i size.toNat with
      | none => exact Or.inr (Or.inl ⟨.now hn hsend, rfl⟩)
      | some bytes =>
          have hleft := toNat_sub_length hsend
          rcases ih (i + 1) (size - BitVec.ofNat 64 bytes.length)
              { c with stream := c.stream ++ bytes } with
            ⟨payload, hsends, hrun⟩ | ⟨hfails, hrun⟩ | hrun
          · rw [hleft] at hsends
            refine Or.inl ⟨bytes ++ payload, .more hn hsend hsends, ?_⟩
            rw [← List.append_assoc]
            exact hrun
          · rw [hleft] at hfails
            exact Or.inr (Or.inl ⟨.later hn hsend hfails, hrun⟩)
          · exact Or.inr (Or.inr hrun)

/-- A negative result ends the loop. -/
theorem Fails.ends {i n : ℕ} (h : Fails host i n) : ∀ (size : BitVec 64), size.toNat = n →
    ∃ fuel, ∀ c, ((sendfileLoop host fuel i size).run c).1 = .error .noSendfile := by
  induction h with
  | now hn hsend =>
      intro size hsize
      refine ⟨1, fun c => ?_⟩
      rw [← hsize] at hn hsend
      rw [sendfileLoop, if_neg fun h => hn (by rw [h]; rfl), hsend]
      rfl
  | later hn hsend hrest ih =>
      intro size hsize
      rw [← hsize] at hn hsend ih
      obtain ⟨fuel, hfuel⟩ := ih _ (toNat_sub_length hsend)
      refine ⟨fuel + 1, fun c => ?_⟩
      rw [sendfileLoop, if_neg fun h => hn (by rw [h]; rfl), hsend]
      exact hfuel _

end Loop

/-! ## The whole call -/

section Call

variable (host : ConnHost) (size : BitVec 64) (c : Conn)

/-- The connection after the header has been written and flushed. -/
def Conn.announced : Conn where
  wrHdr := Hdr.of .sObject size.toNat
  buffer := []
  stream := c.stream ++ c.buffer ++ (Hdr.of .sObject size.toNat).bytes

/-- The header can be sent. -/
structure HdrOk : Prop where
  size_le : size.toNat ≤ 0x7fffffff
  fwrite : host.fwrite (Hdr.of .sObject size.toNat).bytes = true

variable {host size c}

theorem hdr_eq (id : MsgId) (size : BitVec 64) :
    (⟨id.code, size.setWidth 32⟩ : Hdr) = Hdr.of id size.toNat := rfl

theorem run_sendMsgHdr (h : HdrOk host size) :
    (sendMsgHdr host .sObject size).run c = (.ok (), { c with
      wrHdr := Hdr.of .sObject size.toNat
      buffer := c.buffer ++ (Hdr.of .sObject size.toNat).bytes }) := by
  have hle : ¬0x7fffffff < size := by
    have hmax : (0x7fffffff : BitVec 64).toNat = 0x7fffffff := by decide
    have hsize := h.size_le
    rw [BitVec.lt_def, hmax]
    omega
  rw [sendMsgHdr, if_neg hle, Prog.run_bind, Prog.run_modify, hdr_eq]
  dsimp only
  rw [Prog.run_bind, Prog.run_get]
  dsimp only
  rw [fwrite, if_pos h.fwrite, Prog.run_modify]

theorem run_cacheProbe (h : HdrOk host size) (fuel : ℕ) :
    (cacheProbe host fuel (some size)).run c = (do
      let left ← sendfileLoop host fuel 0 size
      takeOff left
      return true : ConnM Bool).run (c.announced size) := by
  rw [cacheProbe, Prog.run_bind, run_sendMsgHdr h]
  dsimp only
  rw [sendfile, Prog.bind_assoc, Prog.run_bind, fflush, Prog.run_modify]
  dsimp only
  rw [Prog.bind_assoc, Conn.announced, List.append_assoc]

/-- Without a header nothing else is tried. -/
theorem cacheProbe_of_not_hdrOk (h : ¬HdrOk host size) (fuel : ℕ) :
    ((cacheProbe host fuel (some size)).run c).1 = .error .msgTooLarge ∨
      ((cacheProbe host fuel (some size)).run c).1 = .error .noMsgHdr := by
  have hmax : (0x7fffffff : BitVec 64).toNat = 0x7fffffff := by decide
  by_cases hlt : 0x7fffffff < size
  · left
    rw [cacheProbe, Prog.run_bind, sendMsgHdr, if_pos hlt, Prog.run_fail]
  · have hfwrite : ¬host.fwrite (Hdr.of .sObject size.toNat).bytes = true := by
      intro hfwrite
      rw [BitVec.lt_def, hmax] at hlt
      exact h ⟨by omega, hfwrite⟩
    right
    rw [cacheProbe, Prog.run_bind, sendMsgHdr, if_neg hlt, Prog.run_bind, Prog.run_modify,
      hdr_eq]
    dsimp only
    rw [Prog.run_bind, Prog.run_get]
    dsimp only
    rw [fwrite, if_neg hfwrite, Prog.run_fail]

theorem run_takeOff_zero : (takeOff 0).run c = (.ok (), c) := by
  have hsz : (c.wrHdr.sz.signExtend 64 - 0#64).setWidth 32 = c.wrHdr.sz := by
    refine BitVec.eq_of_getLsbD_eq fun i hi => ?_
    rw [BitVec.sub_zero, BitVec.getLsbD_setWidth, BitVec.getLsbD_signExtend, if_pos hi,
      decide_eq_true hi, decide_eq_true (show i < 64 by omega), Bool.true_and, Bool.true_and]
  have hc : { c with wrHdr := { c.wrHdr with
      sz := (c.wrHdr.sz.signExtend 64 - 0#64).setWidth 32 } } = c := by
    rw [hsz]
  exact congrArg (Prod.mk _) hc

/-- How sending ends once the header is written; the announced size stays pending. -/
theorem cacheProbe_cases (h : HdrOk host size) (fuel : ℕ) :
    (∃ payload, Sends host 0 size.toNat payload ∧ (cacheProbe host fuel (some size)).run c =
        (.ok true, { c.announced size with stream := (c.announced size).stream ++ payload })) ∨
      (Fails host 0 size.toNat ∧
        ((cacheProbe host fuel (some size)).run c).1 = .error .noSendfile) ∨
      ((cacheProbe host fuel (some size)).run c).1 = .error .running := by
  rw [run_cacheProbe h]
  rcases sendfileLoop_cases host fuel 0 size (c.announced size) with
    ⟨payload, hsends, hrun⟩ | ⟨hfails, hrun⟩ | hrun
  · refine Or.inl ⟨payload, hsends, ?_⟩
    rw [Prog.run_bind_of_ok hrun, Prog.run_bind_of_ok run_takeOff_zero]
    rfl
  · exact Or.inr (Or.inl ⟨hfails, Prog.fst_run_bind_of_error _ hrun⟩)
  · exact Or.inr (Or.inr (Prog.fst_run_bind_of_error _ hrun))

theorem Fails.cacheProbe_ends (hhdr : HdrOk host size) (h : Fails host 0 size.toNat) :
    ∃ fuel, ((cacheProbe host fuel (some size)).run c).1 = .error .noSendfile := by
  obtain ⟨fuel, hfuel⟩ := h.ends size rfl
  refine ⟨fuel, ?_⟩
  rw [run_cacheProbe hhdr]
  exact Prog.fst_run_bind_of_error _ (hfuel _)

/-- After a normal return everything is sent and all of it is still pending. -/
theorem cacheProbe_ok {fuel : ℕ} {c' : Conn}
    (hrun : (cacheProbe host fuel (some size)).run c = (.ok true, c')) :
    HdrOk host size ∧ ∃ payload, Sends host 0 size.toNat payload ∧
      c' = { c.announced size with stream := (c.announced size).stream ++ payload } := by
  by_cases hhdr : HdrOk host size
  · refine ⟨hhdr, ?_⟩
    rcases cacheProbe_cases (c := c) hhdr fuel with ⟨payload, hsends, hrun'⟩ | ⟨-, hfail⟩ | hfail
    · rw [hrun] at hrun'
      exact ⟨payload, hsends, (Prod.mk.inj hrun').2⟩
    · rw [hrun] at hfail
      cases hfail
    · rw [hrun] at hfail
      cases hfail
  · rcases cacheProbe_of_not_hdrOk (c := c) hhdr fuel with hfail | hfail
    · rw [hrun] at hfail
      cases hfail
    · rw [hrun] at hfail
      cases hfail

theorem ends_of_error {fuel : ℕ} {why : ConnStop}
    (hrun : ((cacheProbe host fuel (some size)).run c).1 = .error why) (hwhy : why ≠ .running) :
    ∃ fuel, ((cacheProbe host fuel (some size)).run c).1 ≠ .error .running := by
  refine ⟨fuel, ?_⟩
  rw [hrun]
  exact fun h => hwhy (Except.error.inj h)

/-- For comparison: after `Conn::Write` everything is sent and nothing is pending. -/
theorem write_sentAll {buf : List Byte} {c' : Conn}
    (hhdr : HdrOk host (BitVec.ofNat 64 buf.length)) (hlen : buf.length < 2 ^ 64)
    (hrun : (do
      sendMsgHdr host .sObject (BitVec.ofNat 64 buf.length)
      write host buf : ConnM Unit).run c = (.ok (), c')) :
    SentAll (BitVec.ofNat 64 buf.length) c c' := by
  have hsize : (BitVec.ofNat 64 buf.length).toNat = buf.length := by
    rw [BitVec.toNat_ofNat, Nat.mod_eq_of_lt hlen]
  have hle := hhdr.size_le
  rw [hsize] at hle
  have hsz : ((BitVec.ofNat 32 buf.length).signExtend 64 -
      BitVec.ofNat 64 buf.length).setWidth 32 = 0 := by
    have hmsb : (BitVec.ofNat 32 buf.length).msb = false := by
      rw [BitVec.msb_eq_false_iff_two_mul_lt, BitVec.toNat_ofNat]
      omega
    have hext : (BitVec.ofNat 32 buf.length).setWidth 64 = BitVec.ofNat 64 buf.length := by
      apply BitVec.eq_of_toNat_eq
      rw [BitVec.toNat_setWidth, BitVec.toNat_ofNat, BitVec.toNat_ofNat]
      omega
    rw [BitVec.signExtend_eq_setWidth_of_msb_false hmsb, hext, BitVec.sub_self]
    rfl
  rw [Prog.run_bind_of_ok (run_sendMsgHdr hhdr), hsize, write] at hrun
  obtain ⟨_, c₁, hwrite, hrun⟩ := Prog.run_bind_eq_ok.mp hrun
  have hc₁ : c₁ = { c with
      wrHdr := Hdr.of .sObject buf.length
      buffer := c.buffer ++ (Hdr.of .sObject buf.length).bytes ++ buf } := by
    by_cases hpos : buf.length > 0
    · rw [fwriteContent, if_pos hpos, fwrite] at hwrite
      split at hwrite
      · exact (Prod.mk.inj hwrite).2.symm
      · cases hwrite
    · rw [fwriteContent, if_neg hpos] at hwrite
      have hnil : buf = [] := List.eq_nil_of_length_eq_zero (by omega)
      subst hnil
      rw [List.append_nil]
      exact (Prod.mk.inj hwrite).2.symm
  subst hc₁
  rw [Prog.run_bind, takeOff, Prog.run_modify] at hrun
  dsimp only at hrun
  rw [Prog.run_bind, Prog.run_get] at hrun
  dsimp only [Hdr.of] at hrun
  rw [hsz, if_pos rfl, fflush, Prog.run_modify] at hrun
  obtain rfl := (Prod.mk.inj hrun).2
  refine ⟨⟨buf, hsize.symm, ?_⟩, rfl, rfl⟩
  rw [hsize]
  dsimp only [Hdr.of]
  rw [List.append_assoc, List.append_assoc, List.append_assoc]

end Call

/-- Sending a cached object ends with everything sent exactly if the object is empty, the
header cannot be sent, or a negative result comes before everything is sent. -/
theorem sendsRight_iff (host : ConnHost) (size : BitVec 64) (c : Conn) :
    SendsRight host size c ↔
      size = 0 ∨ ¬HdrOk host size ∨ Fails host 0 size.toNat := by
  constructor
  · rintro ⟨⟨fuel, hends⟩, hright⟩
    by_cases hhdr : HdrOk host size
    · rcases cacheProbe_cases (c := c) hhdr fuel with ⟨payload, -, hrun⟩ | ⟨hfails, -⟩ | hrun
      · left
        have hsz : BitVec.ofNat 32 size.toNat = 0 := (hright fuel _ hrun).sz_eq
        have hnat := congrArg BitVec.toNat hsz
        have hle := hhdr.size_le
        rw [BitVec.toNat_ofNat, Nat.mod_eq_of_lt (by omega)] at hnat
        exact BitVec.eq_of_toNat_eq hnat
      · exact Or.inr (Or.inr hfails)
      · exact absurd hrun hends
    · exact Or.inr (Or.inl hhdr)
  · intro hcond
    by_cases hhdr : HdrOk host size
    · rcases hcond with rfl | hnot | hfails
      · refine ⟨⟨1, ?_⟩, fun fuel c' hrun => ?_⟩
        · rw [run_cacheProbe hhdr]
          exact fun h => by simp [sendfileLoop, Prog.run_bind, takeOff] at h
        · obtain ⟨-, payload, hsends, rfl⟩ := cacheProbe_ok hrun
          exact ⟨⟨payload, hsends.length_eq, rfl⟩, rfl, rfl⟩
      · exact absurd hhdr hnot
      · obtain ⟨fuel, hfuel⟩ := Fails.cacheProbe_ends (c := c) hhdr hfails
        refine ⟨ends_of_error hfuel (by decide), fun fuel c' hrun => ?_⟩
        obtain ⟨-, payload, hsends, -⟩ := cacheProbe_ok hrun
        exact absurd hsends (hfails.not_sends payload)
    · refine ⟨?_, fun fuel c' hrun => absurd (cacheProbe_ok hrun).1 hhdr⟩
      rcases cacheProbe_of_not_hdrOk (c := c) hhdr 0 with hfail | hfail
      · exact ends_of_error hfail (by decide)
      · exact ends_of_error hfail (by decide)

/-- The file has been emptied: there is nothing to send. -/
def emptiedHost : ConnHost where
  fwrite := fun _ => true
  sendfile := fun _ _ => some []
  sendfile_le := by
    intro i n bytes h
    rw [← Option.some.inj h]
    exact Nat.zero_le n

/-- Everything is sent at once. -/
def promptHost : ConnHost where
  fwrite := fun _ => true
  sendfile := fun _ n => some (List.replicate n 0)
  sendfile_le := by
    intro i n bytes h
    obtain rfl := Option.some.inj h
    exact Nat.le_of_eq List.length_replicate

def idleConn : Conn := ⟨⟨0, 0⟩, [], []⟩

theorem emptiedHost_running (fuel : ℕ) : ∀ (i : ℕ) (c : Conn),
    ((sendfileLoop emptiedHost fuel i 5).run c).1 = .error .running := by
  induction fuel with
  | zero => exact fun i c => rfl
  | succ fuel ih =>
      intro i c
      rw [sendfileLoop, if_neg (by decide)]
      exact ih (i + 1) _

/-- With an emptied file sending five bytes does not end; if all five are sent at once they
are still pending afterwards. -/
theorem not_sendsRight :
    ¬SendsRight emptiedHost 5 idleConn ∧ ¬SendsRight promptHost 5 idleConn ∧
      ((cacheProbe promptHost 2 (some 5)).run idleConn).1 = .ok true ∧
      ((cacheProbe promptHost 2 (some 5)).run idleConn).2.wrHdr.sz = 5 := by
  have hhdr : ∀ host : ConnHost, host.fwrite = (fun _ => true) → HdrOk host 5 :=
    fun host h => ⟨by decide, by rw [h]⟩
  have hok : ((cacheProbe promptHost 2 (some 5)).run idleConn).1 = .ok true := by decide
  have hsz : ((cacheProbe promptHost 2 (some 5)).run idleConn).2.wrHdr.sz = 5 := by decide
  refine ⟨?_, ?_, hok, hsz⟩
  · rintro ⟨⟨fuel, hends⟩, -⟩
    refine hends ?_
    rw [run_cacheProbe (hhdr _ rfl)]
    exact Prog.fst_run_bind_of_error _ (emptiedHost_running fuel 0 _)
  · rintro ⟨-, hright⟩
    have hrun : (cacheProbe promptHost 2 (some 5)).run idleConn =
        (.ok true, ((cacheProbe promptHost 2 (some 5)).run idleConn).2) := Prod.ext hok rfl
    have hzero := (hright 2 _ hrun).sz_eq
    rw [hsz] at hzero
    exact absurd hzero (by decide)

end PollyInstrew.Server
