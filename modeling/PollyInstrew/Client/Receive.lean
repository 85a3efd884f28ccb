import PollyInstrew.Client.Layout
import PollyInstrew.Client.Dispatch

/-!
# Receiving an object

`translator_get_object` puts an object into the receive buffer, a block of the
data arena that is replaced when an object does not fit.  Whether an object is
well formed only depends on its bytes, not on where they are received.
-/

namespace PollyInstrew.Client

open PollyInstrew.ByteMemory PollyInstrew.StateExcept

/-! ## Well-formed objects as bytes -/

/-- The object alone in memory, at address zero. -/
def objectImage (bytes : List Byte) : Mem := writeBytes (fun _ => 0#8) 0#64 bytes

def objectElf (bytes : List Byte) : RtldElf where
  base := 0#64
  size := BitVec.ofNat 64 bytes.length
  skew := 0#64
  reShdr := load 64 (objectImage bytes) 40

/-- A well-formed object; its length is that of a message. -/
@[mk_iff]
structure ObjectOk (bytes : List Byte) : Prop where
  length_lt : bytes.length < 2 ^ 31
  wf : ObjectWf (objectImage bytes) (objectElf bytes)

instance (bytes : List Byte) : Decidable (ObjectOk bytes) :=
  decidable_of_iff' _ (objectOk_iff bytes)

theorem rtldElfInit_ok {host : Host} {m : Mem} {objBase objSize skew : Word} {re : RtldElf}
    (h : rtldElfInit host m objBase objSize skew = .ok re) :
    re = ⟨objBase, objSize, skew, objBase + load 64 m (objBase + 40)⟩ := by
  unfold rtldElfInit at h
  dsimp only at h
  iterate 7 (split at h; · exact absurd h (by simp))
  exact (Except.ok.inj h).symm

theorem objectImage_add {bytes : List Byte} {o : ℕ} (ho : o < bytes.length)
    (hlen : bytes.length ≤ 2 ^ 64) (m : Mem) (buf : Word) :
    writeBytes m buf bytes (buf + BitVec.ofNat 64 o) =
      objectImage bytes (0#64 + BitVec.ofNat 64 o) := by
  rw [objectImage, writeBytes_add ho hlen, writeBytes_add ho hlen]

/-- A well-formed object is well formed wherever it is received. -/
theorem ObjectOk.wf_received {bytes : List Byte} (h : ObjectOk bytes) {host : Host} {m : Mem}
    {buf skew : Word} {re : RtldElf}
    (hinit : rtldElfInit host (writeBytes m buf bytes) buf (BitVec.ofNat 64 bytes.length)
      skew = .ok re) :
    ObjectWf (writeBytes m buf bytes) re := by
  obtain rfl := rtldElfInit_ok hinit
  have hlen := h.length_lt
  have hsize : (objectElf bytes).size.toNat = bytes.length := by
    rw [objectElf, BitVec.toNat_ofNat]
    omega
  have hge := h.wf.table_ge
  have hle := h.wf.table_le
  rw [hsize] at hle
  have hshoff : load 64 (writeBytes m buf bytes) (buf + 40) =
      load 64 (objectImage bytes) 40 := by
    have hload : load 64 (writeBytes m buf bytes) (buf + BitVec.ofNat 64 40) =
        load 64 (objectImage bytes) (0#64 + BitVec.ofNat 64 40) :=
      load_add_congr 40 fun d _ hd => objectImage_add (by omega) (by omega) m buf
    rwa [BitVec.zero_add] at hload
  have hoff : shoff ⟨buf, BitVec.ofNat 64 bytes.length, skew,
      buf + load 64 (writeBytes m buf bytes) (buf + 40)⟩ = shoff (objectElf bytes) := by
    rw [shoff, shoff, objectElf, hshoff]
    dsimp only
    rw [BitVec.sub_zero, BitVec.add_comm, BitVec.add_sub_cancel]
  refine (sameMeta_of_agree hoff ?_).wf h.wf hoff rfl
  intro o ho
  have hlt := ho.lt_size h.wf
  rw [hsize] at hlt
  exact objectImage_add hlt (by omega) m buf

/-! ## The receive buffer -/

/-- The receive buffer lies in the used part of the data arena. -/
structure RecvOk (host : Host) (c : State) : Prop where
  ok : c.arenaData.Ok host.pageBits
  endp_le : c.arenaData.endp.toNat ≤ 2 ^ 47
  buf : c.recvbufSz = 0#64 ∨ (c.arenaData.start.toNat ≤ c.recvbuf.toNat ∧
    c.recvbuf.toNat + c.recvbufSz.toNat ≤ c.arenaData.endp.toNat)

/-- What receiving `bytes` does. -/
structure Received (host : Host) (bytes : List Byte) (c c' : State) : Prop where
  state_eq : c' = { c with
    mem := writeBytes c.mem c'.recvbuf bytes
    arenaData := c'.arenaData
    mprotectCalls := c'.mprotectCalls
    recvbuf := c'.recvbuf
    recvbufSz := c'.recvbufSz }
  recvOk : RecvOk host c'
  start_eq : c'.arenaData.start = c.arenaData.start
  endp_eq : c'.arenaData.endp = c.arenaData.endp
  start_le : c.arenaData.start.toNat ≤ c'.recvbuf.toNat
  le_endp : c'.recvbuf.toNat + bytes.length ≤ c.arenaData.endp.toNat

/-- What receiving `bytes` into a new buffer does. -/
structure Replaced (host : Host) (bytes : List Byte) (c c' : State) : Prop where
  state_eq : c' = { c with
    mem := writeBytes c.mem c'.recvbuf bytes
    arenaData := c'.arenaData
    mprotectCalls := c.mprotectCalls + 1
    recvbuf := c'.recvbuf
    recvbufSz := c'.recvbufSz }
  size_eq : c'.recvbufSz.toNat = roundUp bytes.length (2 ^ host.pageBits)
  ok : c'.arenaData.Ok host.pageBits
  start_eq : c'.arenaData.start = c.arenaData.start
  endp_eq : c'.arenaData.endp = c.arenaData.endp
  buf_eq : c'.recvbuf = alignUp c.arenaData.brk (arenaAlignment host.pageSize)
  brk_le : c.arenaData.brk.toNat ≤ c'.recvbuf.toNat
  brk_eq : c'.recvbuf.toNat + c'.recvbufSz.toNat = c'.arenaData.brk.toNat

/-- An object is received into the old buffer or, if that is not larger, into a new one. -/
theorem translatorGetObject_cases {host : Host} {bytes : List Byte} {c c' : State}
    {obj : Word × Word} (hok : c.arenaData.Ok host.pageBits)
    (hend : c.arenaData.endp.toNat ≤ 2 ^ 47) (hlen : bytes.length < 2 ^ 31)
    (hrun : (translatorGetObject host bytes).run c = (.ok obj, c')) :
    obj = (c'.recvbuf, BitVec.ofNat 64 bytes.length) ∧
      (bytes.length < c.recvbufSz.toNat ∧ c' = { c with mem := writeBytes c.mem c.recvbuf bytes } ∨
        c.recvbufSz.toNat ≤ bytes.length ∧ Replaced host bytes c c') := by
  unfold translatorGetObject at hrun
  rw [Prog.run_bind, Prog.run_get] at hrun
  dsimp only at hrun
  have hsz : (BitVec.ofNat 64 bytes.length).toNat = bytes.length := by
    rw [BitVec.toNat_ofNat]
    omega
  by_cases hfit : c.recvbufSz ≤ BitVec.ofNat 64 bytes.length
  swap
  · rw [if_neg hfit] at hrun
    simp only [Prog.run_bind, Prog.run_get, run_setMem, Prog.run_pure, Prod.mk.injEq,
      Except.ok.injEq] at hrun
    obtain ⟨rfl, rfl⟩ := hrun
    rw [BitVec.le_def, hsz] at hfit
    exact ⟨rfl, Or.inl ⟨by omega, rfl⟩⟩
  rw [if_pos hfit] at hrun
  rw [BitVec.le_def, hsz] at hfit
  have hpow : 2 ^ host.pageBits ≤ 2 ^ 20 :=
    Nat.pow_le_pow_right (by decide) host.pageBits_le
  have hround := roundUp_spec (x := bytes.length) (Nat.two_pow_pos host.pageBits)
  have hnewsz := alignUp_toNat (x := BitVec.ofNat 64 bytes.length) host.pageSize_eq
    (by rw [hsz]; omega)
  rw [hsz] at hnewsz
  generalize alignUp (BitVec.ofNat 64 bytes.length) host.pageSize = newsz at hnewsz hrun
  rw [Prog.run_bind, memAllocData] at hrun
  dsimp only at hrun
  have hpage : host.pageSize.toNat ≤ 2 ^ 60 := by
    rw [host.pageSize_eq]
    omega
  have hnew : newsz.toNat ≤ 2 ^ 60 := by omega
  have halloc := arenaAlloc_ok host.pageSize_eq host.pageBits_le hok (hend.trans (by decide))
    hnew hpage (host.mprotectRet_ge c.mprotectCalls)
  have hfst := @arenaAlloc_fst host.pageSize _ c.arenaData newsz host.pageSize
    (host.mprotectRet_ge c.mprotectCalls)
  generalize arenaAlloc host.pageSize (host.mprotectRet c.mprotectCalls) c.arenaData newsz
    host.pageSize = res at hrun halloc hfst
  by_cases hbad : badAddr res.1
  · simp [Prog.run_bind, hbad] at hrun
  obtain ⟨hok', hstart, hendp, hle, hsum, -⟩ := halloc hbad
  simp only [Prog.run_bind, Prog.run_modify, hbad, Bool.false_eq_true, if_false,
    Prog.run_get, run_setMem, Prog.run_pure, Prod.mk.injEq, Except.ok.injEq] at hrun
  obtain ⟨rfl, rfl⟩ := hrun
  exact ⟨rfl, Or.inr ⟨hfit, rfl, hnewsz, hok', hstart, hendp, hfst hbad, hle, hsum⟩⟩

theorem translatorGetObject_ok {host : Host} {bytes : List Byte} {c c' : State}
    {obj : Word × Word} (hrecv : RecvOk host c) (hlen : bytes.length < 2 ^ 31)
    (hrun : (translatorGetObject host bytes).run c = (.ok obj, c')) :
    obj = (c'.recvbuf, BitVec.ofNat 64 bytes.length) ∧ Received host bytes c c' := by
  obtain ⟨hobj, ⟨hfit, hsame⟩ | ⟨-, hnew⟩⟩ :=
    translatorGetObject_cases hrecv.ok hrecv.endp_le hlen hrun
  · refine ⟨hobj, ?_⟩
    subst hsame
    rcases hrecv.buf with hzero | ⟨hlo, hhi⟩
    · rw [hzero] at hfit
      exact absurd hfit (Nat.not_lt_zero _)
    · exact ⟨rfl, ⟨hrecv.ok, hrecv.endp_le, Or.inr ⟨hlo, hhi⟩⟩, rfl, rfl, hlo,
        by dsimp only; omega⟩
  · have hlo := hrecv.ok.start_le
    have hbrk := hnew.ok.brk_le
    have hbrkp := hnew.ok.brkp_le
    have hsum := hnew.brk_eq
    have hle := hnew.brk_le
    have hsize := hnew.size_eq
    have hround := roundUp_spec (x := bytes.length) (Nat.two_pow_pos host.pageBits)
    rw [hnew.endp_eq] at hbrkp
    have hbuf : c.arenaData.start.toNat ≤ c'.recvbuf.toNat ∧
        c'.recvbuf.toNat + c'.recvbufSz.toNat ≤ c.arenaData.endp.toNat := ⟨by omega, by omega⟩
    refine ⟨hobj, ⟨?_, ⟨hnew.ok, ?_, Or.inr ?_⟩, hnew.start_eq, hnew.endp_eq, hbuf.1, by omega⟩⟩
    · rw [hnew.state_eq]
    · rw [hnew.endp_eq]
      exact hrecv.endp_le
    · rw [hnew.start_eq, hnew.endp_eq]
      exact hbuf

end PollyInstrew.Client
