import PollyInstrew.Client.Common
import PollyInstrew.Shared.Protocol
import PollyInstrew.Support.StateExcept

/-!
# Replies to memory requests

`translator_get` answers a memory request with a `C_MEMBUF` header, the bytes
of the guest range and one byte that says whether reading them failed.  A
`write` may accept any part of what it is given; it fails with `-EFAULT` when
the range is not readable, and `translator_get` then sends zeros instead.  The
zeros come on top of what was accepted before, so the reply has the announced
length if and only if the first `write` of the range is the only one that may
fail so.
-/

namespace PollyInstrew.Client

open PollyInstrew.ByteMemory PollyInstrew.StateExcept PollyInstrew.Shared

/-! ## Sending -/

/-- The part of `Translator` that sending uses: the bytes the pipe has accepted
and the number of `write` calls stand for `wr_fd`. -/
structure Sender where
  out : List Byte
  calls : ℕ
  lastHdr : Hdr
  writtenBytes : Word
  deriving DecidableEq

/-- Code that sends; an error is a return of `translator_get`. -/
abbrev SendM := Prog Sender ℤ

/-- `write`: call `i` returns `rets i`, but never more than the size. -/
def write (rets : ℕ → ℤ) (bytes : List Byte) : SendM ℤ :=
  ⟨fun t =>
    let ret := min (rets t.calls) bytes.length
    (.ok ret, { t with
      out := t.out ++ bytes.take ret.toNat
      calls := t.calls + 1 })⟩

/-- The loop of `write_full` with the bytes that are left; every iteration that
goes on takes at least one of them. -/
def writeFullLoop (rets : ℕ → ℤ) : ℕ → List Byte → ℤ → SendM ℤ
  | 0, _, totalWritten => return totalWritten
  | fuel + 1, rest, totalWritten =>
      if rest = [] then
        return totalWritten
      else do
        let bytesWritten ← write rets rest
        if bytesWritten < 0 then
          return bytesWritten
        else if bytesWritten = 0 then
          return - EIO
        else
          writeFullLoop rets fuel (rest.drop bytesWritten.toNat) (totalWritten + bytesWritten)

def writeFull (rets : ℕ → ℤ) (bytes : List Byte) : SendM ℤ :=
  writeFullLoop rets bytes.length bytes 0

/-- `translator_hdr_send`. -/
def translatorHdrSend (rets : ℕ → ℤ) (id : MsgId) (sz : ℕ) : SendM ℤ := do
  let t ← Prog.get
  if t.lastHdr.id ≠ MsgId.unknown.code then
    return -EPROTO
  else
    let ret ← writeFull rets (Hdr.of id sz).bytes
    if ret ≠ 8 then return ret else return 0

/-- Bytes that are sent of the guest range, at most a page. -/
def replySize (bufSz : Word) : ℕ := if 0x1000 < bufSz.toNat then 0x1000 else bufSz.toNat

/-- The body of the loop of `translator_get`, once the memory request has been
read. -/
def memReply (rets : ℕ → ℤ) (mem : Mem) (addr bufSz : Word) : SendM Unit := do
  let bufSz := replySize bufSz
  let ret ← translatorHdrSend rets .cMembuf (bufSz + 1)
  if ret < 0 then
    Prog.fail ret
  else
    let ret ← writeFull rets (readBytes mem addr bufSz)
    let failed ← replyPad ret bufSz
    let ret ← writeFull rets [failed]
    if ret ≠ 1 then
      Prog.fail ret
    else
      Prog.modify fun t => { t with writtenBytes := t.writtenBytes + BitVec.ofNat 64 bufSz }
where
  /-- What follows the write of the range: zeros if it failed with `-EFAULT`. -/
  replyPad (ret : ℤ) (bufSz : ℕ) : SendM Byte :=
    if ret ≠ bufSz then
      if ret = -EFAULT then do
        Prog.forRange bufSz fun _ => do
          let padded ← writeFull rets [0]
          if padded ≠ 1 then Prog.fail ret
        return 1
      else
        Prog.fail ret
    else
      return 0

/-! ## What `write_full` sends -/

/-- `k` of the bytes were accepted. -/
structure Accepted (bytes : List Byte) (t t' : Sender) (k : ℕ) : Prop where
  le : k ≤ bytes.length
  out_eq : t'.out = t.out ++ bytes.take k
  calls_le : t.calls ≤ t'.calls
  lastHdr_eq : t'.lastHdr = t.lastHdr

/-- How the loop of `write_full` ends: all calls succeed, or the last one does
not. -/
inductive WriteEnd (rets : ℕ → ℤ) (bytes : List Byte) (total : ℤ) (t t' : Sender) :
    ℕ → ℤ → Prop
  | full (hpos : ∀ i, t.calls ≤ i → i < t'.calls → 0 < rets i) :
      WriteEnd rets bytes total t t' bytes.length (total + bytes.length)
  | stop {k n : ℕ} {ret : ℤ} (hk : k < bytes.length) (hn : t'.calls = n + 1)
      (hle : t.calls ≤ n) (hpos : ∀ i, t.calls ≤ i → i < n → 0 < rets i)
      (hneg : rets n ≤ 0) (hret : ret = if rets n = 0 then - EIO else rets n)
      (hfirst : k = 0 ↔ n = t.calls) : WriteEnd rets bytes total t t' k ret

/-- The sender after a `write` that accepted `b` bytes. -/
def Sender.wrote (t : Sender) (bytes : List Byte) (b : ℕ) : Sender :=
  { t with
    out := t.out ++ bytes.take b
    calls := t.calls + 1 }

section Wrote

variable {rets : ℕ → ℤ} {rest : List Byte} {total : ℤ} {t t' : Sender} {b k : ℕ} {ret : ℤ}
  (hb : b ≤ rest.length)
include hb

theorem Accepted.wrote (h : Accepted (rest.drop b) (t.wrote rest b) t' k) :
    Accepted rest t t' (b + k) := by
  have hk := h.le
  have hcalls := h.calls_le
  rw [List.length_drop] at hk
  simp only [Sender.wrote] at hcalls
  refine ⟨by omega, ?_, by omega, h.lastHdr_eq⟩
  rw [h.out_eq, Sender.wrote, List.append_assoc, ← List.take_add]

theorem WriteEnd.wrote (hpos : 0 < b) (hcall : 0 < rets t.calls)
    (h : WriteEnd rets (rest.drop b) (total + b) (t.wrote rest b) t' k ret) :
    WriteEnd rets rest total t t' (b + k) ret := by
  have hfrom : ∀ {n}, (∀ i, (t.wrote rest b).calls ≤ i → i < n → 0 < rets i) →
      ∀ i, t.calls ≤ i → i < n → 0 < rets i := by
    intro n hall i h₁ h₂
    rcases Nat.lt_or_eq_of_le h₁ with h₁ | rfl
    · exact hall i h₁ h₂
    · exact hcall
  cases h with
  | full hall =>
      have hlen : b + (rest.drop b).length = rest.length := by
        rw [List.length_drop]
        omega
      have htotal : total + b + (rest.drop b).length = total + rest.length := by omega
      rw [hlen, htotal]
      exact .full (hfrom hall)
  | stop hk hn hle hall hneg hret hfirst =>
      rw [List.length_drop] at hk
      simp only [Sender.wrote] at hle
      exact .stop (by omega) hn (by omega) (hfrom hall) hneg hret
        ⟨fun h => absurd h (by omega), fun h => absurd h (by omega)⟩

end Wrote

theorem writeFullLoop_spec (rets : ℕ → ℤ) :
    ∀ (fuel : ℕ) (rest : List Byte) (total : ℤ) (t : Sender), rest.length ≤ fuel →
      ∃ t' k ret, (writeFullLoop rets fuel rest total).run t = (.ok ret, t') ∧
        Accepted rest t t' k ∧ WriteEnd rets rest total t t' k ret := by
  have hnil : ∀ (total : ℤ) (t : Sender),
      Accepted [] t t 0 ∧ WriteEnd rets [] total t t 0 total := by
    intro total t
    refine ⟨⟨Nat.le_refl _, (List.append_nil _).symm, Nat.le_refl _, rfl⟩, ?_⟩
    have hend : WriteEnd rets [] total t t 0 (total + 0) :=
      .full fun i h₁ h₂ => absurd h₂ (by omega)
    rwa [Int.add_zero] at hend
  intro fuel
  induction fuel with
  | zero =>
      intro rest total t hlen
      obtain rfl := List.length_eq_zero_iff.mp (Nat.le_zero.mp hlen)
      exact ⟨t, 0, total, rfl, hnil total t⟩
  | succ fuel ih =>
      intro rest total t hlen
      rw [writeFullLoop]
      by_cases hrest : rest = []
      · subst hrest
        exact ⟨t, 0, total, rfl, hnil total t⟩
      have hpos := List.length_pos_iff.mpr hrest
      rw [if_neg hrest, Prog.run_bind, write]
      dsimp only
      by_cases hret : rets t.calls ≤ 0
      · have hmin : min (rets t.calls) rest.length = rets t.calls := by omega
        have hzero : (rets t.calls).toNat = 0 := by omega
        rw [hmin, hzero]
        refine ⟨t.wrote rest 0, 0, if rets t.calls = 0 then - EIO else rets t.calls, ?_,
          ⟨Nat.zero_le _, rfl, Nat.le_succ _, rfl⟩, .stop hpos rfl (Nat.le_refl _)
            (fun i h₁ h₂ => absurd h₂ (by omega)) hret rfl ⟨fun _ => rfl, fun _ => rfl⟩⟩
        by_cases hlt : rets t.calls < 0
        · rw [if_pos hlt, if_neg (by omega)]
          rfl
        · rw [if_neg hlt, if_pos (by omega), if_pos (by omega)]
          rfl
      · obtain ⟨b, hb⟩ := Int.eq_ofNat_of_zero_le
          (show 0 ≤ min (rets t.calls) rest.length by omega)
        rw [hb, if_neg (by omega), if_neg (by omega), Int.toNat_natCast]
        obtain ⟨t', k, ret, hrun, hacc, hend⟩ := ih (rest.drop b) (total + b)
          (t.wrote rest b) (by rw [List.length_drop]; omega)
        exact ⟨t', b + k, ret, hrun, hacc.wrote (by omega),
          hend.wrote (by omega) (by omega) (by omega)⟩

theorem writeFull_spec (rets : ℕ → ℤ) (bytes : List Byte) (t : Sender) :
    ∃ t' k ret, (writeFull rets bytes).run t = (.ok ret, t') ∧
      Accepted bytes t t' k ∧ WriteEnd rets bytes 0 t t' k ret :=
  writeFullLoop_spec rets bytes.length bytes 0 t (Nat.le_refl _)

/-- A return value that is not negative says that everything was sent. -/
theorem WriteEnd.of_nonneg {rets : ℕ → ℤ} {bytes : List Byte} {t t' : Sender} {k : ℕ} {ret : ℤ}
    (h : WriteEnd rets bytes 0 t t' k ret) (hret : 0 ≤ ret) :
    k = bytes.length ∧ ret = bytes.length ∧
      ∀ i, t.calls ≤ i → i < t'.calls → 0 < rets i := by
  cases h with
  | full hpos => exact ⟨rfl, Int.zero_add _, hpos⟩
  | stop _ _ _ _ hneg hr _ =>
      rw [hr] at hret
      split at hret
      · exact absurd hret (by decide)
      · omega

/-- `-EFAULT` says that one call failed so: the first one, or a later one after
bytes were accepted. -/
theorem WriteEnd.of_fault {rets : ℕ → ℤ} {bytes : List Byte} {t t' : Sender} {k : ℕ}
    (h : WriteEnd rets bytes 0 t t' k (-EFAULT)) :
    ∃ n, t'.calls = n + 1 ∧ t.calls ≤ n ∧ rets n = -EFAULT ∧
      (∀ i, t.calls ≤ i → i < n → 0 < rets i) ∧ (k = 0 ↔ n = t.calls) := by
  generalize hr : -EFAULT = ret at h
  cases h with
  | full _ =>
      have : (-EFAULT : ℤ) < 0 := by decide
      omega
  | @stop _ n _ _ hn hle hpos hneg hret hfirst =>
      refine ⟨n, hn, hle, ?_, hpos, hfirst⟩
      split at hret
      · rw [← hr] at hret
        exact absurd hret (by decide)
      · exact hret.symm

/-! ## The reply -/

section Reply

variable (rets : ℕ → ℤ) (mem : Mem) (addr bufSz : Word) (t : Sender)

/-- The sender once the header of the reply has been sent, and once
`write_full` of the guest range has returned. -/
def afterHdr : Sender := ((translatorHdrSend rets .cMembuf (replySize bufSz + 1)).run t).2

def afterRange : Sender :=
  ((writeFull rets (readBytes mem addr (replySize bufSz))).run (afterHdr rets bufSz t)).2

/-- Some `write` of the guest range failed because it was not readable. -/
def Faulted : Prop :=
  ∃ i, (afterHdr rets bufSz t).calls ≤ i ∧ i < (afterRange rets mem addr bufSz t).calls ∧
    rets i = -EFAULT

/-- The same, but not the first one. -/
def FaultedLate : Prop :=
  ∃ i, (afterHdr rets bufSz t).calls < i ∧ i < (afterRange rets mem addr bufSz t).calls ∧
    rets i = -EFAULT

/-- After the header the pipe got as many bytes as announced, and the last one is
`1` if and only if the guest range could not be read. -/
def ReplyExact (t' : Sender) : Prop :=
  ∃ sent, t'.out = (afterHdr rets bufSz t).out ++ sent ∧ sent.length = replySize bufSz + 1 ∧
    (sent.getLast? = some 1#8 ↔ Faulted rets mem addr bufSz t)

variable {rets mem addr bufSz t}

/-- Zero bytes are sent one by one. -/
theorem pad_ok {n : ℕ} {t' : Sender} {ret : ℤ}
    (hrun : (Prog.forRange n fun _ => do
      let padded ← writeFull rets [0]
      if padded ≠ 1 then Prog.fail ret : SendM Unit).run t = (.ok (), t')) :
    t'.out = t.out ++ List.replicate n 0#8 := by
  refine Prog.forRange_ok (I := fun i (u : Sender) => u.out = t.out ++ List.replicate i 0#8)
    ?_ (List.append_nil _).symm hrun
  intro i u u' _ hu hbody
  obtain ⟨v, k, padded, hwrite, hacc, hend⟩ := writeFull_spec rets [0] u
  rw [Prog.run_bind, hwrite] at hbody
  dsimp only at hbody
  split at hbody
  · simp at hbody
  · next hone =>
    obtain ⟨-, rfl⟩ := Prod.mk.inj hbody
    obtain ⟨rfl, -, -⟩ := hend.of_nonneg (by omega)
    rw [hacc.out_eq, hu, List.append_assoc, List.replicate_succ']
    rfl

/-- Either the range was sent completely, or it faulted and was padded. -/
theorem replyPad_ok {ret : ℤ} {n : ℕ} {t' : Sender} {failed : Byte}
    (hrun : (memReply.replyPad rets ret n).run t = (.ok failed, t')) :
    (ret = n ∧ failed = 0#8 ∧ t' = t) ∨
      (ret = -EFAULT ∧ failed = 1#8 ∧ t'.out = t.out ++ List.replicate n 0#8) := by
  unfold memReply.replyPad at hrun
  split at hrun
  swap
  · next hret =>
    obtain ⟨hfailed, rfl⟩ := Prod.mk.inj hrun
    exact Or.inl ⟨not_not.mp hret, (Except.ok.inj hfailed).symm, rfl⟩
  split at hrun
  swap
  · simp at hrun
  next hret =>
  obtain ⟨⟨⟩, u, hpad, hrest⟩ := Prog.run_bind_eq_ok.mp hrun
  obtain ⟨hfailed, rfl⟩ := Prod.mk.inj hrest
  exact Or.inr ⟨hret, (Except.ok.inj hfailed).symm, pad_ok hpad⟩

/-- What is sent after the header: the guest range and `0`, or the part of it
that was accepted before the fault, the padding and `1`. -/
theorem memReply_sends {t' : Sender}
    (hrun : (memReply rets mem addr bufSz).run t = (.ok (), t')) :
    ∃ k ret, WriteEnd rets (readBytes mem addr (replySize bufSz)) 0 (afterHdr rets bufSz t)
        (afterRange rets mem addr bufSz t) k ret ∧
      ((ret = replySize bufSz ∧ t'.out = (afterHdr rets bufSz t).out ++
          (readBytes mem addr (replySize bufSz) ++ [0#8])) ∨
        (ret = -EFAULT ∧ k ≤ replySize bufSz ∧ t'.out = (afterHdr rets bufSz t).out ++
          ((readBytes mem addr (replySize bufSz)).take k ++
            (List.replicate (replySize bufSz) 0#8 ++ [1#8])))) := by
  obtain ⟨ret₀, t₁, hhdr, hrun⟩ := Prog.run_bind_eq_ok.mp hrun
  obtain rfl : afterHdr rets bufSz t = t₁ := by rw [afterHdr, hhdr]
  split at hrun
  · simp at hrun
  obtain ⟨t₂, k, ret, hrange, hacc, hend⟩ :=
    writeFull_spec rets (readBytes mem addr (replySize bufSz)) (afterHdr rets bufSz t)
  obtain rfl : afterRange rets mem addr bufSz t = t₂ := by rw [afterRange, hrange]
  rw [Prog.run_bind, hrange] at hrun
  obtain ⟨failed, t₃, hpad, hrun⟩ := Prog.run_bind_eq_ok.mp hrun
  obtain ⟨t₄, l, ret', hlast, hacc', hend'⟩ := writeFull_spec rets [failed] t₃
  rw [Prog.run_bind, hlast] at hrun
  dsimp only at hrun
  split at hrun
  · simp at hrun
  next hone =>
  obtain ⟨-, rfl⟩ := Prod.mk.inj hrun
  obtain ⟨rfl, -, -⟩ := hend'.of_nonneg (by omega)
  refine ⟨k, ret, hend, ?_⟩
  rcases replyPad_ok hpad with ⟨hret, rfl, rfl⟩ | ⟨hret, rfl, hout⟩
  · obtain ⟨rfl, -, -⟩ := hend.of_nonneg (by omega)
    refine Or.inl ⟨hret, ?_⟩
    dsimp only
    rw [hacc'.out_eq, hacc.out_eq, List.take_length, List.append_assoc]
    rfl
  · have hk := hacc.le
    rw [length_readBytes] at hk
    refine Or.inr ⟨hret, hk, ?_⟩
    dsimp only
    rw [hacc'.out_eq, hout, hacc.out_eq, List.append_assoc, List.append_assoc]
    rfl

/-- When `translator_get` goes on to wait for the next header, the reply has the
announced length and the right last byte if and only if no `write` of the
guest range failed with `-EFAULT` after an earlier one had sent a part. -/
theorem memReply_exact_iff {t' : Sender}
    (hrun : (memReply rets mem addr bufSz).run t = (.ok (), t')) :
    ReplyExact rets mem addr bufSz t t' ↔ ¬FaultedLate rets mem addr bufSz t := by
  obtain ⟨k, ret, hend, ⟨rfl, hout⟩ | ⟨rfl, hk, hout⟩⟩ := memReply_sends hrun
  · obtain ⟨-, -, hpos⟩ := hend.of_nonneg (by omega)
    have hnone : ∀ i, (afterHdr rets bufSz t).calls ≤ i →
        i < (afterRange rets mem addr bufSz t).calls → rets i ≠ -EFAULT := by
      intro i h₁ h₂ heq
      have hi := hpos i h₁ h₂
      rw [heq] at hi
      exact absurd hi (by decide)
    refine ⟨fun _ ⟨i, h₁, h₂, heq⟩ => hnone i (by omega) h₂ heq, fun _ => ?_⟩
    refine ⟨_, hout, by rw [List.length_append, length_readBytes]; rfl, ?_⟩
    rw [List.getLast?_append]
    exact ⟨fun h => absurd h (by simp), fun ⟨i, h₁, h₂, heq⟩ => absurd heq (hnone i h₁ h₂)⟩
  · obtain ⟨n, hn, hle, hfault, -, hfirst⟩ := hend.of_fault
    constructor
    · rintro ⟨sent, hsent, hlen, -⟩ ⟨i, h₁, h₂, -⟩
      rw [hout] at hsent
      obtain rfl := List.append_cancel_left hsent
      have hk₀ : k ≠ 0 := fun h => absurd (hfirst.mp h) (by omega)
      simp only [List.length_append, List.length_take, length_readBytes, List.length_replicate,
        List.length_singleton] at hlen
      omega
    · intro hlate
      have hzero : k = 0 := by
        refine hfirst.mpr ?_
        by_contra hne
        exact hlate ⟨n, by omega, by omega, hfault⟩
      rw [hzero, List.take_zero, List.nil_append] at hout
      refine ⟨_, hout, by simp, ?_⟩
      rw [List.getLast?_append]
      exact ⟨fun _ => ⟨n, hle, by omega, hfault⟩, fun _ => rfl⟩

end Reply

/-- A sender that has sent nothing. -/
def freshSender : Sender := ⟨[], 0, ⟨MsgId.unknown.code, 0⟩, 0⟩

/-- Guest memory full of `nop`. -/
def nopMem : Mem := fun _ => 0x90#8

/-- The header is sent at once, then the given results, then one byte at a time. -/
def retsOf (range : List ℤ) : ℕ → ℤ := fun i => (8 :: range).getD i 1

theorem memReply_exact_iff_fault :
    ∃ t', (memReply (retsOf [-EFAULT]) nopMem 0x1000 4).run freshSender = (.ok (), t') ∧
      ReplyExact (retsOf [-EFAULT]) nopMem 0x1000 4 freshSender t' := by
  have hrun : ((memReply (retsOf [-EFAULT]) nopMem 0x1000 4).run freshSender).1 = .ok () := by
    decide +kernel
  have heq := Prog.run_eq_of_fst hrun
  refine ⟨_, heq, (memReply_exact_iff heq).mpr ?_⟩
  have hhdr : (afterHdr (retsOf [-EFAULT]) 4 freshSender).calls = 1 := by decide +kernel
  have hrange : (afterRange (retsOf [-EFAULT]) nopMem 0x1000 4 freshSender).calls = 2 := by
    decide +kernel
  rintro ⟨i, h₁, h₂, -⟩
  omega

/-- Two bytes are accepted before the range faults: the reply is two bytes too
long. -/
theorem not_replyExact_late :
    ¬∀ (rets : ℕ → ℤ) (mem : Mem) (addr bufSz : Word) (t t' : Sender), bufSz.toNat ≤ 0x1000 →
      (memReply rets mem addr bufSz).run t = (.ok (), t') →
        ReplyExact rets mem addr bufSz t t' := by
  intro hall
  have hrun : ((memReply (retsOf [2, -EFAULT]) nopMem 0x1000 4).run freshSender).1 = .ok () := by
    decide +kernel
  obtain ⟨sent, hsent, hlen, -⟩ := hall _ _ _ _ _ _ (by decide) (Prog.run_eq_of_fst hrun)
  have hout : ((memReply (retsOf [2, -EFAULT]) nopMem 0x1000 4).run freshSender).2.out.length =
      15 := by
    decide +kernel
  have hhdr : (afterHdr (retsOf [2, -EFAULT]) 4 freshSender).out.length = 8 := by decide +kernel
  have hsize : replySize 4 = 4 := by decide
  rw [hsent, List.length_append, hhdr, hlen, hsize] at hout
  exact absurd hout (by decide)

/-! ## The server -/

/-- `RemoteMemory::GetPage` behind the header: the page, unless reading it failed,
and the bytes it leaves. -/
def getPage (stream : List Byte) : Option (List Byte) × List Byte :=
  let failed := (stream.drop 0x1000).headD 0#8
  (if failed ≠ 0#8 then none else some (stream.take 0x1000), stream.drop 0x1001)

/-- The server gets the page or learns that it is not readable, and leaves no byte
of the reply. -/
theorem getPage_memReply {rets : ℕ → ℤ} {mem : Mem} {addr : Word} {t t' : Sender}
    (hrun : (memReply rets mem addr 0x1000).run t = (.ok (), t'))
    (hlate : ¬FaultedLate rets mem addr 0x1000 t) :
    ∃ sent, t'.out = (afterHdr rets 0x1000 t).out ++ sent ∧
      (getPage sent = (some (readBytes mem addr 0x1000), []) ∨
        (Faulted rets mem addr 0x1000 t ∧ getPage sent = (none, []))) := by
  have hsize : replySize 0x1000 = 0x1000 := by decide
  obtain ⟨k, ret, hend, ⟨-, hout⟩ | ⟨rfl, -, hout⟩⟩ := memReply_sends hrun
  · refine ⟨_, hout, Or.inl ?_⟩
    rw [hsize, getPage, List.drop_left' (length_readBytes _ _ _),
      List.take_left' (length_readBytes _ _ _), List.drop_of_length_le (by simp)]
    rfl
  · obtain ⟨n, hn, hle, hfault, -, hfirst⟩ := hend.of_fault
    have hzero : k = 0 := by
      refine hfirst.mpr ?_
      by_contra hne
      exact hlate ⟨n, by omega, by omega, hfault⟩
    refine ⟨_, hout, Or.inr ⟨⟨n, hle, by omega, hfault⟩, ?_⟩⟩
    rw [hzero, hsize, List.take_zero, List.nil_append, getPage,
      List.drop_left' List.length_replicate, List.drop_of_length_le (by
        rw [List.length_append, List.length_replicate]; exact Nat.le_refl _)]
    rfl

theorem getPage_memReply_nop :
    ∃ t', (memReply (retsOf [0x1000]) nopMem 0 0x1000).run freshSender = (.ok (), t') ∧
      ∃ sent, t'.out = (afterHdr (retsOf [0x1000]) 0x1000 freshSender).out ++ sent ∧
        (getPage sent).2 = [] := by
  have hrun : ((memReply (retsOf [0x1000]) nopMem 0 0x1000).run freshSender).1 = .ok () := by
    decide +kernel
  have hcalls : (afterHdr (retsOf [0x1000]) 0x1000 freshSender).calls = 1 ∧
      (afterRange (retsOf [0x1000]) nopMem 0 0x1000 freshSender).calls = 2 := by
    decide +kernel
  obtain ⟨sent, hout, hpage⟩ := getPage_memReply (Prog.run_eq_of_fst hrun) (by
    rintro ⟨i, h₁, h₂, -⟩
    omega)
  refine ⟨_, Prog.run_eq_of_fst hrun, sent, hout, ?_⟩
  rcases hpage with h | ⟨-, h⟩ <;> rw [h]

end PollyInstrew.Client
