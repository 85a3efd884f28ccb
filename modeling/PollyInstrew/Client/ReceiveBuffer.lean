import PollyInstrew.Client.LinkerState

/-!
# The receive buffer over a run

Old receive buffers are never freed, so what they take of the data arena is
bounded only if a new one is larger than all before it.  `translator_get_object`
also takes a new one for an object that has exactly the size of the buffer.
-/

namespace PollyInstrew.Client

open PollyInstrew.ByteMemory PollyInstrew.StateExcept

/-! ## Runs -/

/-- A successful call of `translator_get_object`. -/
structure Receipt (host : Host) where
  bytes : List Byte
  before : State
  after : State
  length_lt : bytes.length < 2 ^ 31
  run_eq : (translatorGetObject host bytes).run before =
    (.ok (after.recvbuf, BitVec.ofNat 64 bytes.length), after)

/-- The rest of the client leaves the data arena and the buffer alone. -/
structure SameBuffer (c c' : State) : Prop where
  arena_eq : c'.arenaData = c.arenaData
  buf_eq : c'.recvbuf = c.recvbuf
  size_eq : c'.recvbufSz = c.recvbufSz

theorem SameBuffer.refl (c : State) : SameBuffer c c := ⟨rfl, rfl, rfl⟩

theorem LoadSpec.sameBuffer {host : Host} {re : RtldElf} {c c' : State} {mid : ℕ}
    (h : LoadSpec host re c c' mid) : SameBuffer c c' := by
  rw [h.state_eq]
  exact ⟨rfl, rfl, rfl⟩

/-- Calls one after the other, with the rest of the client in between. -/
inductive Receives (host : Host) : State → List (Receipt host) → Prop
  | nil (c : State) : Receives host c []
  | cons {c : State} {r : Receipt host} {receipts : List (Receipt host)}
      (hbetween : SameBuffer c r.before) (hrest : Receives host r.after receipts) :
      Receives host c (r :: receipts)

/-! ## What a run should be like -/

section Runs

variable {host : Host}

/-- Every call of `mem_alloc_data` takes one answer of `mprotect`. -/
def Receipt.Allocates (r : Receipt host) : Prop :=
  r.after.mprotectCalls ≠ r.before.mprotectCalls

instance (r : Receipt host) : Decidable r.Allocates := by
  unfold Receipt.Allocates
  infer_instance

/-- The size of the object, rounded up to pages. -/
def Receipt.rounded (r : Receipt host) : ℕ := roundUp r.bytes.length (2 ^ host.pageBits)

/-- What the call takes of the data arena. -/
def Receipt.consumed (r : Receipt host) : ℕ :=
  r.after.arenaData.brk.toNat - r.before.arenaData.brk.toNat

/-- The sizes that are allocated. -/
def allocatedSizes (receipts : List (Receipt host)) : List ℕ :=
  (receipts.filter fun r => decide r.Allocates).map Receipt.rounded

/-- The buffer that the object is read into is a used part of the data arena with room
for the object. -/
structure Receipt.Holds (r : Receipt host) : Prop where
  length_le : r.bytes.length ≤ r.after.recvbufSz.toNat
  used : r.after.recvbufSz = 0#64 ∨
    (r.after.arenaData.start.toNat ≤ r.after.recvbuf.toNat ∧
      r.after.recvbuf.toNat + r.after.recvbufSz.toNat ≤ r.after.arenaData.brk.toNat)

/-- The buffer grows only when it must: the sizes that are allocated increase strictly, and
their sum is all that is taken of the data arena. -/
structure GrowsWhenItMust (receipts : List (Receipt host)) : Prop where
  holds : ∀ r ∈ receipts, r.Holds
  allocates_iff : ∀ r ∈ receipts, r.Allocates ↔ r.before.recvbufSz.toNat < r.bytes.length
  increasing : (allocatedSizes receipts).Pairwise (· < ·)
  consumed_le : (receipts.map Receipt.consumed).sum ≤ (allocatedSizes receipts).sum

/-! ## One call -/

/-- The data arena is in order and its break at a page; the buffer is a used part of it. -/
structure BufferOk (host : Host) (c : State) : Prop where
  ok : c.arenaData.Ok host.pageBits
  endp_le : c.arenaData.endp.toNat ≤ 2 ^ 47
  brk_page : c.arenaData.brk.toNat % 2 ^ host.pageBits = 0
  buf : c.recvbufSz = 0#64 ∨ (c.arenaData.start.toNat ≤ c.recvbuf.toNat ∧
    c.recvbuf.toNat + c.recvbufSz.toNat ≤ c.arenaData.brk.toNat)

/-- The client after `mem_init` and `rtld_init`, which comes before the first call. -/
theorem bufferOk_of_rtldInit {c₀ c : State} {data code : Word}
    (hmap : MappingsOk host data code) (hrecv : c₀.recvbufSz = 0#64)
    (hrun : (rtldInit host).run (memInit data code c₀) = (.ok (), c)) : BufferOk host c := by
  obtain ⟨hdata, hcode⟩ := memInit_ok hmap
  have hinit := (initialised_of_rtldInit hmap hrecv hrun).1.linker.recvOk
  have hd := hmap.data_le
  have hc := hmap.code_le
  have hdataEnd : (arenaInit data memDataSize).endp.toNat ≤ 2 ^ 47 := by
    rw [arenaInit, BitVec.toNat_add]
    omega
  have hcodeEnd : (arenaInit code memCodeSize).endp.toNat ≤ 2 ^ 47 := by
    rw [arenaInit, BitVec.toNat_add]
    omega
  obtain ⟨arena, plt, c₁, hok, -, -, hpage, hplt, rfl⟩ :=
    rtldInit_ok (c := memInit data code c₀) hdata hdataEnd hrun
  obtain ⟨hgrown, -⟩ := pltCreate_ok (by exact hcode) (by exact hcodeEnd) hplt
  have harena : c₁.arenaData = arena := by rw [hgrown.state_eq]
  have hsize : c₁.recvbufSz = 0#64 := by
    rw [hgrown.state_eq]
    exact hrecv
  refine ⟨hinit.ok, hinit.endp_le, ?_, Or.inl hsize⟩
  dsimp only
  rw [harena]
  exact hpage

theorem BufferOk.between {c c' : State} (h : BufferOk host c) (hsame : SameBuffer c c') :
    BufferOk host c' where
  ok := hsame.arena_eq ▸ h.ok
  endp_le := hsame.arena_eq ▸ h.endp_le
  brk_page := hsame.arena_eq ▸ h.brk_page
  buf := by
    rw [hsame.arena_eq, hsame.buf_eq, hsame.size_eq]
    exact h.buf

theorem roundUp_of_mod {x n : ℕ} (hn : 0 < n) (hx : x % n = 0) : roundUp x n = x := by
  obtain ⟨hle, hlt, hmod⟩ := roundUp_spec (x := x) hn
  obtain ⟨d, hd⟩ := Nat.exists_eq_add_of_le hle
  rw [hd, Nat.add_mod, hx, Nat.zero_add, Nat.mod_mod, Nat.mod_eq_of_lt (by omega)] at hmod
  omega

/-- A new buffer starts where the last one ended. -/
theorem Replaced.buf_toNat {bytes : List Byte} {c c' : State} (h : Replaced host bytes c c')
    (hc : BufferOk host c) : c'.recvbuf.toNat = c.arenaData.brk.toNat := by
  have hround := roundUp_of_mod (Nat.two_pow_pos host.pageBits) hc.brk_page
  have hlt := c.arenaData.brk.isLt
  rw [h.buf_eq, host.arenaAlignment_pageSize, alignUp_toNat host.pageSize_eq (by omega), hround]

/-- What a call does to a buffer that is in order. -/
structure Receipt.Step (r : Receipt host) : Prop where
  ok : BufferOk host r.after
  holds : r.Holds
  allocates_iff : r.Allocates ↔ r.before.recvbufSz.toNat ≤ r.bytes.length
  size_eq : r.after.recvbufSz.toNat =
    if r.Allocates then r.rounded else r.before.recvbufSz.toNat
  consumed_eq : r.consumed = if r.Allocates then r.rounded else 0

theorem Receipt.step_old {r : Receipt host} (hok : BufferOk host r.before)
    (hfit : r.bytes.length < r.before.recvbufSz.toNat)
    (hafter : r.after =
      { r.before with mem := writeBytes r.before.mem r.before.recvbuf r.bytes }) : r.Step := by
  have hsame : ¬r.Allocates := by
    rw [Allocates, hafter]
    exact fun h => h rfl
  have hbuffer : SameBuffer r.before r.after := by
    rw [hafter]
    exact ⟨rfl, rfl, rfl⟩
  refine ⟨hok.between hbuffer, ⟨?_, (hok.between hbuffer).buf⟩, ?_, ?_, ?_⟩
  · rw [hbuffer.size_eq]
    exact hfit.le
  · exact iff_of_false hsame (by omega)
  · rw [if_neg hsame, hbuffer.size_eq]
  · rw [if_neg hsame, consumed, hbuffer.arena_eq, Nat.sub_self]

theorem Receipt.step_new {r : Receipt host} (hok : BufferOk host r.before)
    (hfit : r.before.recvbufSz.toNat ≤ r.bytes.length)
    (hnew : Replaced host r.bytes r.before r.after) : r.Step := by
  have hcalls : r.after.mprotectCalls = r.before.mprotectCalls + 1 := by
    rw [hnew.state_eq]
  have hallocates : r.Allocates := by
    rw [Allocates, hcalls]
    omega
  obtain ⟨hle, -, hmod⟩ := roundUp_spec (x := r.bytes.length) (Nat.two_pow_pos host.pageBits)
  have hbuf := hnew.buf_toNat hok
  have hsize := hnew.size_eq
  have hbrk := hnew.brk_eq
  have hstart := hok.ok.start_le
  have hused : r.after.arenaData.start.toNat ≤ r.after.recvbuf.toNat ∧
      r.after.recvbuf.toNat + r.after.recvbufSz.toNat ≤ r.after.arenaData.brk.toNat := by
    rw [hnew.start_eq]
    omega
  refine ⟨⟨hnew.ok, ?_, ?_, Or.inr hused⟩, ⟨?_, Or.inr hused⟩, ?_, ?_, ?_⟩
  · rw [hnew.endp_eq]
    exact hok.endp_le
  · rw [← hbrk, hbuf, hsize, Nat.add_mod, hok.brk_page, hmod, Nat.zero_add, Nat.zero_mod]
  · rw [hsize]
    exact hle
  · exact iff_of_true hallocates hfit
  · rw [if_pos hallocates, hsize, rounded]
  · rw [if_pos hallocates, consumed, rounded]
    omega

theorem Receipt.step {r : Receipt host} (hok : BufferOk host r.before) : r.Step := by
  obtain ⟨-, ⟨hfit, hafter⟩ | ⟨hfit, hnew⟩⟩ :=
    translatorGetObject_cases hok.ok hok.endp_le r.length_lt r.run_eq
  · exact step_old hok hfit hafter
  · exact step_new hok hfit hnew

/-! ## Whole runs -/

/-- Every call of a run is made with a buffer that is in order. -/
theorem Receives.steps {c : State} {receipts : List (Receipt host)}
    (hrun : Receives host c receipts) (hok : BufferOk host c) : ∀ r ∈ receipts, r.Step := by
  induction hrun with
  | nil => exact fun r hr => absurd hr List.not_mem_nil
  | cons hbetween hrest ih =>
      have hstep := Receipt.step (hok.between hbetween)
      intro r hr
      rcases List.mem_cons.mp hr with rfl | hr
      · exact hstep
      · exact ih hstep.ok r hr

theorem allocatedSizes_cons (r : Receipt host) (receipts : List (Receipt host)) :
    allocatedSizes (r :: receipts) =
      if r.Allocates then r.rounded :: allocatedSizes receipts else allocatedSizes receipts := by
  unfold allocatedSizes
  by_cases h : r.Allocates
  · rw [List.filter_cons_of_pos (by simpa using h), if_pos h, List.map_cons]
  · rw [List.filter_cons_of_neg (by simpa using h), if_neg h]

theorem sum_consumed {receipts : List (Receipt host)} (hsteps : ∀ r ∈ receipts, r.Step) :
    (receipts.map Receipt.consumed).sum = (allocatedSizes receipts).sum := by
  induction receipts with
  | nil => rfl
  | cons r receipts ih =>
      have hrest := ih fun r' hr' => hsteps r' (List.mem_cons_of_mem _ hr')
      have hconsumed := (hsteps r List.mem_cons_self).consumed_eq
      rw [List.map_cons, List.sum_cons, hrest, hconsumed, allocatedSizes_cons]
      by_cases h : r.Allocates
      · rw [if_pos h, if_pos h, List.sum_cons]
      · rw [if_neg h, if_neg h, Nat.zero_add]

/-- If no object has the size of the buffer, every size that is allocated is larger than
the buffer, and the sizes increase. -/
theorem Receives.increasing {c : State} {receipts : List (Receipt host)}
    (hrun : Receives host c receipts) (hok : BufferOk host c)
    (hne : ∀ r ∈ receipts, r.bytes.length ≠ r.before.recvbufSz.toNat) :
    (∀ n ∈ allocatedSizes receipts, c.recvbufSz.toNat < n) ∧
      (allocatedSizes receipts).Pairwise (· < ·) := by
  induction hrun with
  | nil => exact ⟨fun n hn => absurd hn List.not_mem_nil, List.Pairwise.nil⟩
  | @cons c r receipts hbetween hrest ih =>
      have hstep := Receipt.step (hok.between hbetween)
      obtain ⟨habove, hpair⟩ := ih hstep.ok fun r' hr' => hne r' (List.mem_cons_of_mem _ hr')
      have hsize := hstep.size_eq
      rw [allocatedSizes_cons, ← hbetween.size_eq]
      by_cases h : r.Allocates
      · rw [if_pos h] at hsize ⊢
        have hlarger : r.before.recvbufSz.toNat < r.rounded := by
          have hle := hstep.allocates_iff.mp h
          have hlt := hne r List.mem_cons_self
          have hround := (roundUp_spec (x := r.bytes.length) (Nat.two_pow_pos host.pageBits)).1
          rw [Receipt.rounded]
          omega
        rw [hsize] at habove
        refine ⟨fun n hn => ?_, List.pairwise_cons.mpr ⟨habove, hpair⟩⟩
        rcases List.mem_cons.mp hn with rfl | hn
        · exact hlarger
        · exact hlarger.trans (habove n hn)
      · rw [if_neg h] at hsize ⊢
        rw [hsize] at habove
        exact ⟨habove, hpair⟩

end Runs

/-! ## A page twice -/

/-- A page of zeros, received by a client of the sample host. -/
def receivePage (c : State)
    (h : ((translatorGetObject (quietHost hhvmInfo) (List.replicate 4096 0)).run c).1 =
      .ok (((translatorGetObject (quietHost hhvmInfo) (List.replicate 4096 0)).run c).2.recvbuf,
        BitVec.ofNat 64 (List.replicate 4096 (0 : Byte)).length)) :
    Receipt (quietHost hhvmInfo) where
  bytes := List.replicate 4096 0
  before := c
  after := ((translatorGetObject (quietHost hhvmInfo) (List.replicate 4096 0)).run c).2
  length_lt := by
    rw [List.length_replicate]
    decide
  run_eq := Prod.ext h rfl

def firstPage : Receipt (quietHost hhvmInfo) := receivePage startState (by decide +kernel)

def secondPage : Receipt (quietHost hhvmInfo) := receivePage firstPage.after (by decide +kernel)

theorem bufferOk_startState : BufferOk (quietHost hhvmInfo) startState where
  ok := arenaInit_ok (by decide) (by decide) (by decide)
  endp_le := by decide
  brk_page := by decide
  buf := Or.inl rfl

theorem receives_pages : Receives (quietHost hhvmInfo) startState [firstPage, secondPage] := by
  have hbetween : SameBuffer firstPage.after secondPage.before := by
    rw [secondPage, receivePage]
    dsimp only
    exact SameBuffer.refl _
  exact .cons (SameBuffer.refl _) (.cons hbetween (.nil _))

/-! ## The whole run -/

/-- The buffer grows only when it must exactly if no object is received that has the
size of the buffer. -/
theorem buffer_grows_when_it_must_iff {host : Host} {c : State} {receipts : List (Receipt host)}
    (hok : BufferOk host c) (hrun : Receives host c receipts) :
    GrowsWhenItMust receipts ↔
      ∀ r ∈ receipts, r.bytes.length ≠ r.before.recvbufSz.toNat := by
  have hsteps := hrun.steps hok
  constructor
  · intro h r hr heq
    have hallocates := (hsteps r hr).allocates_iff.mpr heq.ge
    have hlt := (h.allocates_iff r hr).mp hallocates
    omega
  · intro hne
    refine ⟨fun r hr => (hsteps r hr).holds, fun r hr => ?_, (hrun.increasing hok hne).2,
      (sum_consumed hsteps).le⟩
    have hrne := hne r hr
    rw [(hsteps r hr).allocates_iff]
    omega

theorem buffer_grows_for_first_page :
    GrowsWhenItMust [firstPage] ∧ allocatedSizes [firstPage] = [4096] := by
  refine ⟨(buffer_grows_when_it_must_iff bufferOk_startState
    (.cons (SameBuffer.refl _) (.nil _))).mpr ?_, by decide +kernel⟩
  intro r hr
  obtain rfl := List.mem_singleton.mp hr
  decide +kernel

/-- The second object of one page takes a second buffer of one page. -/
theorem buffer_replaced_by_equal_one :
    BufferOk (quietHost hhvmInfo) startState ∧
      Receives (quietHost hhvmInfo) startState [firstPage, secondPage] ∧
      allocatedSizes [firstPage, secondPage] = [4096, 4096] ∧
      ¬GrowsWhenItMust [firstPage, secondPage] := by
  have hsizes : allocatedSizes [firstPage, secondPage] = [4096, 4096] := by decide +kernel
  refine ⟨bufferOk_startState, receives_pages, hsizes, fun h => ?_⟩
  have hpair := h.increasing
  rw [hsizes] at hpair
  exact absurd hpair (by decide)

end PollyInstrew.Client
