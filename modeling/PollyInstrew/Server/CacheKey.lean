import PollyInstrew.Server.Lockstep
import PollyInstrew.Shared.Protocol

/-!
# What the cache key determines

`Translate` looks an object up under the hash of the configuration, the start
address and what `Predecode` feeds to the hash.  Two requests with the same hash
input pre-decode the same instructions unless a block of one goes on where the
other's cannot be decoded, or they were made at different granularities.
-/

namespace PollyInstrew.Server

open PollyInstrew.ByteMemory
open PollyInstrew.Shared

/-! ## The hash input -/

/-- The options of `InstrewConfig` that are hashed or read by `Predecode`. -/
structure InstrewConfig where
  targetopt : BitVec 32
  extrainstcombine : Bool
  safecallret : Bool
  fullfacets : Bool
  callret : Bool
  pic : Bool
  granularity : ℤ
  deriving DecidableEq, Repr

/-- What the key depends on in `IWState`. -/
structure IWState where
  instrewCfg : InstrewConfig
  iwsc : IWServerConfig
  iwcc : IWClientConfig
  toolConfig : List Byte
  deriving DecidableEq, Repr

def boolBytes (b : Bool) : List Byte := [if b then 1 else 0]

/-- The bytes hashed into `config_hash`. -/
def IWState.configBytes (st : IWState) : List Byte :=
  leBytes 4 st.instrewCfg.targetopt.toNat ++
  boolBytes st.instrewCfg.extrainstcombine ++
  boolBytes st.instrewCfg.safecallret ++
  boolBytes st.instrewCfg.fullfacets ++
  boolBytes st.instrewCfg.callret ++
  boolBytes st.instrewCfg.pic ++
  leBytes 4 st.iwsc.tscGuestArch.toNat ++
  leBytes 4 st.iwsc.tscHostArch.toNat ++
  leBytes 4 st.iwsc.tscHostCpuFeatures.toNat ++
  leBytes 4 st.iwsc.tscStackAlignment.toNat ++
  leBytes 4 st.iwcc.tcCallconv.toNat ++
  st.toolConfig

def IWState.predecodeConfig (st : IWState) : PredecodeConfig :=
  ⟨st.instrewCfg.granularity, st.instrewCfg.callret⟩

/-- A call of `Translate`: the state of the server, the guest memory and the
address. -/
structure Request where
  state : IWState
  readmem : Word → List Byte
  addr : Word

/-- An instruction as listed relative to the start address. -/
structure ListedInst where
  off : Word
  size : BitVec 8
  bytes : List Byte
  newBlock : Bool
  deriving DecidableEq, Repr

/-- The pre-decoded instructions, relative to the start address. -/
def Predecoder.listing (g : Guest) (start : Word) (s : Predecoder) : List ListedInst :=
  s.insts.map fun inst =>
    ⟨inst.addr - start, inst.size, (g.readmem inst.addr).take inst.size.toNat, inst.newBlock⟩

section Request

variable (sha1 : List Byte → List Byte) (decodeFns : BitVec 32 → DecodeFunc)

/-- The guest of a request; the guest architecture selects `decode_fn`. -/
def Request.guest (r : Request) : Guest := ⟨decodeFns r.state.iwsc.tscGuestArch, r.readmem⟩

def Request.predecode (r : Request) : Option Predecoder :=
  Server.predecode r.state.predecodeConfig (r.guest decodeFns) r.addr

def Request.hashAddr (r : Request) : Word :=
  if r.state.instrewCfg.pic then 0#64 else r.addr

/-- The bytes `Translate` feeds to the hash. -/
def Request.hashInput (r : Request) : Option (List Byte) :=
  (r.predecode decodeFns).map fun s =>
    sha1 r.state.configBytes ++ leBytes 8 r.hashAddr.toNat ++ s.sha

def Request.listing (r : Request) : Option (List ListedInst) :=
  (r.predecode decodeFns).map (Predecoder.listing (r.guest decodeFns) r.addr)

end Request

/-! ## Block starts -/

/-- Jumps, conditional jumps and calls of the explored code lead to no instruction
but the first. -/
def JumpsToStart (cfg : PredecodeConfig) (g : Guest) (start : Word) : Prop :=
  ∀ a, Reached cfg g start a → ¬g.IsNormal a → ∀ y ∈ successors cfg.callret g a,
    g.Decodes y → y = start

theorem ExploreInv.jumpTarget_iff {cfg : PredecodeConfig} {g : Guest} {start : Word}
    {s : Predecoder} (h : ExploreInv cfg g start s none)
    (hjumps : cfg.granularity ≤ 1 ∨ JumpsToStart cfg g start) {y : Word}
    (hdec : g.Decodes y) : JumpTarget cfg g start s.addrs y ↔ y = start := by
  constructor
  · rintro (hstart | ⟨a, ha, hn, he⟩)
    · exact hstart
    · have hgran := (granularity_pos_of_mem_explored he).2.resolve_left hn
      rw [explored_eq_successors hgran] at he
      rcases hjumps with hle | hjumps
      · omega
      · exact hjumps a (h.reached a ha) hn y he hdec
  · exact Or.inl

section SameCode

variable {cfg₁ cfg₂ : PredecodeConfig} {g₁ g₂ : Guest} {start d : Word}
  {f₁ f₂ : Predecoder}

theorem SameCode.getElem? (h : SameCode d g₁ g₂ f₁ f₂) (k : ℕ) :
    f₂.addrs[k]? = (f₁.addrs[k]?).map (· + d) := by
  rw [h.addrs, List.getElem?_map]

theorem SameCode.mem_addrs_iff (h : SameCode d g₁ g₂ f₁ f₂) (a : Word) :
    a + d ∈ f₂.addrs ↔ a ∈ f₁.addrs := by
  rw [h.addrs]
  simp [BitVec.add_left_inj]

theorem SameCode.symm (h : SameCode d g₁ g₂ f₁ f₂) : SameCode (-d) g₂ g₁ f₂ f₁ where
  addrs := by
    rw [h.addrs, List.map_map]
    simp [Function.comp_def, add_neg_cancel_word]
  insts := by
    intro b hb
    rw [h.addrs] at hb
    obtain ⟨a, ha, rfl⟩ := List.mem_map.mp hb
    exact (h.insts a ha).symm

theorem SameCode.normalJoin_iff (h : SameCode d g₁ g₂ f₁ f₂)
    (hgran₁ : 0 < cfg₁.granularity) (hgran₂ : 0 < cfg₂.granularity) (j : ℕ) (y : Word) :
    NormalJoin cfg₂ g₂ f₂.addrs j (y + d) ↔ NormalJoin cfg₁ g₁ f₁.addrs j y := by
  have hinst : ∀ {k : ℕ} {a : Word}, f₁.addrs[k]? = some a → SameInst d g₁ g₂ a :=
    fun hk => h.insts _ (List.mem_of_getElem? hk)
  constructor
  · rintro ⟨k, b, hk, hn, he, hne⟩
    rw [h.getElem?] at hk
    obtain ⟨a, ha, rfl⟩ := Option.map_eq_some_iff.mp hk
    have hn₁ := (hinst ha).isNormal_iff.mp hn
    refine ⟨k, a, ha, hn₁, ?_, hne⟩
    rw [explored_normal hgran₂ hn, (hinst ha).next_eq, List.mem_singleton,
      BitVec.add_left_inj] at he
    rw [explored_normal hgran₁ hn₁, List.mem_singleton]
    exact he
  · rintro ⟨k, a, hk, hn, he, hne⟩
    have hn₂ := (hinst hk).isNormal_iff.mpr hn
    refine ⟨k, a + d, ?_, hn₂, ?_, hne⟩
    · rw [h.getElem?, hk]
      rfl
    · rw [explored_normal hgran₁ hn, List.mem_singleton] at he
      rw [explored_normal hgran₂ hn₂, (hinst hk).next_eq, List.mem_singleton, he]

theorem SameCode.jumpTarget_iff (h : SameCode d g₁ g₂ f₁ f₂)
    (hgran₁ : 2 ≤ cfg₁.granularity) (hgran₂ : 2 ≤ cfg₂.granularity)
    (hcallret : cfg₂.callret = cfg₁.callret) (y : Word) :
    JumpTarget cfg₂ g₂ (start + d) f₂.addrs (y + d) ↔
      JumpTarget cfg₁ g₁ start f₁.addrs y := by
  unfold JumpTarget
  rw [BitVec.add_left_inj]
  refine or_congr_right ?_
  have hmem : ∀ a, y + d ∈ (successors cfg₁.callret g₁ a).map (· + d) ↔
      y ∈ successors cfg₁.callret g₁ a := by
    intro a
    simp [BitVec.add_left_inj]
  constructor
  · rintro ⟨b, hb, hn, he⟩
    rw [h.addrs] at hb
    obtain ⟨a, ha, rfl⟩ := List.mem_map.mp hb
    have hinst := h.insts a ha
    refine ⟨a, ha, mt hinst.isNormal_iff.mpr hn, ?_⟩
    rw [explored_eq_successors hgran₂, hcallret, hinst.successors_eq, hmem] at he
    rwa [explored_eq_successors hgran₁]
  · rintro ⟨a, ha, hn, he⟩
    have hinst := h.insts a ha
    refine ⟨a + d, (h.mem_addrs_iff a).mpr ha, mt hinst.isNormal_iff.mp hn, ?_⟩
    rw [explored_eq_successors hgran₁] at he
    rwa [explored_eq_successors hgran₂, hcallret, hinst.successors_eq, hmem]

section Final

variable (h : SameCode d g₁ g₂ f₁ f₂)
  (h₁ : ExploreInv cfg₁ g₁ start f₁ none) (hempty₁ : 2 ≤ cfg₁.granularity → f₁.addrQueue = [])
  (h₂ : ExploreInv cfg₂ g₂ (start + d) f₂ none)
  (hempty₂ : 2 ≤ cfg₂.granularity → f₂.addrQueue = [])
include h h₁ hempty₁ h₂ hempty₂

/-- The block starts agree. -/
theorem SameCode.flags_eq (hcallret : cfg₂.callret = cfg₁.callret)
    (hzero : cfg₁.granularity ≤ 0 ∨ cfg₂.granularity ≤ 0 → f₁.addrs.length ≤ 1)
    (hjumps₁ : 2 ≤ cfg₁.granularity → cfg₂.granularity = 1 → JumpsToStart cfg₁ g₁ start)
    (hjumps₂ : cfg₁.granularity = 1 → 2 ≤ cfg₂.granularity →
      JumpsToStart cfg₂ g₂ (start + d)) : f₂.flags = f₁.flags := by
  apply List.ext_getElem?
  intro j
  have hlen : f₂.flags.length = f₁.flags.length := by
    rw [length_flags, length_flags, h.addrs, List.length_map]
  by_cases hj : j < f₁.addrs.length
  swap
  · have hj₁ : f₁.flags.length ≤ j := by
      rw [length_flags]
      omega
    rw [List.getElem?_eq_none hj₁, List.getElem?_eq_none (hlen ▸ hj₁)]
  obtain ⟨y, hy⟩ : ∃ y, f₁.addrs[j]? = some y := ⟨_, List.getElem?_eq_getElem hj⟩
  have hy₂ : f₂.addrs[j]? = some (y + d) := by rw [h.getElem?, hy]; rfl
  obtain ⟨b₁, hb₁⟩ : ∃ b, f₁.flags[j]? = some b :=
    ⟨_, List.getElem?_eq_getElem (by rwa [length_flags])⟩
  obtain ⟨b₂, hb₂⟩ : ∃ b, f₂.flags[j]? = some b :=
    ⟨_, List.getElem?_eq_getElem (by rwa [hlen, length_flags])⟩
  have hiff : f₂.flags[j]? = some true ↔ f₁.flags[j]? = some true := by
    by_cases hgran : cfg₁.granularity ≤ 0 ∨ cfg₂.granularity ≤ 0
    · obtain rfl : j = 0 := by
        have := hzero hgran
        omega
      have hfirst₁ := h₁.first
      have hfirst₂ := h₂.first
      rw [hb₁] at hfirst₁ ⊢
      rw [hb₂] at hfirst₂ ⊢
      cases b₁ <;> cases b₂ <;> simp at hfirst₁ hfirst₂ ⊢
    · rw [not_or, Int.not_le, Int.not_le] at hgran
      rw [h₁.flag_iff hempty₁ hy, h₂.flag_iff hempty₂ hy₂,
        h.normalJoin_iff hgran.1 hgran.2]
      refine or_congr_left ?_
      by_cases hall : 2 ≤ cfg₁.granularity ∧ 2 ≤ cfg₂.granularity
      · exact h.jumpTarget_iff hall.1 hall.2 hcallret y
      · have hdec₁ := h₁.decodes y (List.mem_of_getElem? hy)
        have hdec₂ := h₂.decodes (y + d) (List.mem_of_getElem? hy₂)
        have hstart₁ : cfg₁.granularity ≤ 1 ∨ JumpsToStart cfg₁ g₁ start := by
          by_cases hle : cfg₁.granularity ≤ 1
          · exact Or.inl hle
          · exact Or.inr (hjumps₁ (by omega) (by omega))
        have hstart₂ : cfg₂.granularity ≤ 1 ∨ JumpsToStart cfg₂ g₂ (start + d) := by
          by_cases hle : cfg₂.granularity ≤ 1
          · exact Or.inl hle
          · exact Or.inr (hjumps₂ (by omega) (by omega))
        rw [h₁.jumpTarget_iff hstart₁ hdec₁, h₂.jumpTarget_iff hstart₂ hdec₂,
          BitVec.add_left_inj]
  rw [hb₁, hb₂] at hiff ⊢
  cases b₁ <;> cases b₂ <;> simp at hiff ⊢

/-- Runs that list the same instructions fall through alike. -/
theorem SameCode.fallThrough (hgran₁ : 0 < cfg₁.granularity) (hgran₂ : 0 < cfg₂.granularity) :
    FallThrough cfg₁ cfg₂ g₁ g₂ start (start + d) := by
  intro off size hreach₁ hreach₂ hn₁ hn₂ hsize₁ hsize₂
  have hcomm : start + d + off + size.setWidth 64 = start + off + size.setWidth 64 + d := by
    grind
  have hnext₁ : start + off + size.setWidth 64 ∈ explored cfg₁ g₁ (start + off) := by
    rw [explored_normal hgran₁ hn₁, DecodeResult.next, hsize₁]
    exact List.mem_singleton_self _
  have hnext₂ : start + d + off + size.setWidth 64 ∈ explored cfg₂ g₂ (start + d + off) := by
    rw [explored_normal hgran₂ hn₂, DecodeResult.next, hsize₂]
    exact List.mem_singleton_self _
  constructor
  · intro hdec
    have hmem := (h₁.mem_addrs_iff hempty₁ _).mpr ⟨hreach₁.tail hnext₁, hdec⟩
    rw [hcomm]
    exact h₂.decodes _ ((h.mem_addrs_iff _).mpr hmem)
  · intro hdec
    have hmem := (h₂.mem_addrs_iff hempty₂ _).mpr ⟨hreach₂.tail hnext₂, hdec⟩
    rw [hcomm] at hmem
    exact h₁.decodes _ ((h.mem_addrs_iff _).mp hmem)

/-- If exploring only the first block finds all block starts, the jumps lead to
the first instruction. -/
theorem SameCode.jumpsToStart (hgran₁ : cfg₁.granularity = 1) (hgran₂ : 2 ≤ cfg₂.granularity)
    (hflags : f₂.flags = f₁.flags) : JumpsToStart cfg₂ g₂ (start + d) := by
  intro a hreach hn y hy hdec
  rw [← explored_eq_successors hgran₂] at hy
  have ha := (h₂.mem_addrs_iff hempty₂ a).mpr ⟨hreach, decodes_of_mem_explored hy⟩
  obtain ⟨k, hk⟩ := List.mem_iff_getElem?.mp ha
  obtain ⟨j, hj, hf | ⟨hn', -⟩⟩ := h₂.successor_listed hempty₂ hk hy hdec
  swap
  · exact absurd hn' hn
  rw [h.getElem?] at hk hj
  obtain ⟨a₁, hk₁, rfl⟩ := Option.map_eq_some_iff.mp hk
  obtain ⟨y₁, hj₁, rfl⟩ := Option.map_eq_some_iff.mp hj
  have hn₁ := mt (h.insts a₁ (List.mem_of_getElem? hk₁)).isNormal_iff.mpr hn
  rw [hflags] at hf
  rcases (h₁.flag_iff hempty₁ hj₁).mp hf with (rfl | ⟨b, -, hbn, hbe⟩) | ⟨m, b, hm, hbn, hbe, hne⟩
  · rfl
  · have := (granularity_pos_of_mem_explored hbe).2.resolve_left hbn
    omega
  · have hlast : ∀ c, f₁.addrs[k + 1]? ≠ some c := by
      intro c hc
      obtain ⟨prev, hprev, hpn, -⟩ := h₁.chained k c hc (Or.inr (by omega))
      rw [hk₁] at hprev
      obtain rfl := Option.some.inj hprev
      exact hn₁ hpn
    have hmk : m ≠ k := by
      rintro rfl
      rw [hk₁] at hm
      obtain rfl := Option.some.inj hm
      exact hn₁ hbn
    have hklt := (List.getElem?_eq_some_iff.mp hk₁).1
    have hmlt := (List.getElem?_eq_some_iff.mp hm).1
    have hklast : f₁.addrs.length ≤ k + 1 := by
      by_contra hlt
      exact hlast _ (List.getElem?_eq_getElem (by omega))
    obtain ⟨c, hc⟩ : ∃ c, f₁.addrs[m + 1]? = some c :=
      ⟨_, List.getElem?_eq_getElem (by omega)⟩
    obtain ⟨prev, hprev, -, hnext⟩ := h₁.chained m c hc (Or.inr (by omega))
    rw [hm] at hprev
    obtain rfl := Option.some.inj hprev
    rw [explored_normal (by omega) hbn, hnext, List.mem_singleton] at hbe
    subst hbe
    exact absurd (h₁.index_unique hc hj₁) hne

end Final

theorem ExploreInv.getElem?_listing {cfg : PredecodeConfig} {g : Guest} {s : Predecoder}
    (h : ExploreInv cfg g start s none) (k : ℕ) :
    (s.listing g start)[k]? = (s.addrs[k]?).bind fun a => (s.flags[k]?).map fun b =>
      ⟨a - start, (g.decode a).size, (g.readmem a).take (g.decode a).size.toNat, b⟩ := by
  rw [Predecoder.listing, Predecoder.addrs, Predecoder.flags, List.getElem?_map,
    List.getElem?_map, List.getElem?_map]
  cases hk : s.insts[k]? with
  | none => rfl
  | some inst =>
      have hsize := h.sizes inst (List.mem_of_getElem? hk)
      simp [hsize]

/-- The listings are equal if instructions and block starts agree. -/
theorem listing_eq_iff_sameCode (hlocal : LocalDecoder g₁.decodeFn)
    (hfn : g₂.decodeFn = g₁.decodeFn) (h₁ : ExploreInv cfg₁ g₁ start f₁ none)
    (h₂ : ExploreInv cfg₂ g₂ (start + d) f₂ none) :
    f₁.listing g₁ start = f₂.listing g₂ (start + d) ↔
      SameCode d g₁ g₂ f₁ f₂ ∧ f₂.flags = f₁.flags := by
  constructor
  · intro heq
    have hflags : f₂.flags = f₁.flags := by
      have := congrArg (List.map ListedInst.newBlock) heq
      simpa [Predecoder.listing, Predecoder.flags, Function.comp_def] using this.symm
    have hoffs : f₁.addrs.map (· - start) = f₂.addrs.map (· - (start + d)) := by
      have := congrArg (List.map ListedInst.off) heq
      simpa [Predecoder.listing, Predecoder.addrs, Function.comp_def] using this
    have haddrs : f₂.addrs = f₁.addrs.map (· + d) := by
      have hmap := congrArg (List.map (· + (start + d))) hoffs
      simp only [List.map_map, Function.comp_def] at hmap
      have hid : ∀ a : Word, a - (start + d) + (start + d) = a := by grind
      have hshift : ∀ a : Word, a - start + (start + d) = a + d := by grind
      simpa [hid, hshift] using hmap.symm
    refine ⟨⟨haddrs, ?_⟩, hflags⟩
    intro a ha
    obtain ⟨k, hk⟩ := List.mem_iff_getElem?.mp ha
    have hget := congrArg (fun l => l[k]?) heq
    rw [h₁.getElem?_listing, h₂.getElem?_listing, haddrs, hflags, List.getElem?_map, hk] at hget
    obtain ⟨b, hb⟩ : ∃ b, f₁.flags[k]? = some b :=
      ⟨_, List.getElem?_eq_getElem (by
        rw [length_flags]
        exact (List.getElem?_eq_some_iff.mp hk).1)⟩
    simp only [hb, Option.bind_some, Option.map_some, Option.some.injEq,
      ListedInst.mk.injEq] at hget
    obtain ⟨-, hsize, hbytes, -⟩ := hget
    refine sameInst_of_take hlocal hfn (h₁.decodes a ha) ?_
    rw [hbytes, hsize]
  · rintro ⟨h, hflags⟩
    apply List.ext_getElem?
    intro k
    rw [h₁.getElem?_listing, h₂.getElem?_listing, h.getElem?, hflags]
    cases hk : f₁.addrs[k]? with
    | none => rfl
    | some a =>
        have hinst := h.insts a (List.mem_of_getElem? hk)
        have hoff : a + d - (start + d) = a - start := by grind
        have hbytes := hinst.bytes
        rw [hinst.size] at hbytes
        simp only [Option.bind_some, Option.map_some, hinst.size, hbytes, hoff]

end SameCode

/-! ## The key -/

theorem callret_of_configBytes {st₁ st₂ : IWState} (h : st₁.configBytes = st₂.configBytes) :
    st₁.instrewCfg.callret = st₂.instrewCfg.callret := by
  have hget := congrArg (fun l => l[7]?) h
  simp only [IWState.configBytes, boolBytes, leBytes] at hget
  cases hc₁ : st₁.instrewCfg.callret <;> cases hc₂ : st₂.instrewCfg.callret <;>
    simp [hc₁, hc₂] at hget ⊢

theorem guestArch_of_configBytes {st₁ st₂ : IWState} (h : st₁.configBytes = st₂.configBytes) :
    st₁.iwsc.tscGuestArch = st₂.iwsc.tscGuestArch := by
  have hget := congrArg (fun l => (l.drop 9).take 4) h
  have hbytes : leBytes 4 st₁.iwsc.tscGuestArch.toNat = leBytes 4 st₂.iwsc.tscGuestArch.toNat := by
    simpa [IWState.configBytes, boolBytes, leBytes] using hget
  have h₁ := ofNat_leNat_leBytes (k := 4) st₁.iwsc.tscGuestArch
  rw [hbytes] at h₁
  exact h₁.symm.trans (ofNat_leNat_leBytes (k := 4) st₂.iwsc.tscGuestArch)

/-- The code of two requests agrees where the hash input does not tell: normal
instructions fall through to an instruction in both or in none; and if only one
of them stops at the end of the first block, all jumps of the other lead to the
first instruction. -/
structure Request.Agree (decodeFns : BitVec 32 → DecodeFunc) (r₁ r₂ : Request) : Prop where
  fallThrough : 0 < r₁.state.instrewCfg.granularity → 0 < r₂.state.instrewCfg.granularity →
    FallThrough r₁.state.predecodeConfig r₂.state.predecodeConfig (r₁.guest decodeFns)
      (r₂.guest decodeFns) r₁.addr r₂.addr
  jumps₁ : 2 ≤ r₁.state.instrewCfg.granularity → r₂.state.instrewCfg.granularity = 1 →
    JumpsToStart r₁.state.predecodeConfig (r₁.guest decodeFns) r₁.addr
  jumps₂ : r₁.state.instrewCfg.granularity = 1 → 2 ≤ r₂.state.instrewCfg.granularity →
    JumpsToStart r₂.state.predecodeConfig (r₂.guest decodeFns) r₂.addr

/-! ### Sample requests -/

/-- A few instructions of x86-64: `nop`, `ret`, `jz` and the two additions whose
encodings look like offsets. -/
def sampleDecode : DecodeFunc := fun addr buf =>
  if buf[0]? = some 0x90#8 then ⟨.normal, 1, 0⟩
  else if buf[0]? = some 0xc3#8 then ⟨.unknownTgt, 1, 0⟩
  else if (buf[0]? = some 0x02#8 ∨ buf[0]? = some 0x00#8) ∧ buf[1]? = some 0x00#8 then
    ⟨.normal, 2, 0⟩
  else if buf[0]? = some 0x74#8 ∧ buf[1]?.isSome then
    ⟨.condBranch, 2, addr + 2 + (buf[1]?.getD 0).signExtend 64⟩
  else ⟨.failed, 0, 0⟩

theorem getElem?_of_take_eq {α : Type*} {l l' : List α} {n k : ℕ} (h : l'.take n = l.take n)
    (hk : k < n) : l'[k]? = l[k]? := by
  have hget := congrArg (fun l => l[k]?) h
  simpa [List.getElem?_take, hk] using hget

theorem length_of_getElem?_some {α : Type*} {l : List α} {k : ℕ} {x : α}
    (h : l[k]? = some x) : k + 1 ≤ l.length := (List.getElem?_eq_some_iff.mp h).1

theorem localDecoder_sampleDecode : LocalDecoder sampleDecode where
  size_le := by
    intro addr buf hdec
    unfold sampleDecode at hdec ⊢
    split_ifs at hdec ⊢ with h₁ h₂ h₃ h₄
    · exact length_of_getElem?_some h₁
    · exact length_of_getElem?_some h₂
    · exact length_of_getElem?_some h₃.2
    · obtain ⟨rel, hrel⟩ := Option.isSome_iff_exists.mp h₄.2
      exact length_of_getElem?_some hrel
    · exact absurd rfl hdec
  congr := by
    intro addr addr' buf buf' hdec htake
    unfold sampleDecode at hdec htake ⊢
    split_ifs at hdec htake with h₁ h₂ h₃ h₄
    · simp [getElem?_of_take_eq htake (k := 0) Nat.zero_lt_one, h₁]
    · simp [getElem?_of_take_eq htake (k := 0) Nat.zero_lt_one, h₂]
    · have hfst := getElem?_of_take_eq htake (k := 0) Nat.zero_lt_two
      have hsnd := getElem?_of_take_eq htake (k := 1) Nat.one_lt_two
      simp [hfst, hsnd, h₁, h₂, h₃]
    · have hfst := getElem?_of_take_eq htake (k := 0) Nat.zero_lt_two
      have hsnd := getElem?_of_take_eq htake (k := 1) Nat.one_lt_two
      simp [hfst, hsnd, h₄]
    · exact absurd rfl hdec
  target := by
    intro addr addr' buf buf' hkind htake
    unfold sampleDecode at hkind htake ⊢
    split_ifs at hkind htake with h₁ h₂ h₃ h₄
    · simp at hkind
    · simp at hkind
    · simp at hkind
    · have hfst := getElem?_of_take_eq htake (k := 0) Nat.zero_lt_two
      have hsnd := getElem?_of_take_eq htake (k := 1) Nat.one_lt_two
      simp only [hfst, hsnd, if_neg h₁, if_neg h₂, if_neg h₃, if_pos h₄]
      grind
    · simp at hkind

def sampleState : IWState :=
  ⟨⟨3, true, false, false, false, true, 2⟩, ⟨62, 62, 0, 0, 8⟩, ⟨1, 0, 0, 0, 0⟩, []⟩

def sampleRequest (addr : Word) (code : List Byte) : Request :=
  ⟨sampleState, fun a => (code.drop (a - addr).toNat).take 15, addr⟩

/-- Requests with the same hash input list the same instructions, relative to
their start addresses, exactly if their code agrees where the hash input does
not tell. -/
theorem listing_eq_iff_agree (sha1 : List Byte → List Byte)
    (hlen : ∀ bytes, (sha1 bytes).length = 20) (decodeFns : BitVec 32 → DecodeFunc)
    (hlocal : ∀ arch, LocalDecoder (decodeFns arch)) (r₁ r₂ : Request)
    (hinj : sha1 r₁.state.configBytes = sha1 r₂.state.configBytes →
      r₁.state.configBytes = r₂.state.configBytes)
    (hkey : r₁.hashInput sha1 decodeFns = r₂.hashInput sha1 decodeFns) :
    r₁.listing decodeFns = r₂.listing decodeFns ↔ r₁.Agree decodeFns r₂ := by
  obtain ⟨f₁, hrun₁, h₁, hempty₁⟩ :=
    predecode_ok r₁.state.predecodeConfig (r₁.guest decodeFns) r₁.addr
  obtain ⟨f₂, hrun₂, h₂, hempty₂⟩ :=
    predecode_ok r₂.state.predecodeConfig (r₂.guest decodeFns) r₂.addr
  obtain ⟨d, hd⟩ : ∃ d, r₂.addr = r₁.addr + d := ⟨r₂.addr - r₁.addr, by grind⟩
  obtain ⟨hconfig, hsha⟩ : r₁.state.configBytes = r₂.state.configBytes ∧ f₂.sha = f₁.sha := by
    simp only [Request.hashInput, Request.predecode, hrun₁, hrun₂, Option.map_some,
      Option.some.injEq] at hkey
    obtain ⟨hfixed, hsha⟩ := List.append_inj hkey (by simp [hlen])
    exact ⟨hinj (List.append_inj hfixed (by simp [hlen])).1, hsha.symm⟩
  have hcallret : r₂.state.predecodeConfig.callret = r₁.state.predecodeConfig.callret :=
    (callret_of_configBytes hconfig).symm
  have hfn : (r₂.guest decodeFns).decodeFn = (r₁.guest decodeFns).decodeFn := by
    simp only [Request.guest, guestArch_of_configBytes hconfig]
  have hlisting : r₁.listing decodeFns = r₂.listing decodeFns ↔
      f₁.listing (r₁.guest decodeFns) r₁.addr = f₂.listing (r₂.guest decodeFns) r₂.addr := by
    simp [Request.listing, Request.predecode, hrun₁, hrun₂]
  rw [hd] at hrun₂ h₂ hlisting
  rw [hlisting, listing_eq_iff_sameCode (hlocal _) hfn h₁ h₂]
  constructor
  · rintro ⟨hcode, hflags⟩
    refine ⟨?_, ?_, ?_⟩
    · rw [hd]
      exact hcode.fallThrough h₁ hempty₁ h₂ hempty₂
    · intro hgran₁ hgran₂
      have h₁' : ExploreInv r₁.state.predecodeConfig (r₁.guest decodeFns)
          (r₁.addr + d + -d) f₁ none := by
        rwa [add_neg_cancel_word]
      have hjumps := hcode.symm.jumpsToStart h₂ hempty₂ h₁' hempty₁ hgran₂ hgran₁ hflags.symm
      rwa [add_neg_cancel_word] at hjumps
    · intro hgran₁ hgran₂
      rw [hd]
      exact hcode.jumpsToStart h₁ hempty₁ h₂ hempty₂ hgran₁ hgran₂ hflags
  · rintro ⟨hfall, hjumps₁, hjumps₂⟩
    rw [hd] at hfall hjumps₂
    obtain ⟨hcode, hzero⟩ := sameCode_of_sha (hlocal _) hfn hcallret hrun₁ hrun₂ hsha hfall
    exact ⟨hcode, hcode.flags_eq h₁ hempty₁ h₂ hempty₂ hcallret hzero hjumps₁ hjumps₂⟩

theorem listing_eq_iff_agree_moved :
    (sampleRequest 0x1000 [0x74, 0x01, 0xc3, 0x90]).Agree (fun _ => sampleDecode)
      (sampleRequest 0x2000 [0x74, 0x01, 0xc3, 0x90]) :=
  (listing_eq_iff_agree (fun _ => List.replicate 20 0) (fun _ => rfl) (fun _ => sampleDecode)
    (fun _ => localDecoder_sampleDecode) (sampleRequest 0x1000 [0x74, 0x01, 0xc3, 0x90])
    (sampleRequest 0x2000 [0x74, 0x01, 0xc3, 0x90]) (fun _ => rfl) (by decide +kernel)).mp
    (by decide +kernel)

/-- Where a block ends because nothing decodes, the offset of the next block can
be taken for instructions: here `add al, [rax]` and three `add [rax], al`. -/
theorem hashInput_not_determines :
    let r₁ := sampleRequest 0x1000
      ([0x74, 0x10, 0xc3] ++ List.replicate 15 0x06 ++ [0x90, 0x06])
    let r₂ := sampleRequest 0x1000
      ([0x74, 0x10] ++ List.replicate 16 0x06 ++ [0x90, 0x02, 0, 0, 0, 0, 0, 0, 0, 0xc3])
    LocalDecoder sampleDecode ∧
      (∀ sha1, r₁.hashInput sha1 (fun _ => sampleDecode) =
        r₂.hashInput sha1 (fun _ => sampleDecode)) ∧
      r₁.listing (fun _ => sampleDecode) ≠ r₂.listing (fun _ => sampleDecode) := by
  intro r₁ r₂
  have hsha : (r₁.predecode fun _ => sampleDecode).map Predecoder.sha =
      (r₂.predecode fun _ => sampleDecode).map Predecoder.sha := by
    decide +kernel
  refine ⟨localDecoder_sampleDecode, ?_, by decide +kernel⟩
  intro sha1
  have hmap := congrArg (Option.map fun bytes =>
    sha1 sampleState.configBytes ++ leBytes 8 0 ++ bytes) hsha
  rw [Option.map_map, Option.map_map] at hmap
  exact hmap

end PollyInstrew.Server
