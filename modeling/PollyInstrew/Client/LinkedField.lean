import PollyInstrew.Client.StubExec
import PollyInstrew.Client.Decode

/-!
# Linked fields

What the symbol of a relocation stands for, its value when an object is
loaded, and when a field has been linked: its word is that of the file with
the field replaced by the encoding of the value, or of a veneer for it.
-/

namespace PollyInstrew.Client

open PollyInstrew.ByteMemory PollyInstrew.StateExcept

variable {host : Host} {e : Encoding} {loc loc₀ : Word} {m₀ : Mem}

/-! ## Symbols -/

/-- What the values of symbols depend on: the table, the PLT and the break when
an object is loaded, the addresses of its sections and the skew. -/
structure LinkEnv where
  host : Host
  objects : RtldTable
  plt : Word
  lo : ℕ
  secAddr : ℕ → Word
  skew : Word

/-- `val` is the value of a symbol: the address of its section plus `st_value`,
the skew, the slot of the PLT, and for a guest address the registered entry or
a new stub for the patch data `pd`. -/
def SymSource.HasValue (src : SymSource) (env : LinkEnv) (c : State) (pd : RtldPatchData)
    (val : Word) : Prop :=
  match src with
  | .inSection idx value => val = env.secAddr idx + value
  | .absolute value => val = value
  | .baseaddr => val = env.skew
  | .pltSlot idx => val = env.plt + BitVec.ofNat 64 (idx * pltFuncSize)
  | .guest addr =>
      rtldResolve env.objects addr = .ok val ∨
        ((∃ e, rtldResolve env.objects addr = .error e) ∧ env.lo ≤ val.toNat ∧
          StubAt env.host c val { pd with symAddr := addr })

/-- The environment while an object is relocated in the state `c`. -/
def relocEnv (host : Host) (re : RtldElf) (c : State) : LinkEnv where
  host := host
  objects := c.objects
  plt := c.plt
  lo := c.arenaCode.brk.toNat
  secAddr := fun i => (shdr c.mem re i).shAddr
  skew := re.skew

/-- Memory changes between the old break and the new one only. -/
def FreshOnly (c c' : State) : Prop :=
  ∀ x : Word, (c.arenaCode.brk.toNat ≤ x.toNat → c'.arenaCode.brk.toNat ≤ x.toNat) →
    c'.mem x = c.mem x

/-- A new stub lies above the old break. -/
theorem rtldPatchCreateStub_fresh {pd : RtldPatchData} {c c' : State} {stub : Word}
    (hok : c.arenaCode.Ok host.pageBits) (hend : c.arenaCode.endp.toNat ≤ 2 ^ 47)
    (hrun : (rtldPatchCreateStub host pd).run c = (.ok stub, c')) :
    Grown host c c' ∧ FreshOnly c c' ∧ c.arenaCode.brk.toNat ≤ stub.toNat ∧
      StubAt host c' stub pd := by
  obtain ⟨hgrown, hmem, hcode, hle, hsum, -⟩ :=
    rtldPatchCreateStub_ok hok (hend.trans (by decide)) hrun
  have hb := hgrown.ok.brk_le
  have hp := hgrown.ok.brkp_le
  rw [hgrown.endp_eq] at hp
  refine ⟨hgrown, ?_, hle, ⟨?_, ?_, by omega⟩⟩
  · intro x hx
    rw [hmem]
    apply writeBytes_of_not_inRange
    rw [length_stubBytes, inRange_iff (by omega)]
    omega
  · rw [hmem, hgrown.plt_eq]
    have hlen : (stubBytes host c.plt stub pd).length ≤ 2 ^ 64 := by
      rw [length_stubBytes]
      decide
    have hread := readBytes_writeBytes c.mem stub hlen
    rwa [length_stubBytes] at hread
  · rw [hgrown.plt_eq]
    exact hcode

theorem stub_hasValue {re : RtldElf} {pd : RtldPatchData} {c c' : State} {addr sym : Word}
    (hok : c.arenaCode.Ok host.pageBits) (hend : c.arenaCode.endp.toNat ≤ 2 ^ 47)
    (hrun : (resolveGuestAddr host pd addr).run c = (.ok sym, c')) :
    Grown host c c' ∧ FreshOnly c c' ∧
      (SymSource.guest addr).HasValue (relocEnv host re c) c' pd sym := by
  unfold resolveGuestAddr at hrun
  rw [Prog.run_bind, Prog.run_get] at hrun
  dsimp only at hrun
  cases hres : rtldResolve c.objects addr with
  | ok entry =>
      rw [hres] at hrun
      obtain ⟨hsym, rfl⟩ := Prod.mk.inj hrun
      obtain rfl := Except.ok.inj hsym
      exact ⟨Grown.refl hok, fun _ _ => rfl, Or.inl hres⟩
  | error e =>
      rw [hres] at hrun
      obtain ⟨hgrown, hfresh, hle, hstub⟩ := rtldPatchCreateStub_fresh hok hend hrun
      exact ⟨hgrown, hfresh, Or.inr ⟨⟨e, hres⟩, hle, hstub⟩⟩

/-- Resolving a symbol yields its value; it may add a stub above the break and
changes nothing else. -/
theorem rtldElfResolveSym_ok {re : RtldElf} {symtabIdx symIdx : ℕ} {pd : RtldPatchData}
    {c c' : State} {sym : Word} (hok : c.arenaCode.Ok host.pageBits)
    (hend : c.arenaCode.endp.toNat ≤ 2 ^ 47)
    (hrun : (rtldElfResolveSym host re symtabIdx symIdx pd).run c = (.ok sym, c')) :
    ∃ src, symSource host.arch c.mem re symtabIdx symIdx = some src ∧
      Grown host c c' ∧ FreshOnly c c' ∧ src.HasValue (relocEnv host re c) c' pd sym := by
  have hpure : ∀ {src : SymSource} {v : Word}, (.ok v, c) = ((.ok sym : Except ℤ Word), c') →
      src.HasValue (relocEnv host re c) c pd v →
      Grown host c c' ∧ FreshOnly c c' ∧ src.HasValue (relocEnv host re c) c' pd sym := by
    intro src v heq hv
    obtain ⟨hsym, rfl⟩ := Prod.mk.inj heq
    obtain rfl := Except.ok.inj hsym
    exact ⟨Grown.refl hok, fun _ _ => rfl, hv⟩
  unfold rtldElfResolveSym at hrun
  rw [Prog.run_bind, run_getMem] at hrun
  dsimp only at hrun
  unfold symSource
  by_cases hidx : symIdxOk c.mem re symtabIdx symIdx
  swap
  · rw [if_neg hidx] at hrun
    simp at hrun
  rw [if_pos hidx] at hrun ⊢
  dsimp only
  generalize readSym c.mem (symAddrAt c.mem re symtabIdx symIdx) = s at hrun ⊢
  by_cases hundef : s.stShndx = SHN_UNDEF
  swap
  · simp only [if_neg hundef] at hrun ⊢
    split at hrun
    · next habs =>
      rw [if_pos habs]
      exact ⟨_, rfl, hpure hrun rfl⟩
    · next habs =>
      rw [if_neg habs]
      split at hrun
      · next hlt =>
        rw [if_pos hlt]
        exact ⟨_, rfl, hpure hrun rfl⟩
      · simp at hrun
  simp only [if_pos hundef] at hrun ⊢
  generalize undefName c.mem re symtabIdx s = name at hrun ⊢
  unfold resolveUndefined at hrun
  unfold nameSource
  split at hrun
  · simp at hrun
  next hglob =>
  rw [if_neg hglob]
  split at hrun
  · next hbase =>
    rw [if_pos hbase]
    exact ⟨_, rfl, hpure hrun rfl⟩
  next hbase =>
  rw [if_neg hbase]
  cases hdec : rtldElfDecodeName re.skew name with
  | error e =>
      rw [hdec] at hrun
      dsimp only at hrun
      rw [Prog.run_bind, Prog.run_get] at hrun
      dsimp only at hrun ⊢
      split at hrun
      · next i hplt =>
        rw [hplt]
        exact ⟨_, rfl, hpure hrun rfl⟩
      · simp at hrun
  | ok addr =>
      rw [hdec] at hrun
      exact ⟨_, rfl, stub_hasValue hok hend hrun⟩

/-- A symbol that names a guest address stands for it. -/
theorem symSource_of_guestRef {arch : Arch} {m : Mem} {re : RtldElf} {symtabIdx symIdx : ℕ}
    {addr : Word} (h : guestRef m re symtabIdx symIdx = some addr) :
    symSource arch m re symtabIdx symIdx = some (.guest addr) := by
  unfold guestRef at h
  unfold symSource
  by_cases hidx : symIdxOk m re symtabIdx symIdx
  swap
  · rw [if_neg hidx] at h
    cases h
  rw [if_pos hidx] at h ⊢
  dsimp only at h ⊢
  by_cases hundef : (readSym m (symAddrAt m re symtabIdx symIdx)).stShndx = SHN_UNDEF
  swap
  · rw [if_neg hundef] at h
    cases h
  rw [if_pos hundef] at h ⊢
  generalize undefName m re symtabIdx (readSym m (symAddrAt m re symtabIdx symIdx)) = name at h ⊢
  cases hdec : rtldElfDecodeName re.skew name with
  | error e =>
      rw [hdec] at h
      cases h
  | ok a =>
      rw [hdec] at h
      obtain rfl := Option.some.inj h
      have hletter : name 0 = 0x5a#8 ∨ name 0 = 0x53#8 := by
        by_contra hne
        rw [not_or] at hne
        rw [rtldElfDecodeName, if_pos hne] at hdec
        cases hdec
      have hfirst : ∀ (b : Byte) (bs : List Byte), b ≠ 0x5a#8 → b ≠ 0x53#8 →
          startsWith name (b :: bs) 0 = false ∧ equals name (b :: bs) 0 = false := by
        intro b bs h₁ h₂
        have hne : name 0 ≠ b := by
          rintro rfl
          rcases hletter with h | h
          · exact h₁ h
          · exact h₂ h
        simp [startsWith, equals, hne]
      have hglob : startsWith name (literal "glob_") 0 = false :=
        (hfirst 0x67#8 (literal "lob_") (by decide) (by decide)).1
      have hbase : equals name (literal "instrew_baseaddr") 0 = false :=
        (hfirst 0x69#8 (literal "nstrew_baseaddr") (by decide) (by decide)).2
      unfold nameSource
      rw [hglob, hbase, hdec]
      rfl

/-! ## Fields -/

theorem encoding_width {arch : Arch} {relType : BitVec 32} (h : encoding arch relType = some e) :
    e.width / 8 = fieldSize relType := by
  have hmem := mem_encodings h
  cases arch with
  | x86_64 =>
      simp only [encodings, List.mem_cons, Prod.mk.injEq, List.not_mem_nil, or_false] at hmem
      rcases hmem with ⟨rfl, rfl⟩ | ⟨rfl, rfl⟩ | ⟨rfl, rfl⟩ | ⟨rfl, rfl⟩ | ⟨rfl, rfl⟩ |
        ⟨rfl, rfl⟩ <;> rfl
  | aarch64 =>
      simp only [encodings, List.mem_cons, Prod.mk.injEq, List.not_mem_nil, or_false] at hmem
      rcases hmem with ⟨rfl, rfl⟩ | ⟨rfl, rfl⟩ | ⟨rfl, rfl⟩ | ⟨rfl, rfl⟩ | ⟨rfl, rfl⟩ |
        ⟨rfl, rfl⟩ | ⟨rfl, rfl⟩ | ⟨rfl, rfl⟩ | ⟨rfl, rfl⟩ | ⟨rfl, rfl⟩ | ⟨rfl, rfl⟩ |
        ⟨rfl, rfl⟩ | ⟨rfl, rfl⟩ | ⟨rfl, rfl⟩ | ⟨rfl, rfl⟩ <;> rfl

/-- A field at `pc` that refers to `target` leads to `syma`: directly, or through
a veneer above `lo`. -/
def Encoding.Reaches (e : Encoding) (lo : ℕ) (c : State) (syma pc target : Word) : Prop :=
  (target = syma ∧ (e = .branch26 → checkSignedBits (syma - pc) 28)) ∨
    (e = .branch26 ∧ ¬checkSignedBits (syma - pc) 28 ∧ lo ≤ target.toNat ∧
      VeneerAt c target syma)

/-- The word at `loc` is that at `loc₀` in `m₀` with the field replaced by what
refers to `target` from `pc`. -/
def Encoding.Written (e : Encoding) (m₀ : Mem) (loc₀ : Word) (m : Mem)
    (loc target pc : Word) : Prop :=
  e.check (e.value target pc) ∧
    load e.width m loc = (e.blend (e.bits (e.value target pc))
      ((load e.width m₀ loc₀).setWidth 64)).setWidth e.width

/-- The relocation `pd` of the word at `loc₀` in `m₀`, against a symbol that
stands for `src`, has been carried out at `loc`. -/
def FieldLinked (env : LinkEnv) (src : SymSource) (pd : RtldPatchData) (m₀ : Mem)
    (loc₀ : Word) (c : State) (loc : Word) : Prop :=
  ∃ val e target, src.HasValue env c pd val ∧ encoding env.host.arch pd.relType = some e ∧
    e.Reaches env.lo c (val + pd.addend) pd.patchAddr target ∧
    e.Written m₀ loc₀ c.mem loc target pd.patchAddr

theorem load_width_congr {arch : Arch} {relType : BitVec 32} (he : encoding arch relType = some e)
    {m m' : Mem} {loc' : Word}
    (h : ∀ d < fieldSize relType, m' (loc' + BitVec.ofNat 64 d) = m (loc + BitVec.ofNat 64 d)) :
    load e.width m' loc' = load e.width m loc := by
  have hload : load e.width m' (loc' + BitVec.ofNat 64 0) =
      load e.width m (loc + BitVec.ofNat 64 0) :=
    load_add_congr 0 fun d _ hd => h d (by rw [← encoding_width he]; omega)
  rwa [BitVec.add_zero, BitVec.add_zero] at hload

theorem Encoding.Reaches.frame {lo : ℕ} {c c' : State} {syma pc target : Word}
    (hbrk : c.arenaCode.brk.toNat ≤ c'.arenaCode.brk.toNat)
    (harena : ∀ x : Word, lo ≤ x.toNat → x.toNat < c.arenaCode.brk.toNat → c'.mem x = c.mem x)
    (h : e.Reaches lo c syma pc target) : e.Reaches lo c' syma pc target := by
  refine Or.imp id ?_ h
  rintro ⟨hb, hfar, hle, hveneer⟩
  have hlt := c.arenaCode.brk.isLt
  have hend := hveneer.le_brk
  refine ⟨hb, hfar, hle, ⟨?_, hend.trans hbrk⟩⟩
  rw [← hveneer.bytes]
  apply readBytes_congr _ (by decide)
  intro x hx
  rw [inRange_iff (by omega)] at hx
  exact harena x (by omega) (by omega)

section Frame

variable {env : LinkEnv} {src : SymSource} {pd : RtldPatchData} {c c' : State}
  (hplt : c'.plt = c.plt) (hbrk : c.arenaCode.brk.toNat ≤ c'.arenaCode.brk.toNat)
  (harena : ∀ x : Word, env.lo ≤ x.toNat → x.toNat < c.arenaCode.brk.toNat →
    c'.mem x = c.mem x)
include hplt hbrk harena

theorem SymSource.HasValue.frame {val : Word} (h : src.HasValue env c pd val) :
    src.HasValue env c' pd val := by
  cases src with
  | guest addr =>
      refine Or.imp id ?_ h
      rintro ⟨herr, hle, hstub⟩
      exact ⟨herr, hle, hstub.frame hplt hbrk fun x h₁ h₂ => harena x (by omega) h₂⟩
  | inSection _ _ => exact h
  | absolute _ => exact h
  | baseaddr => exact h
  | pltSlot _ => exact h

/-- Later changes outside the used part of the arena keep a linked field, also
when it is copied. -/
theorem FieldLinked.frame {loc' : Word} (h : FieldLinked env src pd m₀ loc₀ c loc)
    (hfield : ∀ d < fieldSize pd.relType,
      c'.mem (loc' + BitVec.ofNat 64 d) = c.mem (loc + BitVec.ofNat 64 d)) :
    FieldLinked env src pd m₀ loc₀ c' loc' := by
  obtain ⟨val, e, target, hval, he, hreach, hcheck, hword⟩ := h
  refine ⟨val, e, target, hval.frame hplt hbrk harena, he, hreach.frame hbrk harena, hcheck, ?_⟩
  rw [load_width_congr he hfield, hword]

end Frame

/-- The file may be read where its bytes are the same. -/
theorem FieldLinked.file {env : LinkEnv} {src : SymSource} {pd : RtldPatchData} {m₁ : Mem}
    {loc₁ : Word} {c : State} (h : FieldLinked env src pd m₀ loc₀ c loc)
    (hfile : ∀ d < fieldSize pd.relType,
      m₁ (loc₁ + BitVec.ofNat 64 d) = m₀ (loc₀ + BitVec.ofNat 64 d)) :
    FieldLinked env src pd m₁ loc₁ c loc := by
  obtain ⟨val, e, target, hval, he, hreach, hcheck, hword⟩ := h
  refine ⟨val, e, target, hval, he, hreach, hcheck, ?_⟩
  rw [hword, load_width_congr he hfile]

/-- The environment may be read where it says the same. -/
theorem FieldLinked.env {env env' : LinkEnv} {src : SymSource} {pd : RtldPatchData} {c : State}
    (h : FieldLinked env src pd m₀ loc₀ c loc) (hhost : env'.host = env.host)
    (hobjects : env'.objects = env.objects) (hplt : env'.plt = env.plt)
    (hskew : env'.skew = env.skew) (hlo : env'.lo ≤ env.lo)
    (hsec : ∀ idx value, src = .inSection idx value → env'.secAddr idx = env.secAddr idx) :
    FieldLinked env' src pd m₀ loc₀ c loc := by
  obtain ⟨val, e, target, hval, he, hreach, hwritten⟩ := h
  refine ⟨val, e, target, ?_, hhost ▸ he, ?_, hwritten⟩
  · cases src with
    | guest addr =>
        unfold SymSource.HasValue at hval ⊢
        rw [hobjects, hhost]
        exact hval.imp id fun ⟨herr, hle, hstub⟩ => ⟨herr, by omega, hstub⟩
    | inSection idx value =>
        have heq : val = env.secAddr idx + value := hval
        rw [heq, ← hsec idx value rfl]
        exact rfl
    | absolute _ => exact hval
    | baseaddr => exact hval.trans hskew.symm
    | pltSlot idx =>
        have heq : val = env.plt + BitVec.ofNat 64 (idx * pltFuncSize) := hval
        rw [heq, ← hplt]
        exact rfl
  · exact hreach.imp id fun ⟨hb, hfar, hle, hveneer⟩ => ⟨hb, hfar, by omega, hveneer⟩

theorem Encoding.Via.spec {syma pc target : Word} {c c' : State}
    (hok : c.arenaCode.Ok host.pageBits) (h : e.Via host syma pc c target c') :
    Grown host c c' ∧ FreshOnly c c' ∧ e.Reaches c.arenaCode.brk.toNat c' syma pc target := by
  cases h with
  | direct hnear => exact ⟨Grown.refl hok, fun _ _ => rfl, Or.inl ⟨rfl, hnear⟩⟩
  | veneer hb hfar hgrown hle _ hframe hveneer =>
      exact ⟨hgrown, hframe, Or.inr ⟨hb, hfar, hle, hveneer⟩⟩

/-- Relocating a field outside the unused part of the arena replaces the field
and may add a veneer. -/
theorem rtldRelocAt_ok {pd : RtldPatchData} {tgt sym : Word} {c c' : State}
    (hok : c.arenaCode.Ok host.pageBits) (hend : c.arenaCode.endp.toNat ≤ 2 ^ 47)
    (hout : ∀ x, InRange tgt (fieldSize pd.relType) x →
      c.arenaCode.brk.toNat ≤ x.toNat → c.arenaCode.endp.toNat ≤ x.toNat)
    (hrun : (rtldRelocAt host pd tgt sym).run c = (.ok (), c')) :
    Grown host c c' ∧
      (∀ x, ¬InRange tgt (fieldSize pd.relType) x →
        (c.arenaCode.brk.toNat ≤ x.toNat → c'.arenaCode.brk.toNat ≤ x.toNat) →
        c'.mem x = c.mem x) ∧
      ∃ e target, encoding host.arch pd.relType = some e ∧
        e.Reaches c.arenaCode.brk.toNat c' (sym + pd.addend) pd.patchAddr target ∧
        e.Written c.mem tgt c'.mem tgt target pd.patchAddr := by
  obtain ⟨e, target, c₁, he, hvia, hcheck, rfl⟩ :=
    rtldRelocAt_spec (fun _ => hok) (fun _ => hend) hrun
  obtain ⟨hgrown, hfresh, hreach⟩ := hvia.spec hok
  have hbrk := hgrown.ok.brk_le
  have hbrkp := hgrown.ok.brkp_le
  rw [hgrown.endp_eq] at hbrkp
  have hblend : ∀ x, ¬InRange tgt (fieldSize pd.relType) x →
      rtldBlend c₁.mem tgt e.mask (e.bits (e.value target pd.patchAddr)) x = c₁.mem x :=
    fun x hx => e.rtldBlend_of_not_inRange (by rwa [encoding_width he])
  refine ⟨hgrown.trans (Grown.of_mem hgrown.ok _), ?_, e, target, he, ?_, hcheck, ?_⟩
  · intro x hx hbrk
    exact (hblend x hx).trans (hfresh x hbrk)
  · refine Encoding.Reaches.frame (c := c₁) (Nat.le_refl _) ?_ hreach
    intro x hlo hhi
    refine hblend x fun hin => ?_
    have := hout x hin hlo
    omega
  · have hold : load e.width c₁.mem tgt = load e.width c.mem tgt := by
      refine load_width_congr he fun d hd => hfresh _ fun hlo => ?_
      have := hout _ (inRange_add hd (by have := fieldSize_eq pd.relType; omega)) hlo
      omega
    rw [← hold]
    exact e.load_rtldBlend c₁.mem tgt _

/-! ## Fields on x86-64 -/

/-- The types of x86-64 have neither branches nor parts of addresses. -/
theorem x86_encoding {relType : BitVec 32} (h : encoding .x86_64 relType = some e) :
    x86Supported relType ∧ e ≠ .branch26 ∧ (∀ m tgt target pc, e.Applies m tgt target pc) ∧
      ∀ target, e.part target = target := by
  have hmem := mem_encodings h
  simp only [encodings, List.mem_cons, Prod.mk.injEq, List.not_mem_nil, or_false] at hmem
  rcases hmem with ⟨rfl, rfl⟩ | ⟨rfl, rfl⟩ | ⟨rfl, rfl⟩ | ⟨rfl, rfl⟩ | ⟨rfl, rfl⟩ | ⟨rfl, rfl⟩ <;>
    exact ⟨by decide, by decide, fun _ _ _ _ => trivial, fun _ => rfl⟩

theorem fieldTarget_eq_decode {pd : RtldPatchData} (h : encoding .x86_64 pd.relType = some e)
    (m : Mem) (loc : Word) :
    fieldTarget m loc pd = e.decode m loc pd.patchAddr - pd.addend := by
  have hmem := mem_encodings h
  simp only [encodings, List.mem_cons, Prod.mk.injEq, List.not_mem_nil, or_false] at hmem
  rw [fieldTarget, fieldValue]
  rcases hmem with ⟨ht, rfl⟩ | ⟨ht, rfl⟩ | ⟨ht, rfl⟩ | ⟨ht, rfl⟩ | ⟨ht, rfl⟩ | ⟨ht, rfl⟩
  · rw [ht, if_pos (by decide), if_pos (by decide)]
    rfl
  · rw [ht, if_pos (by decide), if_neg (by decide)]
    rfl
  · rw [ht, if_neg (by decide), if_neg (by decide), if_pos (by decide)]
    rfl
  · rw [ht, if_neg (by decide), if_neg (by decide), if_pos (by decide)]
    rfl
  · rw [ht, if_neg (by decide), if_neg (by decide), if_neg (by decide)]
    rfl
  · rw [ht, if_neg (by decide), if_pos (by decide), if_neg (by decide), BitVec.add_zero]
    rfl

/-- On x86-64 a linked field denotes the value of its symbol. -/
theorem FieldLinked.fieldTarget_eq {env : LinkEnv} (harch : env.host.arch = .x86_64)
    {src : SymSource} {pd : RtldPatchData} {c : State} (h : FieldLinked env src pd m₀ loc₀ c loc) :
    x86Supported pd.relType ∧ src.HasValue env c pd (fieldTarget c.mem loc pd) := by
  obtain ⟨val, e, target, hval, he, hreach, hcheck, hword⟩ := h
  rw [harch] at he
  obtain ⟨hsupp, hne, happ, hpart⟩ := x86_encoding he
  obtain ⟨rfl, -⟩ := hreach.resolve_right fun hb => hne hb.1
  refine ⟨hsupp, ?_⟩
  rw [fieldTarget_eq_decode he, Encoding.decode_eq hword hcheck (happ _ _ _ _), hpart,
    BitVec.add_sub_cancel]
  exact hval

end PollyInstrew.Client
