import PollyInstrew.Server.Explore

/-!
# Pre-decoding two guests in lockstep

Instruction bytes are a prefix code and block offsets have a fixed length, so
two runs of `Predecode` that hash the same decode the same instructions, as long
as no block of one run goes on where the other's ends because nothing decodes.
-/

namespace PollyInstrew.Server

open PollyInstrew.ByteMemory

variable {nb : Bool} {s t f : Predecoder}

/-- Success, kind and size of an instruction depend only on its first `size`
bytes, and branch targets are relative to its address. -/
structure LocalDecoder (d : DecodeFunc) : Prop where
  size_le : ∀ addr buf, (d addr buf).result ≠ .failed →
    (d addr buf).size.toNat ≤ buf.length
  congr : ∀ addr addr' buf buf', (d addr buf).result ≠ .failed →
    buf'.take (d addr buf).size.toNat = buf.take (d addr buf).size.toNat →
    (d addr' buf').result = (d addr buf).result ∧ (d addr' buf').size = (d addr buf).size
  target : ∀ addr addr' buf buf',
    (d addr buf).result = .branch ∨ (d addr buf).result = .condBranch →
    buf'.take (d addr buf).size.toNat = buf.take (d addr buf).size.toNat →
    (d addr' buf').branchTarget - addr' = (d addr buf).branchTarget - addr

/-! ## Runs of the loops -/

section Runs

variable (cfg : PredecodeConfig) (g : Guest) (start : Word)

/-- Runs of the inner loop. -/
inductive BlockRun : Word → Bool → Predecoder → Predecoder → Prop
  | hit {a : Word} {nb : Bool} {s : Predecoder} {idx : ℕ} (hidx : s.addrMap a = some idx) :
      BlockRun a nb s (s.setNewBlock idx)
  | fail {a : Word} {nb : Bool} {s : Predecoder} (hnew : s.addrMap a = none)
      (hfail : ¬g.Decodes a) : BlockRun a nb s s
  | next {a : Word} {nb : Bool} {s t : Predecoder} (hnew : s.addrMap a = none)
      (hdec : g.Decodes a) (hcont : 0 < cfg.granularity ∧ g.IsNormal a)
      (hrest : BlockRun ((g.decode a).next a) false (s.addInst g start a nb) t) :
      BlockRun a nb s t
  | last {a : Word} {nb : Bool} {s : Predecoder} (hnew : s.addrMap a = none)
      (hdec : g.Decodes a) (hend : ¬(0 < cfg.granularity ∧ g.IsNormal a)) :
      BlockRun a nb s ((s.addInst g start a nb).enqueue (pushed cfg g a))

/-- Runs of the outer loop. -/
inductive QueueRun : Predecoder → Predecoder → Prop
  | done {s : Predecoder} (hq : s.addrQueue = []) : QueueRun s s
  | stop {s t : Predecoder} {a : Word} {rest : List Word} (hgran : cfg.granularity ≤ 1)
      (hq : s.addrQueue = a :: rest)
      (hblock : BlockRun cfg g start a true { s with addrQueue := rest } t) : QueueRun s t
  | step {s t f : Predecoder} {a : Word} {rest : List Word} (hgran : 2 ≤ cfg.granularity)
      (hq : s.addrQueue = a :: rest)
      (hblock : BlockRun cfg g start a true { s with addrQueue := rest } t)
      (hrest : QueueRun t f) : QueueRun s f

variable {cfg g start}

theorem blockRun_of_decodeBlock :
    ∀ (fuel : ℕ) {a : Word} {nb : Bool} {s t : Predecoder},
      decodeBlock cfg g start fuel a nb s = some t → BlockRun cfg g start a nb s t := by
  intro fuel
  induction fuel with
  | zero =>
      intro a nb s t hrun
      exact absurd hrun (by simp [decodeBlock])
  | succ fuel ih =>
      intro a nb s t hrun
      rw [decodeBlock_succ] at hrun
      cases hmap : s.addrMap a with
      | some idx =>
          rw [hmap] at hrun
          obtain rfl := Option.some.inj hrun
          exact .hit hmap
      | none =>
          rw [hmap] at hrun
          dsimp only at hrun
          split at hrun
          · next hfail =>
            obtain rfl := Option.some.inj hrun
            exact .fail hmap hfail
          · next hdec =>
            rw [not_not] at hdec
            split at hrun
            · next hcont => exact .next hmap hdec hcont (ih hrun)
            · next hend =>
              obtain rfl := Option.some.inj hrun
              exact .last hmap hdec hend

theorem queueRun_of_decodeQueue :
    ∀ (fuel : ℕ) {s f : Predecoder},
      decodeQueue cfg g start fuel s = some f → QueueRun cfg g start s f := by
  intro fuel
  induction fuel with
  | zero =>
      intro s f hrun
      exact absurd hrun (by simp [decodeQueue])
  | succ fuel ih =>
      intro s f hrun
      rw [decodeQueue] at hrun
      cases hq : s.addrQueue with
      | nil =>
          rw [hq] at hrun
          obtain rfl := Option.some.inj hrun
          exact .done hq
      | cons a rest =>
          rw [hq] at hrun
          obtain ⟨t, hblock, hrest⟩ := Option.bind_eq_some_iff.mp hrun
          split at hrest
          · next hgran =>
            obtain rfl := Option.some.inj hrest
            exact .stop hgran hq (blockRun_of_decodeBlock _ hblock)
          · next hgran =>
            exact .step (by omega) hq (blockRun_of_decodeBlock _ hblock) (ih hrest)

theorem BlockRun.exploreInv {a : Word} (hrun : BlockRun cfg g start a nb s t)
    (h : ExploreInv cfg g start s (some (a, nb))) :
    ExploreInv cfg g start t none := by
  induction hrun with
  | hit hidx => exact h.hit hidx
  | fail _ hfail => exact h.fail hfail
  | next hnew hdec hcont _ ih => exact ih (h.add_next hnew hdec hcont)
  | last hnew hdec hend =>
      have hadd := h.add hnew hdec
      rwa [nextPending, if_neg hend] at hadd

theorem sha_addInst (s : Predecoder) (a : Word) (nb : Bool) :
    (s.addInst g start a nb).sha =
      s.sha ++ (if nb then leBytes 8 (a - start).toNat else []) ++
        (g.readmem a).take (g.decode a).size.toNat := rfl

theorem sha_addInst_le (s : Predecoder) (a : Word) (nb : Bool) :
    s.sha <+: (s.addInst g start a nb).sha := by
  rw [sha_addInst, List.append_assoc]
  exact List.prefix_append _ _

theorem BlockRun.sha_le {a : Word} (hrun : BlockRun cfg g start a nb s t) : s.sha <+: t.sha := by
  induction hrun with
  | hit => exact List.prefix_refl _
  | fail => exact List.prefix_refl _
  | next _ _ _ _ ih => exact (sha_addInst_le _ _ _).trans ih
  | last => exact sha_addInst_le _ _ _

theorem QueueRun.sha_le (hrun : QueueRun cfg g start s f) :
    s.sha <+: f.sha := by
  induction hrun with
  | done => exact List.prefix_refl _
  | stop _ _ hblock => exact hblock.sha_le
  | step _ _ hblock _ ih => exact hblock.sha_le.trans ih

/-- An instruction that is new at the start of a block is hashed with its offset. -/
theorem BlockRun.sha_start {a : Word} (hrun : BlockRun cfg g start a true s t)
    (hnew : s.addrMap a = none) (hdec : g.Decodes a) :
    s.sha ++ leBytes 8 (a - start).toNat <+: t.sha := by
  have hadd : s.sha ++ leBytes 8 (a - start).toNat <+: (s.addInst g start a true).sha :=
    List.prefix_append _ _
  cases hrun with
  | hit hidx => exact absurd hidx (by simp [hnew])
  | fail _ hfail => exact absurd hdec hfail
  | next _ _ _ hrest => exact hadd.trans hrest.sha_le
  | last => exact hadd

/-- A block that hashes nothing lists nothing. -/
theorem BlockRun.addrs_of_sha {a : Word} (hrun : BlockRun cfg g start a nb s t)
    (hsha : t.sha = s.sha)
    (hbytes : nb = false → s.addrMap a = none → g.Decodes a →
      (g.readmem a).take (g.decode a).size.toNat ≠ []) :
    t.addrs = s.addrs := by
  have hquiet : s.addrMap a = none → g.Decodes a →
      ¬(s.addInst g start a nb).sha <+: s.sha := by
    intro hnew hdec hle
    have hlen := hle.length_le
    rw [sha_addInst, List.length_append, List.length_append] at hlen
    cases nb with
    | true =>
        rw [if_pos rfl, length_leBytes] at hlen
        omega
    | false =>
        have := List.length_pos_of_ne_nil (hbytes rfl hnew hdec)
        omega
  cases hrun with
  | hit => exact addrs_setNewBlock _ _
  | fail => rfl
  | next hnew hdec _ hrest => exact absurd (hsha ▸ hrest.sha_le) (hquiet hnew hdec)
  | last hnew hdec => exact absurd (hsha ▸ List.prefix_refl _) (hquiet hnew hdec)

/-- What a run of the outer loop hashes starts with the offset of an instruction. -/
theorem QueueRun.sha_cases (hrun : QueueRun cfg g start s f) :
    (f.sha = s.sha ∧ f.addrs = s.addrs) ∨
      ∃ b, g.Decodes b ∧ s.sha ++ leBytes 8 (b - start).toNat <+: f.sha := by
  have hblock : ∀ {a : Word} {rest : List Word} {s t : Predecoder},
      BlockRun cfg g start a true { s with addrQueue := rest } t →
      (t.sha = s.sha ∧ t.addrs = s.addrs) ∨
        (g.Decodes a ∧ s.sha ++ leBytes 8 (a - start).toNat <+: t.sha) := by
    intro a rest s t hrun
    by_cases hnew : s.addrMap a = none ∧ g.Decodes a
    · exact Or.inr ⟨hnew.2, hrun.sha_start hnew.1 hnew.2⟩
    · left
      cases hrun with
      | hit => exact ⟨rfl, addrs_setNewBlock _ _⟩
      | fail => exact ⟨rfl, rfl⟩
      | next hnone hdec => exact absurd ⟨hnone, hdec⟩ hnew
      | last hnone hdec => exact absurd ⟨hnone, hdec⟩ hnew
  induction hrun with
  | done => exact Or.inl ⟨rfl, rfl⟩
  | stop _ _ hrun =>
      exact (hblock hrun).imp_right fun ⟨hdec, hle⟩ => ⟨_, hdec, hle⟩
  | step _ _ hrun hrest ih =>
      rcases hblock hrun with ⟨hsha, haddrs⟩ | ⟨hdec, hle⟩
      · rw [← hsha, ← haddrs]
        exact ih
      · exact Or.inr ⟨_, hdec, hle.trans hrest.sha_le⟩

/-- A run that hashes nothing lists nothing. -/
theorem QueueRun.addrs_of_sha (hrun : QueueRun cfg g start s f) (hsha : f.sha = s.sha) :
    f.addrs = s.addrs := by
  rcases hrun.sha_cases with ⟨-, haddrs⟩ | ⟨b, -, hle⟩
  · exact haddrs
  · have hlen := hle.length_le
    rw [hsha, List.length_append, length_leBytes] at hlen
    omega

theorem word_eq_of_leBytes {x y : Word} (h : leBytes 8 x.toNat = leBytes 8 y.toNat) : x = y := by
  have hx := ofNat_leNat_leBytes (k := 8) x
  have hy := ofNat_leNat_leBytes (k := 8) y
  rw [h] at hx
  exact hx.symm.trans hy

/-- What is new at the head of the queue and decodes in one run decodes in every
run that goes on to hash the same. -/
theorem QueueRun.decodes_of_sha {cfg' : PredecodeConfig} {g' : Guest} {start' : Word}
    {s' f' : Predecoder} {a a' : Word} {rest : List Word} (hrun : QueueRun cfg g start s f)
    (hq : s.addrQueue = a :: rest) (hnew : s.addrMap a = none)
    (hrun' : QueueRun cfg' g' start' s' f') (hsha : s'.sha = s.sha) (hfinal : f'.sha = f.sha)
    (hoff : a' - start' = a - start) (hdec : g.Decodes a) : g'.Decodes a' := by
  have hle : s.sha ++ leBytes 8 (a - start).toNat <+: f.sha := by
    cases hrun with
    | done hnil => exact absurd (hq.symm.trans hnil) (by simp)
    | stop _ hq' hblock =>
        obtain ⟨rfl, -⟩ := List.cons.inj (hq.symm.trans hq')
        exact hblock.sha_start hnew hdec
    | step _ hq' hblock hrest =>
        obtain ⟨rfl, -⟩ := List.cons.inj (hq.symm.trans hq')
        exact (hblock.sha_start hnew hdec).trans hrest.sha_le
  rcases hrun'.sha_cases with ⟨hquiet, -⟩ | ⟨b, hb, hle'⟩
  · have hlen := hle.length_le
    rw [← hfinal, hquiet, hsha, List.length_append, length_leBytes] at hlen
    omega
  · rw [hsha, hfinal] at hle'
    have hpre := List.prefix_of_prefix_length_le hle hle' (by simp)
    have heq := hpre.eq_of_length (by simp)
    have hword := word_eq_of_leBytes (List.append_cancel_left heq)
    have hba : b = a' := by
      rw [← hoff] at hword
      exact (BitVec.sub_left_inj start').mp hword.symm
    rwa [← hba]

/-- The state of `Predecode` before the first block. -/
def Predecoder.init : Predecoder := ⟨[], fun _ => none, [], []⟩

theorem queueRun_of_predecode (hrun : predecode cfg g start = some f) :
    QueueRun cfg g start { Predecoder.init with addrQueue := [start] } f :=
  queueRun_of_decodeQueue _ hrun

/-- A run of `Predecode` is a block from the start address, then the queue. -/
theorem blockRun_of_predecode (hrun : predecode cfg g start = some f) :
    ∃ t, BlockRun cfg g start start true Predecoder.init t ∧ t.sha <+: f.sha ∧
      (cfg.granularity ≤ 1 ∧ f = t ∨ 2 ≤ cfg.granularity ∧ QueueRun cfg g start t f) := by
  cases queueRun_of_predecode hrun with
  | done hq => exact absurd hq (by simp)
  | stop hgran hq hblock =>
      obtain ⟨rfl, rfl⟩ := List.cons.inj hq
      exact ⟨_, hblock, List.prefix_refl _, Or.inl ⟨hgran, rfl⟩⟩
  | step hgran hq hblock hrest =>
      obtain ⟨rfl, rfl⟩ := List.cons.inj hq
      exact ⟨_, hblock, hrest.sha_le, Or.inr ⟨hgran, hrest⟩⟩

theorem addrs_of_not_decodes (hrun : predecode cfg g start = some f) (hfail : ¬g.Decodes start) :
    f.addrs = [] := by
  obtain ⟨t, hblock, -, hrest⟩ := blockRun_of_predecode hrun
  cases hblock with
  | hit hidx => exact absurd hidx (by simp [Predecoder.init])
  | next _ hdec => exact absurd hdec hfail
  | last _ hdec => exact absurd hdec hfail
  | fail =>
      rcases hrest with ⟨-, rfl⟩ | ⟨-, hqueue⟩
      · rfl
      · cases hqueue with
        | done => rfl
        | stop _ hq => exact absurd hq (by simp [Predecoder.init])
        | step _ hq => exact absurd hq (by simp [Predecoder.init])

theorem Guest.size_le_length (g : Guest) (hlocal : LocalDecoder g.decodeFn) {a : Word}
    (hdec : g.Decodes a) : (g.decode a).size.toNat ≤ (g.readmem a).length :=
  hlocal.size_le a (g.readmem a) hdec

/-- If some instruction is empty, all are. -/
theorem Guest.size_eq_zero (g : Guest) (hlocal : LocalDecoder g.decodeFn) {a : Word}
    (hdec : g.Decodes a) (hzero : (g.decode a).size.toNat = 0) (b : Word) :
    (g.decode b).size = 0#8 := by
  have htake : (g.readmem b).take (g.decode a).size.toNat =
      (g.readmem a).take (g.decode a).size.toNat := by
    rw [hzero, List.take_zero, List.take_zero]
  have hsize : (g.decode b).size = (g.decode a).size :=
    (hlocal.congr a b (g.readmem a) (g.readmem b) hdec htake).2
  rw [hsize]
  exact BitVec.eq_of_toNat_eq hzero

/-- The first instruction is hashed with offset zero. -/
theorem sha_first_le (hrun : predecode cfg g start = some f) (hdec : g.Decodes start) :
    (Predecoder.init.addInst g start start true).sha <+: f.sha := by
  obtain ⟨t, hblock, hle, hrest⟩ := blockRun_of_predecode hrun
  cases hblock with
  | hit hidx => exact absurd hidx (by simp [Predecoder.init])
  | fail _ hfail => exact absurd hdec hfail
  | next _ _ _ hnext => exact hnext.sha_le.trans hle
  | last => exact hle

/-- At granularity zero nothing else is. -/
theorem sha_of_granularity_zero (hgran : cfg.granularity ≤ 0)
    (hrun : predecode cfg g start = some f) (hdec : g.Decodes start) :
    f.sha = (Predecoder.init.addInst g start start true).sha := by
  obtain ⟨t, hblock, -, ⟨-, rfl⟩ | ⟨hgran', -⟩⟩ := blockRun_of_predecode hrun
  · cases hblock with
    | hit hidx => exact absurd hidx (by simp [Predecoder.init])
    | fail _ hfail => exact absurd hdec hfail
    | next _ _ hcont => omega
    | last => rfl
  · omega

/-- A run that hashes one instruction lists one instruction. -/
theorem addrs_of_single (hlocal : LocalDecoder g.decodeFn) (hrun : predecode cfg g start = some f)
    (hdec : g.Decodes start) (hsha : f.sha = (Predecoder.init.addInst g start start true).sha) :
    f.addrs = [start] := by
  obtain ⟨t, hblock, hle, hrest⟩ := blockRun_of_predecode hrun
  have hblockAddrs : t.sha = f.sha ∧ t.addrs = [start] := by
    cases hblock with
    | hit hidx => exact absurd hidx (by simp [Predecoder.init])
    | fail _ hfail => exact absurd hdec hfail
    | last => exact ⟨hsha.symm, rfl⟩
    | next _ _ _ hnext =>
        have hge := hnext.sha_le
        rw [← hsha] at hge
        have heq : t.sha = f.sha :=
          hle.eq_of_length (Nat.le_antisymm hle.length_le hge.length_le)
        refine ⟨heq, hnext.addrs_of_sha (heq.trans hsha) ?_⟩
        intro _ hnew hdec' hnil
        have hzero : (g.decode ((g.decode start).next start)).size.toNat = 0 := by
          rw [← List.length_take_of_le (g.size_le_length hlocal hdec')]
          exact List.length_eq_zero_iff.mpr hnil
        have hnext : (g.decode start).next start = start := by
          rw [DecodeResult.next, g.size_eq_zero hlocal hdec' hzero start]
          simp
        rw [hnext] at hnew
        exact absurd hnew (by simp [Predecoder.addInst])
  rcases hrest with ⟨-, rfl⟩ | ⟨-, hqueue⟩
  · exact hblockAddrs.2
  · rw [hqueue.addrs_of_sha hblockAddrs.1.symm, hblockAddrs.2]

end Runs

/-! ## Instructions of two guests -/

/-- The instruction at `a + d` of the second guest is the one at `a` of the first. -/
structure SameInst (d : Word) (g₁ g₂ : Guest) (a : Word) : Prop where
  result : (g₂.decode (a + d)).result = (g₁.decode a).result
  size : (g₂.decode (a + d)).size = (g₁.decode a).size
  bytes : (g₂.readmem (a + d)).take (g₂.decode (a + d)).size.toNat =
    (g₁.readmem a).take (g₁.decode a).size.toNat
  target : (g₁.decode a).result = .branch ∨ (g₁.decode a).result = .condBranch →
    (g₂.decode (a + d)).branchTarget = (g₁.decode a).branchTarget + d

section SameInst

variable {d : Word} {g₁ g₂ : Guest} {a : Word}

theorem add_neg_cancel_word (a d : Word) : a + d + -d = a := by
  rw [← BitVec.sub_eq_add_neg, BitVec.add_sub_cancel]

theorem SameInst.symm (h : SameInst d g₁ g₂ a) : SameInst (-d) g₂ g₁ (a + d) := by
  have hback := add_neg_cancel_word a d
  constructor
  · rw [hback, h.result]
  · rw [hback, h.size]
  · rw [hback, h.bytes]
  · rw [hback, h.result]
    intro hkind
    rw [h.target hkind, add_neg_cancel_word]

theorem SameInst.decodes_iff (h : SameInst d g₁ g₂ a) :
    g₂.Decodes (a + d) ↔ g₁.Decodes a := by
  rw [Guest.Decodes, Guest.Decodes, h.result]

theorem SameInst.isNormal_iff (h : SameInst d g₁ g₂ a) :
    g₂.IsNormal (a + d) ↔ g₁.IsNormal a := by
  rw [Guest.IsNormal, Guest.IsNormal, h.result]

theorem SameInst.next_eq (h : SameInst d g₁ g₂ a) :
    (g₂.decode (a + d)).next (a + d) = (g₁.decode a).next a + d := by
  rw [DecodeResult.next, DecodeResult.next, h.size, BitVec.add_assoc, BitVec.add_comm d,
    ← BitVec.add_assoc]

theorem SameInst.successors_eq (h : SameInst d g₁ g₂ a) (callret : Bool) :
    successors callret g₂ (a + d) = (successors callret g₁ a).map (· + d) := by
  unfold successors
  dsimp only
  rw [h.result]
  obtain ⟨kind, hres⟩ : ∃ kind, (g₁.decode a).result = kind := ⟨_, rfl⟩
  have htarget := h.target
  rw [hres] at htarget ⊢
  cases kind with
  | failed => rfl
  | normal => simp [h.next_eq]
  | branch => simp [htarget (Or.inl rfl)]
  | condBranch => simp [htarget (Or.inr rfl), h.next_eq]
  | call => cases callret <;> simp [h.next_eq]
  | unknownTgt => rfl

variable (hlocal : LocalDecoder g₁.decodeFn) (hfn : g₂.decodeFn = g₁.decodeFn)
include hlocal hfn

theorem sameInst_of_take (hdec : g₁.Decodes a)
    (htake : (g₂.readmem (a + d)).take (g₁.decode a).size.toNat =
      (g₁.readmem a).take (g₁.decode a).size.toNat) : SameInst d g₁ g₂ a := by
  have hdecode : g₂.decode (a + d) = g₁.decodeFn (a + d) (g₂.readmem (a + d)) := by
    rw [Guest.decode, hfn]
  obtain ⟨hresult, hsize⟩ := hlocal.congr a (a + d) _ _ hdec htake
  rw [← hdecode] at hresult hsize
  refine ⟨hresult, hsize, ?_, ?_⟩
  · rw [hsize]
    exact htake
  · intro hkind
    have htarget := hlocal.target a (a + d) _ _ hkind htake
    rw [← hdecode] at htarget
    change _ = (g₁.decode a).branchTarget - a at htarget
    grind

/-- Instruction bytes are a prefix code: two that start one byte string agree. -/
theorem sameInst_of_sha (hdec₁ : g₁.Decodes a) (hdec₂ : g₂.Decodes (a + d)) {X : List Byte}
    (h₁ : (g₁.readmem a).take (g₁.decode a).size.toNat <+: X)
    (h₂ : (g₂.readmem (a + d)).take (g₂.decode (a + d)).size.toNat <+: X) :
    SameInst d g₁ g₂ a := by
  have hlocal₂ : LocalDecoder g₂.decodeFn := hfn ▸ hlocal
  have hlen₁ := List.length_take_of_le (g₁.size_le_length hlocal hdec₁)
  have hlen₂ := List.length_take_of_le (g₂.size_le_length hlocal₂ hdec₂)
  rcases Nat.le_total (g₁.decode a).size.toNat (g₂.decode (a + d)).size.toNat with hle | hle
  · have heq := List.prefix_iff_eq_take.mp (List.prefix_of_prefix_length_le h₁ h₂ (by omega))
    rw [hlen₁, List.take_take, Nat.min_eq_left hle] at heq
    exact sameInst_of_take hlocal hfn hdec₁ heq.symm
  · have heq := List.prefix_iff_eq_take.mp (List.prefix_of_prefix_length_le h₂ h₁ (by omega))
    rw [hlen₂, List.take_take, Nat.min_eq_left hle] at heq
    have hsymm : SameInst (-d) g₂ g₁ (a + d) := by
      refine sameInst_of_take hlocal₂ hfn.symm hdec₂ ?_
      rw [add_neg_cancel_word]
      exact heq.symm
    have h := hsymm.symm
    rwa [add_neg_cancel_word, BitVec.neg_neg] at h

end SameInst

/-! ## Lockstep -/

/-- Two lists of the same instructions, apart from the block starts. -/
structure SameCode (d : Word) (g₁ g₂ : Guest) (s₁ s₂ : Predecoder) : Prop where
  addrs : s₂.addrs = s₁.addrs.map (· + d)
  insts : ∀ a ∈ s₁.addrs, SameInst d g₁ g₂ a

/-- Two runs that have decoded and hashed the same. -/
structure Lockstep (d : Word) (g₁ g₂ : Guest) (s₁ s₂ : Predecoder) : Prop
    extends SameCode d g₁ g₂ s₁ s₂ where
  queue : s₂.addrQueue = s₁.addrQueue.map (· + d)
  sha : s₂.sha = s₁.sha

/-- Normal instructions both runs reach are followed by an instruction in both
runs or in none. -/
def FallThrough (cfg₁ cfg₂ : PredecodeConfig) (g₁ g₂ : Guest) (start₁ start₂ : Word) : Prop :=
  ∀ off size, Reached cfg₁ g₁ start₁ (start₁ + off) → Reached cfg₂ g₂ start₂ (start₂ + off) →
    g₁.IsNormal (start₁ + off) → g₂.IsNormal (start₂ + off) →
    (g₁.decode (start₁ + off)).size = size → (g₂.decode (start₂ + off)).size = size →
    (g₁.Decodes (start₁ + off + size.setWidth 64) ↔
      g₂.Decodes (start₂ + off + size.setWidth 64))

section Lockstep

variable {cfg₁ cfg₂ : PredecodeConfig} {g₁ g₂ : Guest} {start d : Word}
  {s₁ s₂ : Predecoder}

theorem SameCode.addrMap_eq (h : SameCode d g₁ g₂ s₁ s₂) {p₁ p₂ : Option (Word × Bool)}
    (h₁ : ExploreInv cfg₁ g₁ start s₁ p₁) (h₂ : ExploreInv cfg₂ g₂ (start + d) s₂ p₂)
    (a : Word) : s₂.addrMap (a + d) = s₁.addrMap a := by
  apply Option.ext
  intro i
  rw [h₂.map_iff, h₁.map_iff, h.addrs, List.getElem?_map]
  cases s₁.addrs[i]? with
  | none => simp
  | some b => simp [BitVec.add_left_inj]

theorem Lockstep.setNewBlock (h : Lockstep d g₁ g₂ s₁ s₂) (i j : ℕ) :
    Lockstep d g₁ g₂ (s₁.setNewBlock i) (s₂.setNewBlock j) where
  addrs := by
    rw [addrs_setNewBlock, addrs_setNewBlock]
    exact h.addrs
  insts := by
    rw [addrs_setNewBlock]
    exact h.insts
  queue := h.queue
  sha := h.sha

theorem Lockstep.addInst (h : Lockstep d g₁ g₂ s₁ s₂) {a : Word} (hinst : SameInst d g₁ g₂ a)
    (nb : Bool) :
    Lockstep d g₁ g₂ (s₁.addInst g₁ start a nb) (s₂.addInst g₂ (start + d) (a + d) nb) where
  addrs := by simp [h.addrs]
  insts := by
    intro b hb
    rw [addrs_addInst, List.mem_append, List.mem_singleton] at hb
    rcases hb with hb | rfl
    · exact h.insts b hb
    · exact hinst
  queue := h.queue
  sha := by
    have hoff : a + d - (start + d) = a - start := by grind
    rw [sha_addInst, sha_addInst, hinst.bytes, h.sha, hoff]

theorem Lockstep.enqueue (h : Lockstep d g₁ g₂ s₁ s₂) (addrs : List Word) :
    Lockstep d g₁ g₂ (s₁.enqueue addrs) (s₂.enqueue (addrs.map (· + d))) where
  addrs := h.addrs
  insts := h.insts
  queue := by
    change s₂.addrQueue ++ _ = (s₁.addrQueue ++ _).map _
    rw [h.queue, List.map_append]
  sha := h.sha

theorem SameInst.pushed_eq {a : Word} (h : SameInst d g₁ g₂ a)
    (hgran₁ : 0 < cfg₁.granularity) (hgran₂ : 0 < cfg₂.granularity)
    (hcallret : cfg₂.callret = cfg₁.callret) :
    pushed cfg₂ g₂ (a + d) = (pushed cfg₁ g₁ a).map (· + d) := by
  unfold pushed
  simp only [Int.not_le.mpr hgran₁, Int.not_le.mpr hgran₂, false_or, h.isNormal_iff]
  split
  · rfl
  · rw [hcallret, h.successors_eq]

theorem Lockstep.init : Lockstep d g₁ g₂ Predecoder.init Predecoder.init :=
  ⟨⟨rfl, by simp [Predecoder.init, Predecoder.addrs]⟩, rfl, rfl⟩

/-- Instructions decoded in lockstep agree if what is hashed agrees. -/
theorem Lockstep.sameInst (hlocal : LocalDecoder g₁.decodeFn) (hfn : g₂.decodeFn = g₁.decodeFn)
    (h : Lockstep d g₁ g₂ s₁ s₂) {a : Word} (hdec₁ : g₁.Decodes a) (hdec₂ : g₂.Decodes (a + d))
    {X : List Byte} (hle₁ : (s₁.addInst g₁ start a nb).sha <+: X)
    (hle₂ : (s₂.addInst g₂ (start + d) (a + d) nb).sha <+: X) : SameInst d g₁ g₂ a := by
  have hoff : a + d - (start + d) = a - start := by grind
  rw [sha_addInst] at hle₁ hle₂
  rw [h.sha, hoff] at hle₂
  obtain ⟨w₁, hw₁⟩ := hle₁
  obtain ⟨w₂, hw₂⟩ := hle₂
  rw [List.append_assoc] at hw₁ hw₂
  have heq := List.append_cancel_left (hw₁.trans hw₂.symm)
  exact sameInst_of_sha hlocal hfn hdec₁ hdec₂ (List.prefix_append _ w₁)
    (heq ▸ List.prefix_append _ w₂)

variable (hlocal : LocalDecoder g₁.decodeFn) (hfn : g₂.decodeFn = g₁.decodeFn)
  (hcallret : cfg₂.callret = cfg₁.callret)
  (hgran₁ : 0 < cfg₁.granularity) (hgran₂ : 0 < cfg₂.granularity)
  (hfall : FallThrough cfg₁ cfg₂ g₁ g₂ start (start + d))
include hlocal hfn hcallret hgran₁ hgran₂ hfall

/-- A block is decoded in lockstep if its first instruction is. -/
theorem BlockRun.lockstep {X : List Byte} {a : Word} {t₁ : Predecoder}
    (hrun₁ : BlockRun cfg₁ g₁ start a nb s₁ t₁) :
    ∀ {s₂ t₂ : Predecoder}, Lockstep d g₁ g₂ s₁ s₂ →
      ExploreInv cfg₁ g₁ start s₁ (some (a, nb)) →
      ExploreInv cfg₂ g₂ (start + d) s₂ (some (a + d, nb)) →
      BlockRun cfg₂ g₂ (start + d) (a + d) nb s₂ t₂ →
      t₁.sha <+: X → t₂.sha <+: X → (g₁.Decodes a ↔ g₂.Decodes (a + d)) →
      Lockstep d g₁ g₂ t₁ t₂ := by
  induction hrun₁ with
  | @hit a nb s₁ idx hidx =>
      intro s₂ t₂ h h₁ h₂ hrun₂ hle₁ hle₂ hdec
      have hmap := h.addrMap_eq h₁ h₂ a
      cases hrun₂ with
      | hit => exact h.setNewBlock _ _
      | fail hnew => exact absurd (hmap.symm.trans hnew) (by simp [hidx])
      | next hnew => exact absurd (hmap.symm.trans hnew) (by simp [hidx])
      | last hnew => exact absurd (hmap.symm.trans hnew) (by simp [hidx])
  | @fail a nb s₁ hnew hfail =>
      intro s₂ t₂ h h₁ h₂ hrun₂ hle₁ hle₂ hdec
      have hmap := h.addrMap_eq h₁ h₂ a
      cases hrun₂ with
      | hit hidx => exact absurd (hmap.symm.trans hidx) (by simp [hnew])
      | fail => exact h
      | next _ hdec₂ => exact absurd (hdec.mpr hdec₂) hfail
      | last _ hdec₂ => exact absurd (hdec.mpr hdec₂) hfail
  | @next a nb s₁ t₁ hnew hdec₁ hcont hrest ih =>
      intro s₂ t₂ h h₁ h₂ hrun₂ hle₁ hle₂ hdec
      have hmap := h.addrMap_eq h₁ h₂ a
      cases hrun₂ with
      | hit hidx => exact absurd (hmap.symm.trans hidx) (by simp [hnew])
      | fail _ hfail => exact absurd (hdec.mp hdec₁) hfail
      | next hnew₂ hdec₂ hcont₂ hrest₂ =>
          have hinst := h.sameInst hlocal hfn hdec₁ hdec₂ (hrest.sha_le.trans hle₁)
            (hrest₂.sha_le.trans hle₂)
          have hnext := hinst.next_eq
          have hinv₂ := h₂.add_next hnew₂ hdec₂ hcont₂
          rw [hnext] at hrest₂ hinv₂
          refine ih (h.addInst hinst nb) (h₁.add_next hnew hdec₁ hcont) hinv₂ hrest₂ hle₁ hle₂ ?_
          have hoff₁ : start + (a - start) = a := by grind
          have hoff₂ : start + d + (a - start) = a + d := by grind
          have hiff := hfall (a - start) (g₁.decode a).size
          rw [hoff₁, hoff₂] at hiff
          rw [← hnext, DecodeResult.next, DecodeResult.next, hinst.size]
          exact hiff h₁.pending_reached h₂.pending_reached hcont.2 hcont₂.2 rfl hinst.size
      | last _ hdec₂ hend =>
          have hinst := h.sameInst hlocal hfn hdec₁ hdec₂ (hrest.sha_le.trans hle₁) hle₂
          exact absurd ⟨hgran₂, hinst.isNormal_iff.mpr hcont.2⟩ hend
  | @last a nb s₁ hnew hdec₁ hend =>
      intro s₂ t₂ h h₁ h₂ hrun₂ hle₁ hle₂ hdec
      have hmap := h.addrMap_eq h₁ h₂ a
      cases hrun₂ with
      | hit hidx => exact absurd (hmap.symm.trans hidx) (by simp [hnew])
      | fail _ hfail => exact absurd (hdec.mp hdec₁) hfail
      | next _ hdec₂ hcont₂ hrest₂ =>
          have hinst := h.sameInst hlocal hfn hdec₁ hdec₂ hle₁ (hrest₂.sha_le.trans hle₂)
          exact absurd ⟨hgran₁, hinst.isNormal_iff.mp hcont₂.2⟩ hend
      | last _ hdec₂ =>
          have hinst := h.sameInst hlocal hfn hdec₁ hdec₂ hle₁ hle₂
          rw [hinst.pushed_eq hgran₁ hgran₂ hcallret]
          exact (h.addInst hinst nb).enqueue _

/-- The queue is worked off in lockstep. -/
theorem QueueRun.lockstep (hall₁ : 2 ≤ cfg₁.granularity) (hall₂ : 2 ≤ cfg₂.granularity)
    {f₁ : Predecoder} (hrun₁ : QueueRun cfg₁ g₁ start s₁ f₁) :
    ∀ {s₂ f₂ : Predecoder}, Lockstep d g₁ g₂ s₁ s₂ →
      ExploreInv cfg₁ g₁ start s₁ none → ExploreInv cfg₂ g₂ (start + d) s₂ none →
      QueueRun cfg₂ g₂ (start + d) s₂ f₂ → f₁.sha = f₂.sha → Lockstep d g₁ g₂ f₁ f₂ := by
  induction hrun₁ with
  | @done s₁ hq =>
      intro s₂ f₂ h h₁ h₂ hrun₂ hsha
      have hq₂ := h.queue
      rw [hq, List.map_nil] at hq₂
      cases hrun₂ with
      | done => exact h
      | stop _ hq' => exact absurd (hq₂.symm.trans hq') (by simp)
      | step _ hq' => exact absurd (hq₂.symm.trans hq') (by simp)
  | stop hgran => omega
  | @step s₁ t₁ f₁ a rest _ hq hblock hrest ih =>
      intro s₂ f₂ h h₁ h₂ hrun₂ hsha
      have hq₂ := h.queue
      rw [hq, List.map_cons] at hq₂
      have hstep₁ : QueueRun cfg₁ g₁ start s₁ f₁ := .step hall₁ hq hblock hrest
      have hrun₂' := hrun₂
      cases hrun₂ with
      | done hq' => exact absurd (hq₂.symm.trans hq') (by simp)
      | stop hgran => omega
      | @step _ t₂ _ b rest₂ _ hq' hblock₂ hrest₂ =>
          rw [hq', List.cons.injEq] at hq₂
          obtain ⟨rfl, rfl⟩ := hq₂
          have hpop₁ := h₁.pop hall₁ hq
          have hpop₂ := h₂.pop hall₂ hq'
          have hpop : Lockstep d g₁ g₂ { s₁ with addrQueue := rest }
              { s₂ with
                addrQueue := rest.map (· + d) } := ⟨⟨h.addrs, h.insts⟩, rfl, h.sha⟩
          have hdec : g₁.Decodes a ↔ g₂.Decodes (a + d) := by
            have hmap := h.addrMap_eq h₁ h₂ a
            have hoff : a + d - (start + d) = a - start := by grind
            cases hnew : s₁.addrMap a with
            | some idx =>
                have hmem := List.mem_of_getElem? ((h₁.map_iff a idx).mp hnew)
                exact (h.insts a hmem).decodes_iff.symm
            | none =>
                rw [hnew] at hmap
                constructor
                · exact hstep₁.decodes_of_sha hq hnew hrun₂' h.sha hsha.symm hoff
                · exact hrun₂'.decodes_of_sha hq' hmap hstep₁ h.sha.symm hsha hoff.symm
          have ht := hblock.lockstep hlocal hfn hcallret hgran₁ hgran₂ hfall hpop hpop₁ hpop₂
            hblock₂ hrest.sha_le (hsha ▸ hrest₂.sha_le) hdec
          exact ih ht (hblock.exploreInv hpop₁) (hblock₂.exploreInv hpop₂) hrest₂ hsha

theorem sameCode_of_granularity_pos {f₁ f₂ : Predecoder}
    (hrun₁ : predecode cfg₁ g₁ start = some f₁)
    (hrun₂ : predecode cfg₂ g₂ (start + d) = some f₂) (hsha : f₂.sha = f₁.sha)
    (hdec : g₁.Decodes start ↔ g₂.Decodes (start + d)) : SameCode d g₁ g₂ f₁ f₂ := by
  obtain ⟨t₁, hblock₁, hle₁, hrest₁⟩ := blockRun_of_predecode hrun₁
  obtain ⟨t₂, hblock₂, hle₂, hrest₂⟩ := blockRun_of_predecode hrun₂
  rw [hsha] at hle₂
  have ht := hblock₁.lockstep hlocal hfn hcallret hgran₁ hgran₂ hfall Lockstep.init
    ExploreInv.init ExploreInv.init hblock₂ hle₁ hle₂ hdec
  have h₁ := hblock₁.exploreInv ExploreInv.init
  have h₂ := hblock₂.exploreInv ExploreInv.init
  rcases hrest₁ with ⟨-, rfl⟩ | ⟨hall₁, hqueue₁⟩
  · rcases hrest₂ with ⟨-, rfl⟩ | ⟨-, hqueue₂⟩
    · exact ht.toSameCode
    · have haddrs := hqueue₂.addrs_of_sha (hsha.trans ht.sha.symm)
      exact ⟨haddrs.trans ht.addrs, ht.insts⟩
  · rcases hrest₂ with ⟨-, rfl⟩ | ⟨hall₂, hqueue₂⟩
    · have haddrs := hqueue₁.addrs_of_sha (hsha.symm.trans ht.sha)
      exact ⟨by rw [haddrs, ht.addrs], by rw [haddrs]; exact ht.insts⟩
    · exact (hqueue₁.lockstep hlocal hfn hcallret hgran₁ hgran₂ hfall hall₁ hall₂ ht h₁ h₂
        hqueue₂ hsha.symm).toSameCode

omit hgran₁ hgran₂ hfall in
/-- Equal hashes: both runs list the same instructions, apart from block starts. -/
theorem sameCode_of_sha {f₁ f₂ : Predecoder} (hrun₁ : predecode cfg₁ g₁ start = some f₁)
    (hrun₂ : predecode cfg₂ g₂ (start + d) = some f₂) (hsha : f₂.sha = f₁.sha)
    (hfall : 0 < cfg₁.granularity → 0 < cfg₂.granularity →
      FallThrough cfg₁ cfg₂ g₁ g₂ start (start + d)) :
    SameCode d g₁ g₂ f₁ f₂ ∧
      (cfg₁.granularity ≤ 0 ∨ cfg₂.granularity ≤ 0 → f₁.addrs.length ≤ 1) := by
  have hqueue₁ := queueRun_of_predecode hrun₁
  have hqueue₂ := queueRun_of_predecode hrun₂
  have hdec : g₁.Decodes start ↔ g₂.Decodes (start + d) := by
    constructor
    · exact hqueue₁.decodes_of_sha rfl rfl hqueue₂ rfl hsha (by simp)
    · exact hqueue₂.decodes_of_sha rfl rfl hqueue₁ rfl hsha.symm (by simp)
  by_cases hdec₁ : g₁.Decodes start
  swap
  · have hnil₁ := addrs_of_not_decodes hrun₁ hdec₁
    have hnil₂ := addrs_of_not_decodes hrun₂ (mt hdec.mpr hdec₁)
    refine ⟨⟨?_, ?_⟩, ?_⟩
    · rw [hnil₁, hnil₂, List.map_nil]
    · simp [hnil₁]
    · simp [hnil₁]
  have hdec₂ := hdec.mp hdec₁
  have hinst : SameInst d g₁ g₂ start := Lockstep.init.sameInst hlocal hfn hdec₁ hdec₂
    (sha_first_le hrun₁ hdec₁) (hsha ▸ sha_first_le hrun₂ hdec₂)
  have hfirst : (Predecoder.init.addInst g₂ (start + d) (start + d) true).sha =
      (Predecoder.init.addInst g₁ start start true).sha :=
    (Lockstep.init.addInst hinst true).sha
  by_cases hzero : cfg₁.granularity ≤ 0 ∨ cfg₂.granularity ≤ 0
  · have hsingle : f₁.sha = (Predecoder.init.addInst g₁ start start true).sha := by
      rcases hzero with hgran | hgran
      · exact sha_of_granularity_zero hgran hrun₁ hdec₁
      · rw [← hfirst, ← hsha]
        exact sha_of_granularity_zero hgran hrun₂ hdec₂
    have haddrs₁ := addrs_of_single hlocal hrun₁ hdec₁ hsingle
    have haddrs₂ := addrs_of_single (hfn ▸ hlocal) hrun₂ hdec₂
      (hsha.trans (hsingle.trans hfirst.symm))
    refine ⟨⟨?_, ?_⟩, ?_⟩
    · rw [haddrs₁, haddrs₂, List.map_singleton]
    · rw [haddrs₁]
      simpa using hinst
    · simp [haddrs₁]
  · rw [not_or, Int.not_le, Int.not_le] at hzero
    refine ⟨?_, by omega⟩
    exact sameCode_of_granularity_pos hlocal hfn hcallret hzero.1 hzero.2
      (hfall hzero.1 hzero.2) hrun₁ hrun₂ hsha hdec

end Lockstep

end PollyInstrew.Server
