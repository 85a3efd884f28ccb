import PollyInstrew.Client.Accesses
import PollyInstrew.Client.Decode
import PollyInstrew.Client.QuickTlb
import PollyInstrew.Client.StubExec

/-!
# Where `rtld_add_object` reads and writes

Which bytes an access reads and writes, where it should, and what the offsets in
the object have to satisfy for it.  A byte of memory no access writes keeps its
value.
-/

namespace PollyInstrew.Client

open PollyInstrew.ByteMemory PollyInstrew.StateExcept

/-- The handle `rtld_elf_init` sets up for an object it accepts. -/
def objElf (m : Mem) (objBase objSize skew : Word) : RtldElf :=
  ⟨objBase, objSize, skew, objBase + load 64 m (objBase + 40)⟩

/-- The accesses of `rtld_add_object`. -/
def accesses (host : Host) (c : State) (objBase objSize skew : Word) : List Access :=
  ((rtldAddObjectT host objBase objSize skew).run (c, [])).2.2

/-- Size of a veneer. -/
def veneerSize : ℕ := 20

namespace Access

/-- The access reads the byte at `x` of the object. -/
def Reads (re : RtldElf) (x : Word) : Access → Prop
  | ehdr => InRange re.base 64 x
  | shdr i => InRange (shdrAddr re i) shdrSize x
  | rela shOffset k => InRange (re.base + shOffset + BitVec.ofNat 64 (relaSize * k)) relaSize x
  | sym shOffset k => InRange (re.base + shOffset + BitVec.ofNat 64 (symSize * k)) symSize x
  | name shOffset stName n => InRange (re.base + shOffset + BitVec.ofNat 64 stName) n x
  | relocate shOffset _ rOffset width => InRange (re.base + shOffset + rOffset) width x
  | copy s _ _ => InRange (re.base + s.shOffset) s.shSize.toNat x
  | place _ => False
  | stub _ _ _ => False
  | veneer _ _ => False

/-- The access writes the byte at `x`. -/
def Writes (re : RtldElf) (x : Word) : Access → Prop
  | place i => InRange (shdrAddr re i + 16) 8 x
  | relocate shOffset _ rOffset width => InRange (re.base + shOffset + rOffset) width x
  | copy s _ _ => InRange s.shAddr s.shSize.toNat x
  | stub addr _ bytes => InRange addr bytes.length x
  | veneer addr bytes => InRange addr bytes.length x
  | ehdr => False
  | shdr _ => False
  | rela _ _ => False
  | sym _ _ => False
  | name _ _ _ => False

/-- Where the access may write: the address in a header, the target section in the
receive buffer, the allocated range, the allocated block. -/
def MayWrite (re : RtldElf) (x : Word) : Access → Prop
  | place i => InRange (shdrAddr re i + 16) 8 x
  | relocate shOffset shSize _ _ => InRange (re.base + shOffset) shSize.toNat x
  | copy _ base totsz => InRange base totsz.toNat x
  | stub addr _ _ => InRange addr stubSize x
  | veneer addr _ => InRange addr veneerSize x
  | ehdr => False
  | shdr _ => False
  | rela _ _ => False
  | sym _ _ => False
  | name _ _ _ => False

/-- The offset of the read, as it is computed in 64 bits, and its length stay below
the size of the object. -/
def ReadFits (eShoff objSize : Word) : Access → Prop
  | shdr i => (eShoff + BitVec.ofNat 64 (shdrSize * i)).toNat + shdrSize ≤ objSize.toNat
  | rela shOffset k =>
      (shOffset + BitVec.ofNat 64 (relaSize * k)).toNat + relaSize ≤ objSize.toNat
  | sym shOffset k =>
      (shOffset + BitVec.ofNat 64 (symSize * k)).toNat + symSize ≤ objSize.toNat
  | name shOffset stName n => (shOffset + BitVec.ofNat 64 stName).toNat + n ≤ objSize.toNat
  | relocate shOffset _ rOffset width => (shOffset + rOffset).toNat + width ≤ objSize.toNat
  | copy s _ _ => s.shSize = 0#64 ∨ s.shOffset.toNat + s.shSize.toNat ≤ objSize.toNat
  | ehdr => True
  | place _ => True
  | stub _ _ _ => True
  | veneer _ _ => True

/-- The field ends in its section, the section is empty or placed in the allocated
range. -/
def WriteFits : Access → Prop
  | relocate _ shSize rOffset width => rOffset.toNat + width ≤ shSize.toNat
  | copy s base totsz =>
      s.shSize = 0#64 ∨ (s.shAddr - base).toNat + s.shSize.toNat ≤ totsz.toNat
  | _ => True

/-- What the linker ensures of its accesses. -/
def Checked (objSize : Word) : Access → Prop
  | ehdr => 64 ≤ objSize.toNat
  | name _ _ n => 0 < n
  | relocate _ shSize rOffset width => rOffset.toNat < shSize.toNat ∧ 0 < width
  | stub _ _ bytes => bytes.length = stubSize
  | veneer _ bytes => bytes.length = veneerSize
  | _ => True

end Access

/-! ## Characters -/

theorem le_startsExtent (name : CStr) :
    ∀ (bs : List Byte) (k : ℕ), k ≤ startsExtent name bs k := by
  intro bs
  induction bs with
  | nil => exact fun k => Nat.le_refl k
  | cons b bs ih =>
      intro k
      rw [startsExtent]
      split
      · exact Nat.le_of_succ_le (ih (k + 1))
      · exact Nat.le_succ k

theorem le_digitsExtent (name : CStr) : ∀ fuel k : ℕ, k ≤ digitsExtent name fuel k := by
  intro fuel
  induction fuel with
  | zero => exact fun k => Nat.le_refl k
  | succ fuel ih =>
      intro k
      rw [digitsExtent]
      split
      · exact Nat.le_succ k
      · exact Nat.le_of_succ_le (ih (k + 1))

theorem decodeExtent_pos (name : CStr) : 0 < decodeExtent name := by
  unfold decodeExtent
  split
  · exact Nat.one_pos
  · exact le_digitsExtent name _ 1

theorem undefExtent_pos (arch : Arch) (skew : Word) (name : CStr) :
    0 < undefExtent arch skew name := by
  have hstart : 0 < startsExtent name (literal "glob_") 0 := by
    have hlit : literal "glob_" = 0x67#8 :: [0x6c#8, 0x6f#8, 0x62#8, 0x5f#8] := by decide
    rw [hlit, startsExtent]
    split
    · exact le_startsExtent name _ 1
    · exact Nat.one_pos
  exact lt_of_lt_of_le hstart (Nat.le_max_left _ _)

theorem registerExtent_pos (skew : Word) (name : CStr) : 0 < registerExtent skew name :=
  lt_of_lt_of_le (decodeExtent_pos name) (Nat.le_max_left _ _)

theorem blendWidth_pos (mask : Word) : 0 < blendWidth mask := by
  unfold blendWidth
  split_ifs <;> decide

/-! ## Relations along the history -/

/-- A stub is created. -/
def Access.isStub : Access → Bool
  | .stub _ _ _ => true
  | _ => false

/-- A relation between the accesses and the states before and after that holds for
every step of the linker but the creation of stubs. -/
structure Traced (re : RtldElf) (objSize : Word) (R : List Access → State → State → Prop) : Prop
    extends Prog.Log R where
  quiet : ∀ {c c'}, c'.mem = c.mem → R [] c c'
  event : ∀ {acc}, acc.Checked objSize → acc.isStub = false → ∀ c, R [acc] c c
  write : ∀ {acc f}, acc.Checked objSize → acc.isStub = false →
    (∀ m x, ¬acc.Writes re x → f m x = m x) → ∀ c, R [acc] c ((setMem f).run c).2

/-- Writing a stub keeps the relation. -/
def TracesStubs (R : List Access → State → State → Prop) : Prop :=
  ∀ addr pd bytes c, bytes.length = stubSize →
    R [.stub addr pd bytes] c ((memWriteCode addr bytes).run c).2

theorem rtldBlend_of_not_inRange {m : Mem} {tgt mask data x : Word}
    (hx : ¬InRange tgt (blendWidth mask) x) : rtldBlend m tgt mask data x = m x := by
  unfold blendWidth at hx
  unfold rtldBlend
  split_ifs at hx ⊢ <;> exact store_of_not_inRange hx

/-- Only branches create veneers. -/
theorem aarch64RelocData_mem {host : Host} {relType : BitVec 32} {syma pc : Word}
    (h : ¬(relType = R_AARCH64_JUMP26 ∨ relType = R_AARCH64_CALL26)) (c : State) :
    ((aarch64RelocData host relType syma pc).run c).2.mem = c.mem := by
  rw [aarch64RelocData_eq]
  cases henc : encoding .aarch64 relType with
  | none => rfl
  | some e =>
      have hbranch : e ≠ .branch26 := by
        rintro rfl
        have hmem := mem_encodings henc
        simp only [encodings, List.mem_cons, Prod.mk.injEq, List.not_mem_nil, or_false,
          reduceCtorEq, and_false, and_true, false_or] at hmem
        exact h hmem
      dsimp only
      rw [Encoding.target, if_neg hbranch]
      rfl

namespace Traced

variable {re : RtldElf} {objSize : Word} {R : List Access → State → State → Prop}
  (h : Traced re objSize R)
include h

theorem getMem : Prog.Logs R (Prog.silent Client.getMem) :=
  Prog.Log.silent fun _ => h.quiet rfl

theorem get : Prog.Logs R (Prog.silent Prog.get : TraceM State) :=
  Prog.Log.silent fun _ => h.quiet rfl

theorem alloc (host : Host) (size alignment : Word) :
    Prog.Logs R (Prog.silent (memAllocCode host size alignment)) :=
  Prog.Log.silent fun _ => h.quiet rfl

theorem emit {acc : Access} (hacc : acc.Checked objSize) (hstub : acc.isStub = false) :
    Prog.Logs R (Prog.emit acc : TraceM Unit) :=
  Prog.Log.emit (h.event hacc hstub)

theorem traceStr (m : Mem) (strtabIdx strIdx : ℕ) {extent : CStr → ℕ}
    (hextent : ∀ name, 0 < extent name) :
    Prog.Logs R (traceStr re m strtabIdx strIdx extent) := by
  unfold Client.traceStr
  split
  · exact h.pure ()
  · refine h.bind (h.emit trivial rfl) fun _ => ?_
    split
    · exact h.emit (hextent _) rfl
    · exact h.pure ()

theorem traceShdr (m : Mem) (i : ℕ) : Prog.Logs R (traceShdr re m i) :=
  Prog.Keeps.ite (h.pure ()) (h.emit trivial rfl)

theorem rtldElfAddStub (host : Host) (sym : Word) :
    Prog.Logs R (rtldElfAddStubT host sym) := by
  refine h.bind (h.alloc host _ _) fun stub => Prog.Keeps.ite (h.fail _) ?_
  refine h.announce_bind (h.write (length_veneerCode sym) rfl fun m x hx => ?_) fun _ => h.pure _
  exact writeBytes_of_not_inRange hx

theorem aarch64RelocData (host : Host) (relType : BitVec 32) (syma pc : Word) :
    Prog.Logs R (aarch64RelocDataT host relType syma pc) := by
  unfold aarch64RelocDataT
  split
  · refine h.bind ?_ fun _ => h.bind (h.lift _) fun _ => h.pure _
    refine Prog.Keeps.ite (h.pure _) ?_
    exact h.bind (h.rtldElfAddStub host syma) fun _ => h.pure _
  · rename_i hbranch
    exact Prog.Log.silent fun c => h.quiet (aarch64RelocData_mem hbranch c)

theorem rtldRelocData (host : Host) (pd : RtldPatchData) (sym : Word) :
    Prog.Logs R (rtldRelocDataT host pd sym) := by
  unfold rtldRelocDataT
  split
  · rename_i harch
    refine Prog.Log.silent fun c => h.quiet ?_
    rw [Client.rtldRelocData, harch]
    rfl
  · exact h.aarch64RelocData host _ _ _

theorem rtldRelocAt (host : Host) (pd : RtldPatchData) (shOffset sym : Word)
    {shSize rOffset : Word} (hlt : rOffset.toNat < shSize.toNat) :
    Prog.Logs R (rtldRelocAtT host re pd shOffset shSize rOffset sym) := by
  refine h.bind (h.rtldRelocData host pd sym) fun blend => ?_
  refine Prog.Log.announce (h.write ⟨hlt, blendWidth_pos _⟩ rfl fun m x hx => ?_)
  exact rtldBlend_of_not_inRange hx

theorem rtldPatchCreateStub (hstub : TracesStubs R) (host : Host) (pd : RtldPatchData) :
    Prog.Logs R (rtldPatchCreateStubT host pd) := by
  refine h.bind (h.alloc host _ _) fun stub => Prog.Keeps.ite (h.fail _) ?_
  refine h.bind h.get fun c => h.lift_bind fun code hcode => ?_
  have hlength : (code ++ pd.bytes).length = stubSize := by
    rw [List.length_append, length_stubCode hcode, pd.length_bytes]
    rfl
  exact h.announce_bind (fun c => hstub stub pd _ c hlength) fun _ => h.pure _

theorem resolveGuestAddr (hstub : TracesStubs R) (host : Host) (pd : RtldPatchData) (addr : Word) :
    Prog.Logs R (resolveGuestAddrT host pd addr) := by
  refine h.bind h.get fun c => ?_
  split
  · exact h.pure _
  · exact h.rtldPatchCreateStub hstub host _

theorem resolveUndefined (hstub : TracesStubs R) (host : Host) (name : CStr) (pd : RtldPatchData) :
    Prog.Logs R (resolveUndefinedT host re name pd) := by
  refine Prog.Keeps.ite (h.fail _) (Prog.Keeps.ite (h.pure _) ?_)
  split
  · exact h.resolveGuestAddr hstub host _ _
  · refine h.bind h.get fun c => ?_
    split
    · exact h.pure _
    · exact h.fail _

theorem rtldElfResolveSym (hstub : TracesStubs R) (host : Host) (symtabIdx symIdx : ℕ)
    (pd : RtldPatchData) :
    Prog.Logs R (rtldElfResolveSymT host re symtabIdx symIdx pd) := by
  refine h.bind h.getMem fun m => ?_
  refine h.bind (h.traceShdr m _) fun _ => Prog.Keeps.ite ?_ (h.fail _)
  refine h.bind (h.emit trivial rfl) fun _ => Prog.Keeps.ite ?_ (Prog.Keeps.ite (h.pure _) ?_)
  · refine h.bind (h.traceStr m _ _ (undefExtent_pos _ _)) fun _ => ?_
    exact h.resolveUndefined hstub host _ pd
  · refine Prog.Keeps.ite ?_ (h.fail _)
    exact h.bind (h.emit trivial rfl) fun _ => h.pure _

omit h in
theorem orEinval {α : Type} {x : TraceM α} (hx : Prog.Logs R x) :
    Prog.Logs R (orEinvalT x) := by
  intro s
  have hs := hx s
  unfold orEinvalT
  cases hrun : x.run s with
  | mk r s' =>
      rw [hrun] at hs
      cases r with
      | ok a => simpa [hrun] using hs
      | error e => simpa [hrun] using hs

theorem processRelaEntry (hstub : TracesStubs R) (host : Host) (relOff : Word)
    (tgtIdx symtabIdx : ℕ) (tgtOff : Word) (k : ℕ) :
    Prog.Logs R
      (processRelaEntryT host re relOff tgtIdx symtabIdx tgtOff k) := by
  refine h.bind h.getMem fun m => h.bind (h.emit trivial rfl) fun _ => ?_
  refine h.bind (h.emit trivial rfl) fun _ => ?_
  dsimp only
  split
  · exact h.fail _
  · rename_i hoff
    have hlt := BitVec.lt_def.mp (BitVec.not_le.mp hoff)
    refine h.bind (orEinval (h.rtldElfResolveSym hstub host _ _ _)) fun sym => ?_
    exact h.rtldRelocAt host _ _ _ hlt

theorem rtldElfProcessRela (hstub : TracesStubs R) (host : Host) (relaIdx : ℕ) :
    Prog.Logs R (rtldElfProcessRelaT host re relaIdx) := by
  refine h.bind h.getMem fun m => h.bind (h.traceShdr m _) fun _ => ?_
  refine Prog.Keeps.ite (h.fail _) (Prog.Keeps.ite (h.fail _) ?_)
  refine Prog.Keeps.ite (h.fail _) (Prog.Keeps.ite (h.fail _) ?_)
  refine h.bind (h.emit trivial rfl) fun _ => Prog.Keeps.ite (h.fail _) ?_
  exact h.loopFrom (h.processRelaEntry hstub host _ _ _ _) _ _

theorem setShAddr (i : ℕ) (v : Word) (c : State) :
    R [.place i] c ((setShAddr re i v).run c).2 := by
  have hstore : ∀ m x, ¬Access.Writes re x (.place i) →
      store 64 m (shdrAddr re i + 16) v x = m x :=
    fun _ _ hx => store_of_not_inRange hx
  have hchecked : Access.Checked objSize (.place i) := trivial
  exact h.write hchecked rfl hstore c

theorem layoutPass :
    ∀ fuel i totsz totalign,
      Prog.Logs R (layoutPassT re fuel i totsz totalign) := by
  intro fuel
  induction fuel with
  | zero => exact fun i totsz totalign => h.pure _
  | succ fuel ih =>
      intro i totsz totalign
      refine h.bind h.getMem fun m => Prog.Keeps.ite ?_ (h.pure _)
      refine h.bind (h.emit trivial rfl) fun _ => Prog.Keeps.ite (h.fail _) ?_
      refine Prog.Keeps.ite ?_ (ih _ _ _)
      refine h.announce_bind (h.setShAddr i _) fun _ => ?_
      exact h.bind h.getMem fun m => ih _ _ _

theorem rebasePass (base : Word) : Prog.Logs R (rebasePassT re base) := by
  refine h.whileFrom (fun i => ?_) _ _
  refine h.bind h.getMem fun m => h.bind (h.emit trivial rfl) fun _ => ?_
  exact Prog.Keeps.ite (Prog.Log.announce (h.setShAddr i _)) (h.pure _)

theorem relocPass (hstub : TracesStubs R) (host : Host) : Prog.Logs R (relocPassT host re) := by
  refine h.whileFrom (fun i => ?_) _ _
  refine h.bind h.getMem fun m => h.bind (h.emit trivial rfl) fun _ => ?_
  exact Prog.Keeps.ite (h.rtldElfProcessRela hstub host i) (h.pure _)

theorem copyPass (base totsz : Word) :
    Prog.Logs R (copyPassT re base totsz) := by
  refine h.whileFrom (fun i => ?_) _ _
  refine h.bind h.getMem fun m => h.bind (h.emit trivial rfl) fun _ => ?_
  refine Prog.Keeps.ite (Prog.Log.announce (h.write trivial rfl fun m' x hx => ?_)) (h.pure _)
  refine writeBytes_of_not_inRange ?_
  rw [length_readBytes]
  exact hx

theorem registerSym (symtabIdx : ℕ) (symOff : Word) (k : ℕ) :
    Prog.Logs R (registerSymT re symtabIdx symOff k) := by
  refine h.bind h.getMem fun m => h.bind (h.emit trivial rfl) fun _ => ?_
  refine Prog.Keeps.ite (Prog.Keeps.ite (h.fail _) ?_) (h.pure _)
  refine h.bind (h.emit trivial rfl) fun _ => h.bind (h.emit trivial rfl) fun _ => ?_
  refine h.bind (h.traceStr m _ _ (registerExtent_pos _)) fun _ => ?_
  dsimp only
  split
  · exact h.fail _
  · refine h.bind (h.lift _) fun addr => Prog.Keeps.ite (h.pure _) ?_
    refine h.bind h.get fun c => ?_
    refine h.bind (Prog.Log.silent fun _ => h.quiet rfl) fun _ => ?_
    exact Prog.Keeps.ite (h.fail _) (h.pure _)

theorem registerPass :
    ∀ fuel i, Prog.Logs R (registerPassT re fuel i) := by
  intro fuel
  induction fuel with
  | zero => exact fun i => h.pure ()
  | succ fuel ih =>
      intro i
      refine h.bind h.getMem fun m => Prog.Keeps.ite ?_ (h.pure _)
      refine h.bind (h.emit trivial rfl) fun _ => Prog.Keeps.ite (ih _) ?_
      refine Prog.Keeps.ite (h.fail _) ?_
      refine h.bind (h.untilFrom (h.registerSym i _) _ _) fun more => ?_
      exact Prog.Keeps.ite (ih _) (h.pure _)

end Traced

/-! ## The whole run -/

/-- Bytes that no access writes keep their value, and the accesses are checked. -/
def Covers (re : RtldElf) (objSize : Word) (new : List Access) (c c' : State) : Prop :=
  (∀ acc ∈ new, acc.Checked objSize) ∧
    ∀ x, (∀ acc ∈ new, ¬acc.Writes re x) → c'.mem x = c.mem x

theorem Covers.write {re : RtldElf} {objSize : Word} {acc : Access} {f : Mem → Mem}
    (hacc : acc.Checked objSize) (hf : ∀ m x, ¬acc.Writes re x → f m x = m x) (c : State) :
    Covers re objSize [acc] c ((setMem f).run c).2 :=
  ⟨fun _ h => List.mem_singleton.mp h ▸ hacc,
    fun x hx => hf c.mem x (hx acc (List.mem_singleton_self acc))⟩

theorem traced_covers (re : RtldElf) (objSize : Word) : Traced re objSize (Covers re objSize) where
  nil _ := ⟨nofun, fun _ _ => rfl⟩
  append := by
    intro new new' c d e h h'
    refine ⟨fun acc hacc => (List.mem_append.mp hacc).elim (h.1 acc) (h'.1 acc), fun x hx => ?_⟩
    rw [h'.2 x fun acc hacc => hx acc (List.mem_append_right _ hacc)]
    exact h.2 x fun acc hacc => hx acc (List.mem_append_left _ hacc)
  quiet hmem := ⟨nofun, fun x _ => congrFun hmem x⟩
  event hacc _ _ := ⟨fun _ h => List.mem_singleton.mp h ▸ hacc, fun _ _ => rfl⟩
  write hacc _ hf c := Covers.write hacc hf c

theorem tracesStubs_covers (re : RtldElf) (objSize : Word) : TracesStubs (Covers re objSize) := by
  intro addr pd bytes c hlength
  have hchecked : Access.Checked objSize (.stub addr pd bytes) := hlength
  exact Covers.write hchecked (fun _ _ hx => writeBytes_of_not_inRange hx) c

theorem rtldElfInit_eq_ok {host : Host} {m : Mem} {objBase objSize skew : Word} {re : RtldElf}
    (h : rtldElfInit host m objBase objSize skew = .ok re) :
    re = objElf m objBase objSize skew := by
  unfold rtldElfInit at h
  dsimp only at h
  split_ifs at h
  exact (Except.ok.inj h).symm

/-- `rtld_elf_init` changes nothing. -/
theorem rtldElfInitT_run (host : Host) (objBase objSize skew : Word) (c : State) :
    ((rtldElfInitT host objBase objSize skew).run (c, [])).1 =
        rtldElfInit host c.mem objBase objSize skew ∧
      ((rtldElfInitT host objBase objSize skew).run (c, [])).2.1 = c ∧
      ∀ acc ∈ ((rtldElfInitT host objBase objSize skew).run (c, [])).2.2,
        acc = .ehdr ∧ acc.Checked objSize := by
  by_cases hsize : objSize < 64#64
  · simp [rtldElfInitT, Prog.run_bind, Prog.run_silent, hsize]
  · have hle : 64 ≤ objSize.toNat := Nat.not_lt.mp hsize
    simp [rtldElfInitT, Prog.run_bind, Prog.run_silent, Prog.run_emit, hsize, Access.Checked, hle]

/-- The accesses of a run, whatever its outcome, are checked and cover its writes. -/
theorem covers_accesses (host : Host) (c : State) (objBase objSize skew : Word) :
    Covers (objElf c.mem objBase objSize skew) objSize (accesses host c objBase objSize skew) c
      ((rtldAddObjectT host objBase objSize skew).run (c, [])).2.1 := by
  obtain ⟨hfst, hstate, hinit⟩ := rtldElfInitT_run host objBase objSize skew c
  have h := traced_covers (objElf c.mem objBase objSize skew) objSize
  have hstub := tracesStubs_covers (objElf c.mem objBase objSize skew) objSize
  have hcovers : Covers (objElf c.mem objBase objSize skew) objSize
      ((rtldElfInitT host objBase objSize skew).run (c, [])).2.2 c c :=
    ⟨fun acc hacc => (hinit acc hacc).2, fun _ _ => rfl⟩
  unfold accesses rtldAddObjectT
  rw [Prog.run_bind]
  cases hrun : (rtldElfInitT host objBase objSize skew).run (c, []) with
  | mk r s =>
      rw [hrun] at hfst hstate hcovers
      obtain ⟨c', log⟩ := s
      obtain rfl : c' = c := hstate
      cases r with
      | error e => exact hcovers
      | ok re =>
          obtain rfl : re = objElf c'.mem objBase objSize skew := rtldElfInit_eq_ok hfst.symm
          have hrest : Prog.Logs (Covers (objElf c'.mem objBase objSize skew) objSize) (do
              let tot ← layoutPassT (objElf c'.mem objBase objSize skew) shnumBound 0 0#64 1#64
              let base ← Prog.silent (memAllocCode host tot.1 tot.2)
              if badAddr base then
                Prog.fail (ptrInt base)
              else
                rebasePassT (objElf c'.mem objBase objSize skew) base
                relocPassT host (objElf c'.mem objBase objSize skew)
                copyPassT (objElf c'.mem objBase objSize skew) base tot.1
                registerPassT (objElf c'.mem objBase objSize skew) shnumBound 0) := by
            refine h.bind (h.layoutPass _ _ _ _) fun tot => ?_
            refine h.bind (h.alloc host _ _) fun base => Prog.Keeps.ite (h.fail _) ?_
            refine h.bind (h.rebasePass base) fun _ => ?_
            refine h.bind (h.relocPass hstub host) fun _ => ?_
            exact h.bind (h.copyPass base _) fun _ => h.registerPass _ _
          obtain ⟨new, hnew, hR⟩ := hrest (c', log)
          dsimp only
          rw [hnew]
          exact h.append hcovers hR

/-! ## Reads -/

theorem inRange_base_iff {b d e size : Word} {n : ℕ} (hn : n ≠ 0) :
    (∀ x, InRange (b + d + e) n x → InRange b size.toNat x) ↔
      (d + e).toNat + n ≤ size.toNat := by
  have hsub : b + d + e - b = d + e := by
    rw [BitVec.add_assoc, BitVec.add_comm, BitVec.add_sub_cancel]
  rw [inRange_subset_iff, hsub, or_iff_right hn]

/-- An access reads inside the object exactly if its offset and length fit. -/
theorem reads_iff_readFits {m : Mem} {objBase objSize skew : Word} {acc : Access}
    (hacc : acc.Checked objSize) :
    (∀ x, acc.Reads (objElf m objBase objSize skew) x → InRange objBase objSize.toNat x) ↔
      acc.ReadFits (load 64 m (objBase + 40)) objSize := by
  cases acc with
  | ehdr =>
      refine iff_of_true (inRange_subset_iff.mpr (.inr ?_)) trivial
      have hzero : (objElf m objBase objSize skew).base - objBase = 0#64 := BitVec.sub_self _
      rw [hzero]
      exact (Nat.zero_add 64).trans_le hacc
  | shdr i => exact inRange_base_iff (by decide)
  | rela shOffset k => exact inRange_base_iff (by decide)
  | sym shOffset k => exact inRange_base_iff (by decide)
  | name shOffset stName n => exact inRange_base_iff (Nat.pos_iff_ne_zero.mp hacc)
  | relocate shOffset shSize rOffset width =>
      exact inRange_base_iff (Nat.pos_iff_ne_zero.mp hacc.2)
  | copy s base totsz =>
      have hsub : objBase + s.shOffset - objBase = s.shOffset := by
        rw [BitVec.add_comm, BitVec.add_sub_cancel]
      have hzero : s.shSize.toNat = 0 ↔ s.shSize = 0#64 :=
        (BitVec.toNat_inj (x := s.shSize) (y := 0#64))
      have hiff : (∀ x, InRange (objBase + s.shOffset) s.shSize.toNat x →
          InRange objBase objSize.toNat x) ↔
          s.shSize = 0#64 ∨ s.shOffset.toNat + s.shSize.toNat ≤ objSize.toNat := by
        rw [inRange_subset_iff, hsub, hzero]
      exact hiff
  | place i => exact iff_of_true (fun _ h => h.elim) trivial
  | stub addr pd bytes => exact iff_of_true (fun _ h => h.elim) trivial
  | veneer addr bytes => exact iff_of_true (fun _ h => h.elim) trivial

/-- A file of 64 bytes: the offset of its only section header is `-64`. -/
def wrappedFile : State :=
  { startState with
    mem := store 64 (writeBytes (fun _ => 0) 0x1000#64 (ehdrBytes 1)) 0x1028#64
      0xffffffffffffffc0#64 }

/-- An access writes where it may exactly if it fits. -/
theorem writes_iff_writeFits {re : RtldElf} {objSize : Word} {acc : Access}
    (hacc : acc.Checked objSize) :
    (∀ x, acc.Writes re x → acc.MayWrite re x) ↔ acc.WriteFits := by
  cases acc with
  | relocate shOffset shSize rOffset width =>
      have hsub : re.base + shOffset + rOffset - (re.base + shOffset) = rOffset := by
        rw [BitVec.add_comm, BitVec.add_sub_cancel]
      have hiff : (∀ x, InRange (re.base + shOffset + rOffset) width x →
          InRange (re.base + shOffset) shSize.toNat x) ↔
          rOffset.toNat + width ≤ shSize.toNat := by
        rw [inRange_subset_iff, hsub, or_iff_right (Nat.pos_iff_ne_zero.mp hacc.2)]
      exact hiff
  | copy s base totsz =>
      have hzero : s.shSize.toNat = 0 ↔ s.shSize = 0#64 :=
        (BitVec.toNat_inj (x := s.shSize) (y := 0#64))
      have hiff : (∀ x, InRange s.shAddr s.shSize.toNat x → InRange base totsz.toNat x) ↔
          s.shSize = 0#64 ∨ (s.shAddr - base).toNat + s.shSize.toNat ≤ totsz.toNat := by
        rw [inRange_subset_iff, hzero]
      exact hiff
  | stub addr pd bytes =>
      have hlength : bytes.length = stubSize := hacc
      refine iff_of_true (fun x (hx : InRange addr bytes.length x) => ?_) trivial
      rw [hlength] at hx
      exact hx
  | veneer addr bytes =>
      have hlength : bytes.length = veneerSize := hacc
      refine iff_of_true (fun x (hx : InRange addr bytes.length x) => ?_) trivial
      rw [hlength] at hx
      exact hx
  | place i => exact iff_of_true (fun _ h => h) trivial
  | ehdr => exact iff_of_true (fun _ h => h.elim) trivial
  | shdr i => exact iff_of_true (fun _ h => h.elim) trivial
  | rela shOffset k => exact iff_of_true (fun _ h => h.elim) trivial
  | sym shOffset k => exact iff_of_true (fun _ h => h.elim) trivial
  | name shOffset stName n => exact iff_of_true (fun _ h => h.elim) trivial

/-- The contents of all sections lie in the file. -/
def ContentsInside (m : Mem) (re : RtldElf) : Prop :=
  ∀ i < shnum m re, (shdr m re i).shType ≠ SHT_NOBITS →
    (shdr m re i).shOffset.toNat + (shdr m re i).shSize.toNat ≤ re.size.toNat

instance (m : Mem) (re : RtldElf) : Decidable (ContentsInside m re) :=
  inferInstanceAs (Decidable (∀ i < _, _))

/-- A file with a `.comment` section of one byte. -/
def commentFile : State :=
  { startState with
    mem := writeBytes (fun _ => 0) 0x1000#64 (ehdrBytes 2 ++
      Shdr.bytes ⟨0, 0, 0, 0, 0, 0, 0, 0, 0⟩ ++
      Shdr.bytes ⟨SHT_PROGBITS, 0x30, 0, 192, 1, 0, 0, 1, 1⟩ ++ leBytes 1 0x47) }

/-- A file with a section of one byte and a relocation of 64 bits at its start. -/
def fieldFile : State :=
  { startState with
    mem := writeBytes (fun _ => 0) 0x1000#64 (ehdrBytes 4 ++
      Shdr.bytes ⟨0, 0, 0, 0, 0, 0, 0, 0, 0⟩ ++
      Shdr.bytes ⟨SHT_PROGBITS, 6, 0, 320, 1, 0, 0, 16, 0⟩ ++
      Shdr.bytes ⟨SHT_RELA, 0, 0, 328, 24, 3, 1, 8, 24⟩ ++
      Shdr.bytes ⟨SHT_SYMTAB, 0, 0, 352, 48, 0, 0, 8, 24⟩ ++
      leBytes 8 0x90 ++ Rela.bytes ⟨0, 0x100000001, 0⟩ ++
      Sym.bytes ⟨0, 0, 0, 0, 0⟩ ++ Sym.bytes ⟨0, 0, 0, SHN_ABS, 5⟩) }

end PollyInstrew.Client
