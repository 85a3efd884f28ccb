import PollyInstrew.Client.ElfReads

/-!
# The path of the interpreter

`load_elf_binary` looks for the end of the interpreter path in the byte behind the
bytes it has read, which the file did not fill and which is outside the buffer for
a path of the greatest size.
-/

namespace PollyInstrew.Client

open PollyInstrew.ByteMemory PollyInstrew.StateExcept

section InterpName

variable (env : Env) (ph : ElfPhdr) (s : LoadState)

/-- The interpreter path is read, checked and opened. -/
def openInterpPath : Load Unit := do
  let interpName ← readInterpName env ph
  openInterp env interpName

/-- The result of `elf_read` for the path, and the bytes of `interp_name` it filled. -/
def PathRead (r : ℤ × List Byte) : Prop :=
  ((elfRead env .exe ph.pOffset ph.pFilesz.toNat).run s).1 = .ok r

/-- The check of the path lets the loader go on. -/
def Continues : Prop := ∃ interpName, ((readInterpName env ph).run s).1 = .ok interpName

/-- The path is validated on the bytes that were read: only those are looked at, the
loader goes on exactly if the last of them is NUL, and then the path ends in
them. -/
structure NameValidated (r : ℤ × List Byte) : Prop where
  reads : ∀ i ∈ ((openInterpPath env ph).run s).2.nameReads, i < PATH_MAX ∧ i < r.2.length
  check : r.1 ≠ -1 → (Continues env ph s ↔ r.2[ph.pFilesz.toNat - 1]? = some 0)
  path : ∀ interpName, ((readInterpName env ph).run s).1 = .ok interpName →
    (pathString interpName).length < r.2.length

variable {env ph s}

/-- `elf_read` never fills more than it should. -/
theorem pathRead_cases (r : ℤ × List Byte) (hr : PathRead env ph s r) :
    ∃ s', (elfRead env .exe ph.pOffset ph.pFilesz.toNat).run s = (.ok r, s') ∧
      s'.nameReads = s.nameReads ∧ (r.1 = -1 ∨ (r.1 = 0 ∧ r.2.length ≤ ph.pFilesz.toNat)) := by
  obtain ⟨r', s', hrun, hname, -, hend⟩ := elfRead_spec env .exe ph.pOffset ph.pFilesz.toNat s
  rw [PathRead, hrun] at hr
  obtain rfl := Except.ok.inj hr
  refine ⟨s', hrun, hname, ?_⟩
  rcases hend with hret | ⟨hret, e, -, hgot, hreads, hpassed⟩
  · exact .inl hret
  · rw [hgot, ← hreads.size]
    exact .inr ⟨hret, hpassed.size_le⟩

/-- The byte behind the path is what the stack held before. -/
theorem terminator_eq {got : List Byte} (hlen : got.length ≤ ph.pFilesz.toNat) :
    writeBytes env.nameBuf 0 got ph.pFilesz = env.nameBuf ph.pFilesz := by
  apply writeBytes_of_not_inRange
  have hzero : ph.pFilesz - 0 = ph.pFilesz := BitVec.sub_zero _
  rw [InRange, hzero]
  omega

theorem openInterp_nameReads (interpName : Mem) (t : LoadState) :
    ((openInterp env interpName).run t).2.nameReads =
      t.nameReads ++ List.range (min ((pathString interpName).length + 1) PATH_MAX) := by
  rw [openInterp, Prog.run_bind_of_ok (Prog.run_modify _ t)]
  split
  · rw [Prog.run_fail]
  · split
    · rw [Prog.run_fail]
    · rw [openFile, Prog.run_modify]

section Sized

variable (hsize : 2 ≤ ph.pFilesz.toNat ∧ ph.pFilesz.toNat ≤ PATH_MAX)

include hsize

theorem readInterpName_run (r : ℤ × List Byte) (hr : PathRead env ph s r) :
    (r.1 = -1 ∧ ∃ s', (readInterpName env ph).run s = (.error (.ret (-1)), s') ∧
      s'.nameReads = s.nameReads) ∨
    (r.1 = 0 ∧ ∃ s', s'.nameReads = s.nameReads ++ [ph.pFilesz.toNat] ∧
      (readInterpName env ph).run s =
        (if env.nameBuf ph.pFilesz = 0 then .ok (writeBytes env.nameBuf 0 r.2)
          else .error (.ret (-ENOEXEC)), s')) := by
  obtain ⟨s', hrun, hname, hend⟩ := pathRead_cases r hr
  rw [readInterpName, if_neg (by omega), Prog.run_bind_of_ok hrun]
  rcases hend with hret | ⟨hret, hlen⟩
  · rw [if_pos (by omega), hret]
    exact .inl ⟨rfl, s', rfl, hname⟩
  · rw [if_neg (by omega), Prog.run_bind_of_ok (Prog.run_modify _ s'), terminator_eq hlen]
    refine .inr ⟨hret, { s' with nameReads := s'.nameReads ++ [ph.pFilesz.toNat] }, ?_, ?_⟩
    · dsimp only
      rw [hname]
    · by_cases hz : env.nameBuf ph.pFilesz = 0
      · rw [if_pos hz, if_neg (not_not.mpr hz)]
        rfl
      · rw [if_neg hz, if_pos hz]
        rfl

/-- The index of the terminator is looked at once the path was read. -/
theorem mem_nameReads (r : ℤ × List Byte) (hr : PathRead env ph s r) (hret : r.1 ≠ -1) :
    ph.pFilesz.toNat ∈ ((openInterpPath env ph).run s).2.nameReads := by
  rcases readInterpName_run hsize r hr with ⟨hminus, -⟩ | ⟨-, s', hname, hrun⟩
  · exact absurd hminus hret
  rw [openInterpPath, Prog.run_bind, hrun]
  split
  · rename_i interpName s₁ heq
    obtain ⟨-, rfl⟩ := Prod.mk.inj heq
    rw [openInterp_nameReads, hname]
    exact List.mem_append_left _ (List.mem_append_right _ List.mem_cons_self)
  · rename_i e s₁ heq
    obtain ⟨-, rfl⟩ := Prod.mk.inj heq
    rw [hname]
    exact List.mem_append_right _ List.mem_cons_self

end Sized

end InterpName

/-- The path is validated on the bytes that were read only if reading them fails:
otherwise a byte behind them decides. -/
theorem interp_name_validated_iff (env : Env) (ph : ElfPhdr) (s : LoadState)
    (hnew : s.nameReads = [])
    (hsize : 2 ≤ ph.pFilesz.toNat ∧ ph.pFilesz.toNat ≤ PATH_MAX) :
    ∃ r, PathRead env ph s r ∧ (NameValidated env ph s r ↔ r.1 = -1) ∧
      (r.1 ≠ -1 → ph.pFilesz.toNat ∈ ((openInterpPath env ph).run s).2.nameReads ∧
        r.2.length ≤ ph.pFilesz.toNat ∧
        (Continues env ph s ↔ env.nameBuf ph.pFilesz = 0)) := by
  obtain ⟨r, s', hread, -⟩ := elfRead_spec env .exe ph.pOffset ph.pFilesz.toNat s
  have hr : PathRead env ph s r := by
    rw [PathRead, hread]
  obtain ⟨-, -, -, hend⟩ := pathRead_cases r hr
  refine ⟨r, hr, ⟨fun h => ?_, fun hret => ?_⟩, fun hret => ?_⟩
  · by_contra hret
    have hlt := (h.reads _ (mem_nameReads hsize r hr hret)).2
    have hle := (hend.resolve_left hret).2
    omega
  · rcases readInterpName_run hsize r hr with ⟨-, s₁, hrun, hname⟩ | ⟨hzero, -⟩
    · have hfail : ∀ interpName, ((readInterpName env ph).run s).1 ≠ .ok interpName := by
        rw [hrun]
        simp
      refine ⟨fun i hi => ?_, fun h => absurd hret h, fun name h => absurd h (hfail name)⟩
      rw [openInterpPath, Prog.run_bind, hrun] at hi
      dsimp only at hi
      rw [hname, hnew] at hi
      exact absurd hi List.not_mem_nil
    · rw [hret] at hzero
      exact absurd hzero (by decide)
  · refine ⟨mem_nameReads hsize r hr hret, (hend.resolve_left hret).2, ?_⟩
    rcases readInterpName_run hsize r hr with ⟨hminus, -⟩ | ⟨-, s₁, -, hrun⟩
    · exact absurd hminus hret
    · rw [Continues, hrun]
      by_cases hz : env.nameBuf ph.pFilesz = 0
      · rw [if_pos hz]
        exact ⟨fun _ => hz, fun _ => ⟨_, rfl⟩⟩
      · rw [if_neg hz]
        refine ⟨fun h => ?_, fun h => absurd h hz⟩
        obtain ⟨interpName, hname⟩ := h
        exact absurd hname (by simp)

/-- An executable that consists of an interpreter path, with given bytes on the
stack. -/
def pathEnv (path : List Byte) (nameBuf : Mem) : Env :=
  { sampleEnv path with nameBuf := nameBuf }

def pathPhdr (filesz : Word) : ElfPhdr := ⟨PT_INTERP, 4, 0, 0, filesz, filesz⟩

/-- The state in which the executable has been opened. -/
def pathState (path : List Byte) : LoadState :=
  ⟨⟨fun _ => none, 0⟩, 0, fun _ => ⟨path, 0⟩, [], []⟩

theorem interp_name_validated_eperm :
    ∃ r, PathRead { pathEnv [] (fun _ => 0) with read := fun _ => .error ⟨1, by decide⟩ }
        (pathPhdr 7) (pathState [0x2f, 0x6c, 0x64, 0x2e, 0x73, 0x6f, 0]) r ∧
      NameValidated { pathEnv [] (fun _ => 0) with read := fun _ => .error ⟨1, by decide⟩ }
        (pathPhdr 7) (pathState [0x2f, 0x6c, 0x64, 0x2e, 0x73, 0x6f, 0]) r := by
  obtain ⟨r, hr, hiff, -⟩ := interp_name_validated_iff
    { pathEnv [] (fun _ => 0) with read := fun _ => .error ⟨1, by decide⟩ } (pathPhdr 7)
    (pathState [0x2f, 0x6c, 0x64, 0x2e, 0x73, 0x6f, 0]) rfl (by decide)
  refine ⟨r, hr, hiff.mpr ?_⟩
  have hret := congrArg (fun x : Except Stop (ℤ × List Byte) => x.toOption.map Prod.fst) hr
  exact (Option.some.inj hret).symm

/-- A path that is terminated is rejected, and one that is not is accepted,
depending on the byte on the stack behind it. -/
theorem terminator_misplaced :
    retval ((readInterpName (pathEnv [0x2f, 0x6c, 0x64, 0] fun _ => 1) (pathPhdr 4)).run
      (pathState [0x2f, 0x6c, 0x64, 0])).1 = some (-ENOEXEC) ∧
    retval ((readInterpName (pathEnv [0x2f, 0x6c, 0x64] fun _ => 0) (pathPhdr 3)).run
      (pathState [0x2f, 0x6c, 0x64])).1 = some 0 ∧
    ((openInterpPath (pathEnv [0x2f, 0x6c, 0x64] fun _ => 0) (pathPhdr 3)).run
      (pathState [0x2f, 0x6c, 0x64])).2.nameReads = [3, 0, 1, 2, 3] := by
  decide +kernel

end PollyInstrew.Client
