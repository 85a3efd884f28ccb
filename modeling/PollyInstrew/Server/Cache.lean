import PollyInstrew.Support.ByteMemory
import PollyInstrew.Support.FileSystem
import PollyInstrew.Support.Transition

/-!
# The on-disk object cache

`Cache::Put` and `Cache::Get` run in any number of processes on one directory,
one system call at a time.  `Put` writes a temporary file under a lock and
renames it; `Get` opens the final name.
-/

namespace PollyInstrew.Server

variable {pid fd : ℕ} {fs fs' : CacheDir} {hash : Hash}

open PollyInstrew.ByteMemory
open PollyInstrew.Transition

/-! ## File names -/

def hexDigit (n : ℕ) : Char := if n < 10 then Char.ofNat (48 + n) else Char.ofNat (87 + n)

/-- `HexBuffer`: two digits per byte. -/
def hexBuffer (bytes : List Byte) : List Char :=
  bytes.flatMap fun b => [hexDigit (b.toNat / 16), hexDigit (b.toNat % 16)]

/-- A hash of `HASH_SIZE` bytes. -/
abbrev Hash := { bytes : List Byte // bytes.length = 20 }

/-- `Cache::FileName`, relative to the cache directory. -/
def fileName (hash : Hash) (suffix : List Char) : List Char := hexBuffer hash.1 ++ suffix

def cachefile (hash : Hash) : List Char := fileName hash []

def cachefileTmp (hash : Hash) : List Char := fileName hash ['.', 't', 'm', 'p']

theorem hexDigit_inj : ∀ m < 16, ∀ n < 16, hexDigit m = hexDigit n → m = n := by decide

theorem hexBuffer_inj : ∀ {xs ys : List Byte}, hexBuffer xs = hexBuffer ys → xs = ys := by
  intro xs
  induction xs with
  | nil =>
      intro ys h
      cases ys with
      | nil => rfl
      | cons y ys => exact absurd h (by simp [hexBuffer])
  | cons x xs ih =>
      intro ys h
      cases ys with
      | nil => exact absurd h (by simp [hexBuffer])
      | cons y ys =>
          simp only [hexBuffer, List.flatMap_cons, List.cons_append, List.nil_append,
            List.cons.injEq] at h
          obtain ⟨hhigh, hlow, hrest⟩ := h
          have hx := x.isLt
          have hy := y.isLt
          have h₁ := hexDigit_inj _ (by omega) _ (by omega) hhigh
          have h₂ := hexDigit_inj _ (by omega) _ (by omega) hlow
          rw [ih hrest, BitVec.eq_of_toNat_eq (x := x) (y := y) (by omega)]

theorem length_hexBuffer (bytes : List Byte) : (hexBuffer bytes).length = 2 * bytes.length := by
  induction bytes with
  | nil => rfl
  | cons b bytes ih =>
      simp only [hexBuffer, List.flatMap_cons, List.length_append, List.length_cons,
        List.length_nil] at ih ⊢
      omega

theorem fileName_inj {h h' : Hash} {suffix suffix' : List Char}
    (heq : fileName h suffix = fileName h' suffix') : h = h' ∧ suffix = suffix' := by
  have hlen : (hexBuffer h.1).length = (hexBuffer h'.1).length := by
    rw [length_hexBuffer, length_hexBuffer, h.2, h'.2]
  obtain ⟨hhex, hsuffix⟩ := List.append_inj heq hlen
  exact ⟨Subtype.ext (hexBuffer_inj hhex), hsuffix⟩

theorem cachefile_ne_tmp (h h' : Hash) : cachefile h ≠ cachefileTmp h' := fun heq =>
  absurd (fileName_inj heq).2 (by simp)

theorem cachefile_ne {h h' : Hash} (hne : h ≠ h') : cachefile h ≠ cachefile h' :=
  fun heq => hne (fileName_inj heq).1

theorem cachefileTmp_ne {h h' : Hash} (hne : h ≠ h') : cachefileTmp h ≠ cachefileTmp h' :=
  fun heq => hne (fileName_inj heq).1

/-! ## System calls of `Put` and `Get` -/

/-- What the configuration allows a process. -/
structure Cache where
  allowRead : Bool
  allowWrite : Bool

/-- A process by its next system call.  `fd` and `fdReal` are the inodes its
descriptors refer to, `totalWritten` counts the bytes `write_full` has written. -/
inductive CacheProc where
  | idle
  | putOpen (hash : Hash) (buf : List Byte)
  | putLock (hash : Hash) (buf : List Byte) (fd : ℕ)
  | putCheck (hash : Hash) (buf : List Byte) (fd : ℕ)
  | putWrite (hash : Hash) (buf : List Byte) (fd totalWritten : ℕ)
  | putRename (hash : Hash) (buf : List Byte) (fd : ℕ)
  | putUnlink (hash : Hash) (fdReal : Option ℕ) (fd : ℕ)
  | closeFds (fdReal : Option ℕ) (fd : ℕ)
  | getOpen (hash : Hash)
  | getStat (hash : Hash) (fd : ℕ)
  | getHit (hash : Hash) (fd size : ℕ)
  deriving DecidableEq

/-- What happens next in a process: a call of `Put` or `Get`, or the outcome of
its system call. -/
inductive CacheEvent where
  | put (hash : Hash) (buf : List Byte)
  | get (hash : Hash)
  | ok
  | written (n : ℕ)
  | fail
  | crash
  deriving DecidableEq

abbrev CacheDir := FileSystem (List Char) Byte

abbrev CacheSystem := System CacheDir fun _ : ℕ => CacheProc

/-- The head of the loop of `write_full`. -/
def writeFull (hash : Hash) (buf : List Byte) (fd totalWritten : ℕ) : CacheProc :=
  if totalWritten < buf.length then .putWrite hash buf fd totalWritten
  else .putRename hash buf fd

/-- One system call of a process.  A `Get` that hits keeps its descriptor until
the caller closes it. -/
def cacheStep (caches : ℕ → Cache) : Action CacheDir CacheEvent fun _ : ℕ => CacheProc :=
  fun pid event fs proc =>
    match event, proc with
    | .crash, _ => some (fs.exit pid, .idle)
    | .put hash buf, .idle =>
        some (fs, if (caches pid).allowWrite then .putOpen hash buf else .idle)
    | .get hash, .idle => some (fs, if (caches pid).allowRead then .getOpen hash else .idle)
    | .ok, .putOpen hash buf =>
        let opened := fs.openCreate (cachefileTmp hash)
        some (opened.1, .putLock hash buf opened.2)
    | .fail, .putOpen _ _ => some (fs, .idle)
    | .ok, .putLock hash buf fd =>
        match fs.setLock pid fd with
        | some fs' => some (fs', .putCheck hash buf fd)
        | none => some (fs, .closeFds none fd)
    | .fail, .putLock _ _ fd => some (fs, .closeFds none fd)
    | .ok, .putCheck hash buf fd =>
        match fs.dir (cachefile hash) with
        | some fdReal => some (fs, .putUnlink hash (some fdReal) fd)
        | none => some (fs, writeFull hash buf fd 0)
    | .written n, .putWrite hash buf fd totalWritten =>
        if n = 0 then some (fs, .putUnlink hash none fd)
        else if totalWritten + n ≤ buf.length then
          some (fs.write 0#8 fd totalWritten ((buf.drop totalWritten).take n),
            writeFull hash buf fd (totalWritten + n))
        else none
    | .fail, .putWrite hash _ fd _ => some (fs, .putUnlink hash none fd)
    | .ok, .putRename hash _ fd =>
        match fs.rename (cachefileTmp hash) (cachefile hash) with
        | some fs' => some (fs', .closeFds none fd)
        | none => some (fs, .putUnlink hash none fd)
    | .fail, .putRename hash _ fd => some (fs, .putUnlink hash none fd)
    | .ok, .putUnlink hash fdReal fd =>
        some (fs.unlink (cachefileTmp hash), .closeFds fdReal fd)
    | .fail, .putUnlink _ fdReal fd => some (fs, .closeFds fdReal fd)
    | .ok, .closeFds (some fdReal) fd => some (fs.close pid fdReal, .closeFds none fd)
    | .ok, .closeFds none fd => some (fs.close pid fd, .idle)
    | .ok, .getOpen hash =>
        match fs.dir (cachefile hash) with
        | some fd => some (fs, .getStat hash fd)
        | none => some (fs, .idle)
    | .fail, .getOpen _ => some (fs, .idle)
    | .ok, .getStat hash fd => some (fs, .getHit hash fd (fs.content fd).length)
    | .fail, .getStat _ fd => some (fs, .closeFds none fd)
    | .ok, .getHit _ fd _ => some (fs.close pid fd, .idle)
    | _, _ => none

def runCache (caches : ℕ → Cache) : CacheSystem → List (ℕ × CacheEvent) → Option CacheSystem :=
  run (interleave (cacheStep caches))

/-! ## What processes rely on -/

section Rely

variable (called : Hash → List Byte → Prop)

/-- The process has the lock on the file of the temporary name, and the final
name is free. -/
structure Owns (fs : CacheDir) (pid : ℕ) (hash : Hash) (fd : ℕ) : Prop where
  lock : fs.lock fd = some pid
  tmp : fs.dir (cachefileTmp hash) = some fd
  real : fs.dir (cachefile hash) = none

/-- A complete file that no temporary name refers to. -/
structure Published (fs : CacheDir) (hash : Hash) (fd : ℕ) : Prop where
  called : called hash (fs.content fd)
  lt : fd < fs.next
  notTmp : ∀ h, fs.dir (cachefileTmp h) ≠ some fd

/-- Every file under a final name is the buffer of a call. -/
structure DirInv (fs : CacheDir) : Prop where
  wf : fs.WF
  real : ∀ hash i, fs.dir (cachefile hash) = some i → called hash (fs.content i)

/-- What holds of a process before its next system call. -/
def ProcInv (pid : ℕ) (fs : CacheDir) : CacheProc → Prop
  | .idle => True
  | .putOpen hash buf => called hash buf
  | .putLock hash buf _ => called hash buf
  | .putCheck hash buf fd => called hash buf ∧ fs.lock fd = some pid
  | .putWrite hash buf fd totalWritten =>
      called hash buf ∧ Owns fs pid hash fd ∧
        (fs.content fd).take totalWritten = buf.take totalWritten ∧
        totalWritten ≤ (fs.content fd).length ∧ (fs.content fd).length ≤ buf.length
  | .putRename hash buf fd => called hash buf ∧ Owns fs pid hash fd ∧ fs.content fd = buf
  | .putUnlink hash none fd => Owns fs pid hash fd
  | .putUnlink hash (some _) _ => fs.dir (cachefile hash) ≠ none
  | .closeFds _ _ => True
  | .getOpen _ => True
  | .getStat hash fd => Published called fs hash fd
  | .getHit hash fd size => Published called fs hash fd ∧ size = (fs.content fd).length

/-- What a step of process `pid` leaves to the others. -/
structure Leaves (pid : ℕ) (fs fs' : CacheDir) : Prop where
  lock : ∀ {q i : ℕ}, q ≠ pid → fs.lock i = some q → fs'.lock i = some q
  owns : ∀ {q : ℕ} {hash : Hash} {fd : ℕ}, q ≠ pid → Owns fs q hash fd →
    Owns fs' q hash fd ∧ fs'.content fd = fs.content fd
  real : ∀ {hash : Hash}, fs.dir (cachefile hash) ≠ none → fs'.dir (cachefile hash) ≠ none
  published : ∀ {hash : Hash} {fd : ℕ}, Published called fs hash fd →
    Published called fs' hash fd ∧ fs'.content fd = fs.content fd

variable {called}

theorem Leaves.procInv {q : ℕ} (h : Leaves called pid fs fs') (hq : q ≠ pid) {proc : CacheProc}
    (hproc : ProcInv called q fs proc) :
    ProcInv called q fs' proc := by
  cases proc with
  | idle => trivial
  | putOpen hash buf => exact hproc
  | putLock hash buf fd => exact hproc
  | putCheck hash buf fd => exact ⟨hproc.1, h.lock hq hproc.2⟩
  | putWrite hash buf fd totalWritten =>
      obtain ⟨howns, hcontent⟩ := h.owns hq hproc.2.1
      refine ⟨hproc.1, howns, ?_⟩
      rw [hcontent]
      exact hproc.2.2
  | putRename hash buf fd =>
      obtain ⟨howns, hcontent⟩ := h.owns hq hproc.2.1
      exact ⟨hproc.1, howns, hcontent.trans hproc.2.2⟩
  | putUnlink hash fdReal fd =>
      cases fdReal with
      | none => exact (h.owns hq hproc).1
      | some r => exact h.real hproc
  | closeFds fdReal fd => trivial
  | getOpen hash => trivial
  | getStat hash fd => exact (h.published hproc).1
  | getHit hash fd size =>
      obtain ⟨hpub, hcontent⟩ := h.published hproc.1
      exact ⟨hpub, by rw [hcontent]; exact hproc.2⟩

theorem Owns.unique {p q : ℕ} {i j : ℕ} (hi : Owns fs p hash i) (hj : Owns fs q hash j) :
    p = q := by
  have hij := Option.some.inj (hi.tmp.symm.trans hj.tmp)
  subst hij
  exact Option.some.inj (hi.lock.symm.trans hj.lock)

theorem DirInv.published (h : DirInv called fs) {i : ℕ} (hi : fs.dir (cachefile hash) = some i) :
    Published called fs hash i :=
  ⟨h.real hash i hi, h.wf.lt hi, fun h' htmp => cachefile_ne_tmp hash h' (h.wf.inj hi htmp)⟩

/-- A step that only changes locks of its own process. -/
theorem DirInv.locks (h : DirInv called fs) (hdir : fs'.dir = fs.dir)
    (hcontent : fs'.content = fs.content) (hnext : fs'.next = fs.next)
    (hlock : ∀ {q i : ℕ}, q ≠ pid → fs.lock i = some q → fs'.lock i = some q) :
    DirInv called fs' ∧ Leaves called pid fs fs' := by
  refine ⟨⟨⟨?_, ?_⟩, ?_⟩, ⟨hlock, ?_, ?_, ?_⟩⟩
  · rw [hdir]
    exact h.wf.inj
  · rw [hdir, hnext]
    exact h.wf.lt
  · rw [hdir, hcontent]
    exact h.real
  · intro q hash fd hq howns
    refine ⟨⟨hlock hq howns.lock, ?_, ?_⟩, by rw [hcontent]⟩
    · rw [hdir]
      exact howns.tmp
    · rw [hdir]
      exact howns.real
  · intro hash
    rw [hdir]
    exact id
  · intro hash fd hpub
    refine ⟨⟨?_, ?_, ?_⟩, by rw [hcontent]⟩
    · rw [hcontent]
      exact hpub.called
    · rw [hnext]
      exact hpub.lt
    · rw [hdir]
      exact hpub.notTmp

theorem DirInv.refl (h : DirInv called fs) (pid : ℕ) :
    DirInv called fs ∧ Leaves called pid fs fs :=
  h.locks rfl rfl rfl fun _ hlock => hlock

theorem DirInv.close (h : DirInv called fs) (pid i : ℕ) :
    DirInv called (fs.close pid i) ∧ Leaves called pid fs (fs.close pid i) :=
  h.locks (fs.dir_close pid i) (fs.content_close pid i) (fs.next_close pid i)
    FileSystem.lock_close

theorem DirInv.exit (h : DirInv called fs) (pid : ℕ) :
    DirInv called (fs.exit pid) ∧ Leaves called pid fs (fs.exit pid) :=
  h.locks rfl rfl rfl FileSystem.lock_exit

theorem DirInv.setLock (h : DirInv called fs) {i : ℕ} (hlock : fs.setLock pid i = some fs') :
    DirInv called fs' ∧ Leaves called pid fs fs' ∧ fs'.lock i = some pid := by
  obtain ⟨hfree, rfl⟩ := FileSystem.setLock_eq_some hlock
  have hkeep : DirInv called { fs with lock := Function.update fs.lock i (some pid) } ∧
      Leaves called pid fs { fs with lock := Function.update fs.lock i (some pid) } :=
    h.locks rfl rfl rfl (by
      intro q j hq hj
      have hji : j ≠ i := by
        rintro rfl
        exact hfree q hq hj
      exact (Function.update_of_ne hji _ _).trans hj)
  exact ⟨hkeep.1, hkeep.2, Function.update_self _ _ _⟩

theorem DirInv.openCreate (h : DirInv called fs) (pid : ℕ) (hash : Hash) :
    DirInv called (fs.openCreate (cachefileTmp hash)).1 ∧
      Leaves called pid fs (fs.openCreate (cachefileTmp hash)).1 := by
  have hwf := h.wf.openCreate (cachefileTmp hash)
  rcases fs.openCreate_cases (cachefileTmp hash) with ⟨i, -, heq⟩ | ⟨hnone, heq⟩
  · rw [heq]
    exact h.refl pid
  rw [heq] at hwf ⊢
  have hreal : ∀ h', Function.update fs.dir (cachefileTmp hash) (some fs.next) (cachefile h') =
      fs.dir (cachefile h') := fun h' => Function.update_of_ne (cachefile_ne_tmp h' hash) _ _
  have hold : ∀ {i : ℕ}, i < fs.next →
      Function.update fs.content fs.next [] i = fs.content i := fun hi =>
    Function.update_of_ne (Nat.ne_of_lt hi) _ _
  refine ⟨⟨hwf, ?_⟩, ⟨fun _ hlock => hlock, ?_, ?_, ?_⟩⟩
  · intro h' i hi
    have hi' := (hreal h').symm.trans hi
    have hcalled := h.real h' i hi'
    rwa [← hold (h.wf.lt hi')] at hcalled
  · intro q h' fd hq howns
    have hne : cachefileTmp h' ≠ cachefileTmp hash := by
      intro heq
      have htmp := howns.tmp
      rw [heq, hnone] at htmp
      cases htmp
    exact ⟨⟨howns.lock, (Function.update_of_ne hne _ _).trans howns.tmp,
      (hreal h').trans howns.real⟩, hold (h.wf.lt howns.tmp)⟩
  · intro h' hne
    exact fun hnone' => hne ((hreal h').symm.trans hnone')
  · intro h' fd hpub
    refine ⟨⟨?_, Nat.lt_succ_of_lt hpub.lt, ?_⟩, hold hpub.lt⟩
    · have hcalled := hpub.called
      rwa [← hold hpub.lt] at hcalled
    · intro h'' htmp
      dsimp only at htmp
      rw [Function.update_apply] at htmp
      split at htmp
      · have := hpub.lt
        obtain rfl := Option.some.inj htmp
        omega
      · exact hpub.notTmp h'' htmp

/-- Writing to the file a process owns. -/
theorem DirInv.write (h : DirInv called fs) (howns : Owns fs pid hash fd) (off : ℕ)
    (bytes : List Byte) :
    DirInv called (fs.write 0#8 fd off bytes) ∧
      Leaves called pid fs (fs.write 0#8 fd off bytes) := by
  have hkeep : ∀ {i : ℕ}, i ≠ fd → (fs.write 0#8 fd off bytes).content i = fs.content i :=
    FileSystem.content_write_of_ne
  refine ⟨⟨⟨h.wf.inj, h.wf.lt⟩, ?_⟩, ⟨fun _ hlock => hlock, ?_, fun hne => hne, ?_⟩⟩
  · intro h' i hi
    have hne : i ≠ fd := by
      rintro rfl
      exact cachefile_ne_tmp h' hash (h.wf.inj hi howns.tmp)
    rw [hkeep hne]
    exact h.real h' i hi
  · intro q h' i hq hother
    have hne : i ≠ fd := by
      rintro rfl
      exact hq (Option.some.inj (hother.lock.symm.trans howns.lock))
    exact ⟨⟨hother.lock, hother.tmp, hother.real⟩, hkeep hne⟩
  · intro h' i hpub
    have hne : i ≠ fd := by
      rintro rfl
      exact hpub.notTmp hash howns.tmp
    refine ⟨⟨?_, hpub.lt, hpub.notTmp⟩, hkeep hne⟩
    rw [hkeep hne]
    exact hpub.called

/-- Removing a temporary name that is the process's own or no longer needed. -/
theorem DirInv.unlink (h : DirInv called fs)
    (hfree : (∃ fd, Owns fs pid hash fd) ∨ fs.dir (cachefile hash) ≠ none) :
    DirInv called (fs.unlink (cachefileTmp hash)) ∧
      Leaves called pid fs (fs.unlink (cachefileTmp hash)) := by
  have hreal : ∀ h', (fs.unlink (cachefileTmp hash)).dir (cachefile h') =
      fs.dir (cachefile h') := fun h' => Function.update_of_ne (cachefile_ne_tmp h' hash) _ _
  refine ⟨⟨h.wf.unlink _, ?_⟩, ⟨fun _ hlock => hlock, ?_, ?_, ?_⟩⟩
  · intro h' i hi
    exact h.real h' i ((hreal h').symm.trans hi)
  · intro q h' i hq hother
    have hne : h' ≠ hash := by
      rintro rfl
      rcases hfree with ⟨fd, howns⟩ | hexists
      · exact hq (hother.unique howns)
      · exact hexists hother.real
    exact ⟨⟨hother.lock, (Function.update_of_ne (cachefileTmp_ne hne) _ _).trans hother.tmp,
      (hreal h').trans hother.real⟩, rfl⟩
  · intro h' hne
    rw [hreal]
    exact hne
  · intro h' i hpub
    refine ⟨⟨hpub.called, hpub.lt, ?_⟩, rfl⟩
    intro h'' htmp
    change Function.update fs.dir (cachefileTmp hash) none (cachefileTmp h'') = some i at htmp
    rw [Function.update_apply] at htmp
    split at htmp
    · cases htmp
    · exact hpub.notTmp h'' htmp

/-- Renaming the complete file a process owns. -/
theorem DirInv.rename (h : DirInv called fs) (howns : Owns fs pid hash fd)
    (hcalled : called hash (fs.content fd))
    (hren : fs.rename (cachefileTmp hash) (cachefile hash) = some fs') :
    DirInv called fs' ∧ Leaves called pid fs fs' := by
  have hwf := h.wf.rename hren
  obtain ⟨i, hi, rfl⟩ := Option.map_eq_some_iff.mp hren
  obtain rfl := Option.some.inj (hi.symm.trans howns.tmp)
  have hreal : ∀ h', h' ≠ hash → Function.update (Function.update fs.dir (cachefile hash)
      (some i)) (cachefileTmp hash) none (cachefile h') = fs.dir (cachefile h') := by
    intro h' hne
    rw [Function.update_of_ne (cachefile_ne_tmp h' hash),
      Function.update_of_ne (cachefile_ne hne)]
  have hself : Function.update (Function.update fs.dir (cachefile hash)
      (some i)) (cachefileTmp hash) none (cachefile hash) = some i := by
    rw [Function.update_of_ne (cachefile_ne_tmp hash hash), Function.update_self]
  have htmp : ∀ h', h' ≠ hash → Function.update (Function.update fs.dir (cachefile hash)
      (some i)) (cachefileTmp hash) none (cachefileTmp h') = fs.dir (cachefileTmp h') := by
    intro h' hne
    rw [Function.update_of_ne (cachefileTmp_ne hne),
      Function.update_of_ne (cachefile_ne_tmp hash h').symm]
  refine ⟨⟨hwf, ?_⟩, ⟨fun _ hlock => hlock, ?_, ?_, ?_⟩⟩
  · intro h' j hj
    by_cases hne : h' = hash
    · subst hne
      obtain rfl := Option.some.inj (hself.symm.trans hj)
      exact hcalled
    · exact h.real h' j ((hreal h' hne).symm.trans hj)
  · intro q h' j hq hother
    have hne : h' ≠ hash := by
      rintro rfl
      exact hq (hother.unique howns)
    exact ⟨⟨hother.lock, (htmp h' hne).trans hother.tmp, (hreal h' hne).trans hother.real⟩, rfl⟩
  · intro h' hexists
    by_cases hne : h' = hash
    · subst hne
      exact fun hnone => absurd (hself.symm.trans hnone) (by simp)
    · exact fun hnone => hexists ((hreal h' hne).symm.trans hnone)
  · intro h' j hpub
    refine ⟨⟨hpub.called, hpub.lt, ?_⟩, rfl⟩
    intro h'' hj
    by_cases hne : h'' = hash
    · subst hne
      exact absurd ((Function.update_self _ _ _).symm.trans hj) (by simp)
    · exact hpub.notTmp h'' ((htmp h'' hne).symm.trans hj)

end Rely

/-! ## Runs -/

/-- A `Put` that finds no file under the final name holds the file the temporary
name refers to, and this is not longer than what it writes. -/
def CleanCheck (event : CacheEvent) (fs : CacheDir) : CacheProc → Prop
  | .putCheck hash buf fd =>
      event = .ok → fs.dir (cachefile hash) = none →
        fs.dir (cachefileTmp hash) = some fd ∧ (fs.content fd).length ≤ buf.length
  | _ => True

instance : ∀ event fs proc, Decidable (CleanCheck event fs proc)
  | event, fs, .putCheck hash buf fd =>
      inferInstanceAs (Decidable (event = .ok → fs.dir (cachefile hash) = none →
        fs.dir (cachefileTmp hash) = some fd ∧ (fs.content fd).length ≤ buf.length))
  | _, _, .idle => .isTrue trivial
  | _, _, .putOpen _ _ => .isTrue trivial
  | _, _, .putLock _ _ _ => .isTrue trivial
  | _, _, .putWrite _ _ _ _ => .isTrue trivial
  | _, _, .putRename _ _ _ => .isTrue trivial
  | _, _, .putUnlink _ _ _ => .isTrue trivial
  | _, _, .closeFds _ _ => .isTrue trivial
  | _, _, .getOpen _ => .isTrue trivial
  | _, _, .getStat _ _ => .isTrue trivial
  | _, _, .getHit _ _ _ => .isTrue trivial

/-- The check of the process that acts is clean. -/
def CleanStep (s : CacheSystem) (e : ℕ × CacheEvent) : Prop :=
  CleanCheck e.2 s.shared (s.locals e.1)

instance (s : CacheSystem) (e : ℕ × CacheEvent) : Decidable (CleanStep s e) :=
  inferInstanceAs (Decidable (CleanCheck _ _ _))

theorem procInv_writeFull {called : Hash → List Byte → Prop} {buf : List Byte} {totalWritten : ℕ}
    (h : ProcInv called pid fs (.putWrite hash buf fd totalWritten)) :
    ProcInv called pid fs (writeFull hash buf fd totalWritten) := by
  obtain ⟨hcalled, howns, htake, hle, hlen⟩ := h
  unfold writeFull
  split
  · exact ⟨hcalled, howns, htake, hle, hlen⟩
  · next hdone =>
    refine ⟨hcalled, howns, ?_⟩
    rwa [List.take_of_length_le (by omega), List.take_of_length_le (by omega)] at htake

theorem procInv_write {called : Hash → List Byte → Prop} {buf : List Byte} {totalWritten n : ℕ}
    (h : ProcInv called pid fs (.putWrite hash buf fd totalWritten))
    (hn : totalWritten + n ≤ buf.length) :
    ProcInv called pid (fs.write 0#8 fd totalWritten ((buf.drop totalWritten).take n))
      (.putWrite hash buf fd (totalWritten + n)) := by
  obtain ⟨hcalled, howns, htake, hle, hlen⟩ := h
  have hlen' : (buf.take (totalWritten + n)).length = totalWritten + n :=
    List.length_take_of_le hn
  refine ⟨hcalled, ⟨howns.lock, howns.tmp, howns.real⟩, ?_⟩
  rw [FileSystem.content_write_self, FileSystem.overwrite_prefix htake hle hn]
  refine ⟨?_, ?_, ?_⟩
  · rw [List.take_left' hlen']
  · rw [List.length_append]
    omega
  · rw [List.length_append, List.length_drop]
    omega

/-- A system call of a clean run keeps the directory and its process in order
and leaves the others what they rely on. -/
theorem cacheStep_keeps {called : Hash → List Byte → Prop} {caches : ℕ → Cache} {event : CacheEvent}
    {proc proc' : CacheProc} (hcall : ∀ hash buf, event = .put hash buf → called hash buf)
    (h : DirInv called fs) (hproc : ProcInv called pid fs proc) (hclean : CleanCheck event fs proc)
    (hstep : cacheStep caches pid event fs proc = some (fs', proc')) :
    (DirInv called fs' ∧ Leaves called pid fs fs') ∧ ProcInv called pid fs' proc' := by
  have hsame := h.refl pid
  unfold cacheStep at hstep
  split at hstep
  -- A crash, then the calls of `Put` and `Get`.
  · cases hstep
    exact ⟨h.exit pid, trivial⟩
  · cases hstep
    refine ⟨hsame, ?_⟩
    split
    · exact hcall _ _ rfl
    · trivial
  · cases hstep
    refine ⟨hsame, ?_⟩
    split <;> trivial
  -- Opening and locking the temporary file.
  · cases hstep
    exact ⟨h.openCreate pid _, hproc⟩
  · cases hstep
    exact ⟨hsame, trivial⟩
  · next hash buf fd =>
    cases hlock : fs.setLock pid fd with
    | none =>
        rw [hlock] at hstep
        cases hstep
        exact ⟨hsame, trivial⟩
    | some fs₁ =>
        rw [hlock] at hstep
        cases hstep
        obtain ⟨hinv, hleaves, hheld⟩ := h.setLock hlock
        exact ⟨⟨hinv, hleaves⟩, hproc, hheld⟩
  · cases hstep
    exact ⟨hsame, trivial⟩
  -- Looking for the final file.
  · next hash buf fd =>
    cases hreal : fs.dir (cachefile hash) with
    | some fdReal =>
        rw [hreal] at hstep
        cases hstep
        refine ⟨hsame, ?_⟩
        change fs.dir (cachefile hash) ≠ none
        rw [hreal]
        exact Option.some_ne_none _
    | none =>
        rw [hreal] at hstep
        cases hstep
        obtain ⟨htmp, hlen⟩ := hclean rfl hreal
        exact ⟨hsame, procInv_writeFull
          ⟨hproc.1, ⟨hproc.2, htmp, hreal⟩, by simp, Nat.zero_le _, hlen⟩⟩
  -- Writing.
  · next n hash buf fd totalWritten =>
    split at hstep
    · cases hstep
      exact ⟨hsame, hproc.2.1⟩
    · split at hstep
      · next hn =>
        cases hstep
        exact ⟨h.write hproc.2.1 _ _, procInv_writeFull (procInv_write hproc hn)⟩
      · cases hstep
  · cases hstep
    exact ⟨hsame, hproc.2.1⟩
  -- Renaming.
  · next hash buf fd =>
    obtain ⟨hcalled, howns, hcontent⟩ := hproc
    cases hren : fs.rename (cachefileTmp hash) (cachefile hash) with
    | none =>
        rw [hren] at hstep
        cases hstep
        exact ⟨hsame, howns⟩
    | some fs₁ =>
        rw [hren] at hstep
        cases hstep
        exact ⟨h.rename howns (hcontent ▸ hcalled) hren, trivial⟩
  · cases hstep
    exact ⟨hsame, hproc.2.1⟩
  -- Unlinking and closing.
  · next hash fdReal fd =>
    cases hstep
    refine ⟨h.unlink ?_, trivial⟩
    cases fdReal with
    | none => exact Or.inl ⟨fd, hproc⟩
    | some r => exact Or.inr hproc
  · cases hstep
    exact ⟨hsame, trivial⟩
  · cases hstep
    exact ⟨h.close pid _, trivial⟩
  · cases hstep
    exact ⟨h.close pid _, trivial⟩
  -- `Get`.
  · next hash =>
    cases hreal : fs.dir (cachefile hash) with
    | some fd =>
        rw [hreal] at hstep
        cases hstep
        exact ⟨hsame, h.published hreal⟩
    | none =>
        rw [hreal] at hstep
        cases hstep
        exact ⟨hsame, trivial⟩
  · cases hstep
    exact ⟨hsame, trivial⟩
  · cases hstep
    exact ⟨hsame, hproc, rfl⟩
  · cases hstep
    exact ⟨hsame, trivial⟩
  · cases hstep
    exact ⟨h.close pid _, trivial⟩
  · cases hstep

/-- Before anything runs, files under final names are buffers of earlier calls;
temporary files hold anything. -/
structure CacheStart (before : Hash → List Byte → Prop) (s : CacheSystem) : Prop where
  dir : DirInv before s.shared
  idle : ∀ pid, s.locals pid = .idle

def readWrite : ℕ → Cache := fun _ => ⟨true, true⟩

def sampleHash : Hash := ⟨List.replicate 20 0, rfl⟩

/-- A directory with an abandoned temporary file. -/
def staleTmp (bytes : List Byte) : CacheSystem :=
  ⟨⟨fun path => if path = cachefileTmp sampleHash then some 0 else none, fun _ => bytes,
    fun _ => none, 1⟩, fun _ => .idle⟩

theorem cacheStart_staleTmp (bytes : List Byte) :
    CacheStart (fun _ _ => False) (staleTmp bytes) := by
  have hdir : ∀ {path : List Char} {i : ℕ}, (staleTmp bytes).shared.dir path = some i →
      path = cachefileTmp sampleHash ∧ i = 0 := by
    intro path i hi
    simp only [staleTmp] at hi
    split at hi
    · next hpath => exact ⟨hpath, (Option.some.inj hi).symm⟩
    · cases hi
  refine ⟨⟨⟨?_, ?_⟩, ?_⟩, fun _ => rfl⟩
  · intro p q i hp hq
    rw [(hdir hp).1, (hdir hq).1]
  · intro p i hp
    rw [(hdir hp).2]
    exact Nat.zero_lt_one
  · intro hash i hi
    exact absurd (hdir hi).1 (cachefile_ne_tmp hash sampleHash)

/-- In a run whose `Put`s all pass a clean check, a `Get` that hits returns a
file that is the whole buffer of some `Put` with the same hash. -/
theorem runCache_getHit (caches : ℕ → Cache) (before : Hash → List Byte → Prop)
    (s₀ s : CacheSystem) (events : List (ℕ × CacheEvent)) (hstart : CacheStart before s₀)
    (hrun : runCache caches s₀ events = some s)
    (hclean : Guarded (interleave (cacheStep caches)) CleanStep s₀ events) (pid : ℕ) (hash : Hash)
    (fd size : ℕ) (hhit : s.locals pid = .getHit hash fd size) :
    size = (s.shared.content fd).length ∧
      (before hash (s.shared.content fd) ∨
        ∃ q, (q, CacheEvent.put hash (s.shared.content fd)) ∈ events) := by
  let called : Hash → List Byte → Prop := fun hash buf =>
    before hash buf ∨ ∃ q, (q, CacheEvent.put hash buf) ∈ events
  have hstart' : Inv (DirInv called) (ProcInv called) s₀ := by
    refine ⟨⟨hstart.dir.wf, fun hash i hi => Or.inl (hstart.dir.real hash i hi)⟩, ?_⟩
    intro pid
    rw [hstart.idle pid]
    trivial
  have hinv : Inv (DirInv called) (ProcInv called) s := by
    refine run_invariant ?_ hstart' hclean hrun
    intro e he t t' ht hok hstep
    have hcall : ∀ hash buf, e.2 = .put hash buf → called hash buf := by
      intro hash buf hput
      exact Or.inr ⟨e.1, by rw [← hput]; exact he⟩
    refine ht.step hstep ?_
    intro fs' proc' hact
    obtain ⟨⟨hdir, hleaves⟩, hproc⟩ :=
      cacheStep_keeps hcall ht.shared (ht.locals e.1) hok hact
    exact ⟨⟨hdir, hproc⟩, fun q hq proc hother => hleaves.procInv hq hother⟩
  have hproc := hinv.locals pid
  rw [hhit] at hproc
  exact ⟨hproc.2, hproc.1.called⟩

/-- A `Put` in two writes, then a `Get`. -/
def shortWrites : List (ℕ × CacheEvent) :=
  [(0, .put sampleHash [1, 2, 3]), (0, .ok), (0, .ok), (0, .ok), (0, .written 2),
    (0, .written 1), (0, .ok), (1, .get sampleHash), (1, .ok), (1, .ok)]

theorem runCache_getHit_short :
    ∃ s, runCache readWrite (staleTmp [9]) shortWrites = some s ∧
      s.locals 1 = .getHit sampleHash 0 3 ∧ 3 = (s.shared.content 0).length := by
  obtain ⟨s, hrun⟩ : ∃ s, runCache readWrite (staleTmp [9]) shortWrites =
      some s := Option.isSome_iff_exists.mp (by decide +kernel)
  have hlocal : (runCache readWrite (staleTmp [9]) shortWrites).map
      (fun s => s.locals 1) = some (.getHit sampleHash 0 3) := by
    decide +kernel
  rw [hrun, Option.map_some, Option.some.injEq] at hlocal
  exact ⟨s, hrun, hlocal, (runCache_getHit _ _ _ s _ (cacheStart_staleTmp [9]) hrun
    (by decide +kernel) 1 sampleHash 0 3 hlocal).1⟩

/-- A `Put` that reuses a longer temporary file. -/
def staleRun : List (ℕ × CacheEvent) :=
  [(0, .put sampleHash [9]), (0, .ok), (0, .ok), (0, .ok), (0, .written 1), (0, .ok),
    (1, .get sampleHash), (1, .ok), (1, .ok)]

/-- Process 0 fails to write and removes the temporary name while process 1 has
the file open.  Process 1 locks the nameless file, and in the end renames what
process 2 has only begun to write. -/
def orphanRun : List (ℕ × CacheEvent) :=
  [(0, .put sampleHash [7]), (0, .ok), (0, .ok), (0, .ok), (1, .put sampleHash [8]), (1, .ok),
    (0, .fail), (0, .ok), (0, .ok), (1, .ok), (1, .ok), (1, .written 1),
    (2, .put sampleHash [5, 6]), (2, .ok), (2, .ok), (2, .ok), (2, .written 1), (1, .ok),
    (3, .get sampleHash), (3, .ok), (3, .ok)]

theorem runCache_getHit_torn :
    (∃ s, runCache readWrite (staleTmp [1, 2, 3]) staleRun = some s ∧
      s.locals 1 = .getHit sampleHash 0 3 ∧ s.shared.content 0 = [9, 2, 3] ∧
      ∀ q, (q, CacheEvent.put sampleHash (s.shared.content 0)) ∉ staleRun) ∧
    ∃ s, runCache readWrite (staleTmp []) orphanRun = some s ∧
      s.locals 3 = .getHit sampleHash 1 1 ∧ s.shared.content 1 = [5] ∧
      ∀ q, (q, CacheEvent.put sampleHash (s.shared.content 1)) ∉ orphanRun := by
  constructor
  · have hview : (runCache readWrite (staleTmp [1, 2, 3]) staleRun).map
        (fun s => (s.locals 1, s.shared.content 0)) =
        some (.getHit sampleHash 0 3, [9, 2, 3]) := by
      decide +kernel
    obtain ⟨s, hrun, hs⟩ := Option.map_eq_some_iff.mp hview
    obtain ⟨hlocal, hcontent⟩ := Prod.mk.inj hs
    refine ⟨s, hrun, hlocal, hcontent, ?_⟩
    rw [hcontent]
    simp [staleRun]
  · have hview : (runCache readWrite (staleTmp []) orphanRun).map
        (fun s => (s.locals 3, s.shared.content 1)) =
        some (.getHit sampleHash 1 1, [5]) := by
      decide +kernel
    obtain ⟨s, hrun, hs⟩ := Option.map_eq_some_iff.mp hview
    obtain ⟨hlocal, hcontent⟩ := Prod.mk.inj hs
    refine ⟨s, hrun, hlocal, hcontent, ?_⟩
    rw [hcontent]
    simp [orphanRun]

/-! ## Published objects stay -/

/-- Only a `Put` that renames its file touches the final name. -/
theorem cacheStep_dir {caches : ℕ → Cache} {event : CacheEvent} {proc proc' : CacheProc}
    (hne : ∀ buf fd, proc ≠ .putRename hash buf fd)
    (hstep : cacheStep caches pid event fs proc = some (fs', proc')) :
    fs'.dir (cachefile hash) = fs.dir (cachefile hash) := by
  have hclose : ∀ i, (fs.close pid i).dir (cachefile hash) = fs.dir (cachefile hash) :=
    fun i => congrFun (fs.dir_close pid i) _
  have htmp : ∀ (h : Hash) (i : Option ℕ), Function.update fs.dir (cachefileTmp h) i
      (cachefile hash) = fs.dir (cachefile hash) :=
    fun h i => Function.update_of_ne (cachefile_ne_tmp hash h) _ _
  unfold cacheStep at hstep
  split at hstep
  all_goals try split at hstep
  all_goals try split at hstep
  all_goals try cases hstep
  all_goals try first | rfl | exact hclose _ | exact htmp _ _
  -- What is left are the steps that open, lock and rename the temporary file.
  · rcases fs.openCreate_cases (cachefileTmp _) with ⟨i, -, heq⟩ | ⟨-, heq⟩
    · rw [heq]
    · rw [heq]
      exact htmp _ _
  · next hlock =>
    obtain ⟨-, rfl⟩ := FileSystem.setLock_eq_some hlock
    rfl
  · next other buf fd _ hren =>
    obtain ⟨i, -, rfl⟩ := Option.map_eq_some_iff.mp hren
    have hother : hash ≠ other := fun heq => hne buf fd (by rw [heq])
    exact (Function.update_of_ne (cachefile_ne_tmp hash other) _ _).trans
      (Function.update_of_ne (cachefile_ne hother) _ _)

/-- The invariant of clean runs, whatever was put. -/
def CacheOk : CacheSystem → Prop := Inv (DirInv fun _ _ => True) (ProcInv fun _ _ => True)

theorem CacheOk.step {caches : ℕ → Cache} {s s' : CacheSystem} {e : ℕ × CacheEvent}
    (h : CacheOk s) (hclean : CleanStep s e)
    (hstep : interleave (cacheStep caches) s e = some s') :
    CacheOk s' ∧ ∀ {hash : Hash} {i : ℕ}, s.shared.dir (cachefile hash) = some i →
      s'.shared.dir (cachefile hash) = some i ∧ s'.shared.content i = s.shared.content i := by
  refine ⟨Inv.step h hstep fun fs' proc' hact => ?_, ?_⟩
  · obtain ⟨⟨hdir, hleaves⟩, hproc⟩ :=
      cacheStep_keeps (fun _ _ _ => trivial) h.shared (h.locals e.1) hclean hact
    exact ⟨⟨hdir, hproc⟩, fun q hq proc hother => hleaves.procInv hq hother⟩
  · obtain ⟨⟨fs', proc'⟩, hact, rfl⟩ := Option.map_eq_some_iff.mp hstep
    intro hash i hi
    have hfree : ∀ buf fd, s.locals e.1 ≠ .putRename hash buf fd := by
      intro buf fd hproc
      have howns := h.locals e.1
      rw [hproc] at howns
      exact absurd (hi.symm.trans howns.2.1.real) (by simp)
    obtain ⟨⟨-, hleaves⟩, -⟩ :=
      cacheStep_keeps (fun _ _ _ => trivial) h.shared (h.locals e.1) hclean hact
    exact ⟨(cacheStep_dir hfree hact).trans hi, (hleaves.published (h.shared.published hi)).2⟩

/-- In a clean run an object that is published keeps its file and its content, so all later
calls of `Get` for the hash return the same object. -/
theorem runCache_keeps_published {caches : ℕ → Cache} {before : Hash → List Byte → Prop}
    {s₀ s s' : CacheSystem} {events later : List (ℕ × CacheEvent)} (hstart : CacheStart before s₀)
    (hrun : runCache caches s₀ events = some s)
    (hclean : Guarded (interleave (cacheStep caches)) CleanStep s₀ events)
    (hlater : runCache caches s later = some s')
    (hcleanLater : Guarded (interleave (cacheStep caches)) CleanStep s later) {i : ℕ}
    (hi : s.shared.dir (cachefile hash) = some i) :
    s'.shared.dir (cachefile hash) = some i ∧ s'.shared.content i = s.shared.content i := by
  have hstart' : CacheOk s₀ := by
    refine ⟨⟨hstart.dir.wf, fun _ _ _ => trivial⟩, fun pid => ?_⟩
    rw [hstart.idle pid]
    trivial
  have hok : CacheOk s :=
    run_invariant (fun _ _ _ _ h hclean hstep => (h.step hclean hstep).1) hstart' hclean hrun
  refine (run_invariant (P := fun t => CacheOk t ∧ t.shared.dir (cachefile hash) = some i ∧
    t.shared.content i = s.shared.content i) ?_ ⟨hok, hi, rfl⟩ hcleanLater hlater).2
  intro e _ t t' ⟨ht, hdir, hcontent⟩ hclean hstep
  obtain ⟨ht', hkeep⟩ := ht.step hclean hstep
  exact ⟨ht', (hkeep hdir).1, (hkeep hdir).2.trans hcontent⟩

/-- Another `Put` for the hash of `shortWrites`. -/
def secondPut : List (ℕ × CacheEvent) :=
  [(2, .put sampleHash [7]), (2, .ok), (2, .ok), (2, .ok), (2, .ok)]

theorem runCache_keeps_published_short :
    ∃ s s', runCache readWrite (staleTmp [9]) shortWrites = some s ∧
      runCache readWrite s secondPut = some s' ∧
      s'.shared.dir (cachefile sampleHash) = some 0 ∧
        s'.shared.content 0 = s.shared.content 0 := by
  obtain ⟨s, hrun⟩ : ∃ s, runCache readWrite (staleTmp [9]) shortWrites = some s :=
    Option.isSome_iff_exists.mp (by decide +kernel)
  have hlater : ∀ s ∈ runCache readWrite (staleTmp [9]) shortWrites,
      s.shared.dir (cachefile sampleHash) = some 0 ∧ (runCache readWrite s secondPut).isSome ∧
        Guarded (interleave (cacheStep readWrite)) CleanStep s secondPut := by
    decide +kernel
  obtain ⟨hi, hsome, hclean⟩ := hlater s hrun
  obtain ⟨s', hs'⟩ := Option.isSome_iff_exists.mp hsome
  exact ⟨s, s', hrun, hs', runCache_keeps_published (cacheStart_staleTmp [9]) hrun
    (by decide +kernel) hs' hclean hi⟩

end PollyInstrew.Server
