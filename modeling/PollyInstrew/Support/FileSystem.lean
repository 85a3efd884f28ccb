import Mathlib.Tactic.Common

/-!
# Files, names and advisory locks

A directory maps paths to inodes; open files keep using their inode whatever
becomes of the name.  Record locks belong to a process and are lost when the
process closes any descriptor of the inode or dies.
-/

namespace PollyInstrew

/-- The files of a directory; inodes from `next` on are unused. -/
structure FileSystem (Path β : Type*) where
  dir : Path → Option ℕ
  content : ℕ → List β
  lock : ℕ → Option ℕ
  next : ℕ

namespace FileSystem

variable {Path β : Type*} [DecidableEq Path]

/-- `open` with `O_CREAT`. -/
def openCreate (fs : FileSystem Path β) (path : Path) : FileSystem Path β × ℕ :=
  match fs.dir path with
  | some i => (fs, i)
  | none =>
      ({ fs with
         dir := Function.update fs.dir path (some fs.next)
         content := Function.update fs.content fs.next []
         next := fs.next + 1 }, fs.next)

/-- `fcntl` with `F_SETLK` and `F_WRLCK`; fails if another process has the lock. -/
def setLock (fs : FileSystem Path β) (pid i : ℕ) : Option (FileSystem Path β) :=
  if fs.lock i = none ∨ fs.lock i = some pid then
    some { fs with lock := Function.update fs.lock i (some pid) }
  else none

/-- The content after `bytes` were written at `off`; a gap reads as `zero`. -/
def overwrite (zero : β) (content : List β) (off : ℕ) (bytes : List β) : List β :=
  (content ++ List.replicate (off - content.length) zero).take off ++ bytes ++
    content.drop (off + bytes.length)

/-- `write` of `bytes` at the file offset `off`. -/
def write (zero : β) (fs : FileSystem Path β) (i off : ℕ) (bytes : List β) :
    FileSystem Path β :=
  { fs with content := Function.update fs.content i (overwrite zero (fs.content i) off bytes) }

/-- `rename`; fails if there is no file of the old name. -/
def rename (fs : FileSystem Path β) (old new : Path) : Option (FileSystem Path β) :=
  (fs.dir old).map fun i =>
    { fs with dir := Function.update (Function.update fs.dir new (some i)) old none }

def unlink (fs : FileSystem Path β) (path : Path) : FileSystem Path β :=
  { fs with dir := Function.update fs.dir path none }

/-- `close` of a descriptor of the inode. -/
def close (fs : FileSystem Path β) (pid i : ℕ) : FileSystem Path β :=
  if fs.lock i = some pid then { fs with lock := Function.update fs.lock i none } else fs

/-- The process dies. -/
def exit (fs : FileSystem Path β) (pid : ℕ) : FileSystem Path β :=
  { fs with lock := fun i => if fs.lock i = some pid then none else fs.lock i }

/-- Names have an inode of their own, which is in use. -/
structure WF (fs : FileSystem Path β) : Prop where
  inj : ∀ {p q : Path} {i : ℕ}, fs.dir p = some i → fs.dir q = some i → p = q
  lt : ∀ {p : Path} {i : ℕ}, fs.dir p = some i → i < fs.next

theorem overwrite_prefix {zero : β} {content buf : List β} {off n : ℕ}
    (htake : content.take off = buf.take off) (hoff : off ≤ content.length)
    (hn : off + n ≤ buf.length) :
    overwrite zero content off ((buf.drop off).take n) =
      buf.take (off + n) ++ content.drop (off + n) := by
  have hlen : ((buf.drop off).take n).length = n := by
    rw [List.length_take, List.length_drop]
    omega
  rw [overwrite, Nat.sub_eq_zero_of_le hoff, List.replicate_zero, List.append_nil, htake, hlen,
    List.take_add]

omit [DecidableEq Path] in
theorem content_write_of_ne {zero : β} {fs : FileSystem Path β} {i j off : ℕ} {bytes : List β}
    (h : j ≠ i) : (fs.write zero i off bytes).content j = fs.content j :=
  Function.update_of_ne h _ _

omit [DecidableEq Path] in
theorem content_write_self (zero : β) (fs : FileSystem Path β) (i off : ℕ) (bytes : List β) :
    (fs.write zero i off bytes).content i = overwrite zero (fs.content i) off bytes :=
  Function.update_self _ _ _

omit [DecidableEq Path] in
@[simp] theorem dir_close (fs : FileSystem Path β) (pid i : ℕ) : (fs.close pid i).dir = fs.dir := by
  unfold close
  split <;> rfl

omit [DecidableEq Path] in
@[simp] theorem content_close (fs : FileSystem Path β) (pid i : ℕ) :
    (fs.close pid i).content = fs.content := by
  unfold close
  split <;> rfl

omit [DecidableEq Path] in
@[simp] theorem next_close (fs : FileSystem Path β) (pid i : ℕ) :
    (fs.close pid i).next = fs.next := by
  unfold close
  split <;> rfl

omit [DecidableEq Path] in
/-- Closing a file takes no lock from another process. -/
theorem lock_close {fs : FileSystem Path β} {pid q i j : ℕ} (hq : q ≠ pid)
    (h : fs.lock j = some q) : (fs.close pid i).lock j = some q := by
  unfold close
  split
  · next hlock =>
    have hji : j ≠ i := by
      rintro rfl
      rw [h] at hlock
      exact hq (Option.some.inj hlock)
    exact (Function.update_of_ne hji _ _).trans h
  · exact h

omit [DecidableEq Path] in
theorem lock_exit {fs : FileSystem Path β} {pid q j : ℕ} (hq : q ≠ pid)
    (h : fs.lock j = some q) : (fs.exit pid).lock j = some q := by
  have hne : fs.lock j ≠ some pid := by
    rw [h]
    exact fun heq => hq (Option.some.inj heq)
  exact (if_neg hne).trans h

omit [DecidableEq Path] in
/-- What `setLock` does when it succeeds. -/
theorem setLock_eq_some {fs fs' : FileSystem Path β} {pid i : ℕ}
    (h : fs.setLock pid i = some fs') :
    (∀ q, q ≠ pid → fs.lock i ≠ some q) ∧
      fs' = { fs with lock := Function.update fs.lock i (some pid) } := by
  unfold setLock at h
  split at h
  · next hfree =>
    refine ⟨?_, (Option.some.inj h).symm⟩
    intro q hq hlock
    rw [hlock] at hfree
    rcases hfree with hfree | hfree
    · cases hfree
    · exact hq (Option.some.inj hfree)
  · cases h

theorem openCreate_cases (fs : FileSystem Path β) (path : Path) :
    (∃ i, fs.dir path = some i ∧ fs.openCreate path = (fs, i)) ∨
      (fs.dir path = none ∧ fs.openCreate path =
        ({ fs with
           dir := Function.update fs.dir path (some fs.next)
           content := Function.update fs.content fs.next []
           next := fs.next + 1 }, fs.next)) := by
  unfold openCreate
  cases fs.dir path with
  | some i => exact Or.inl ⟨i, rfl, rfl⟩
  | none => exact Or.inr ⟨rfl, rfl⟩

theorem WF.openCreate {fs : FileSystem Path β} (h : fs.WF) (path : Path) :
    (fs.openCreate path).1.WF := by
  rcases fs.openCreate_cases path with ⟨i, -, heq⟩ | ⟨-, heq⟩
  · rw [heq]
    exact h
  · rw [heq]
    have horigin : ∀ {p : Path} {i : ℕ},
        Function.update fs.dir path (some fs.next) p = some i →
        (p = path ∧ i = fs.next) ∨ fs.dir p = some i := by
      intro p i hp
      rw [Function.update_apply] at hp
      split at hp
      · next hpath => exact Or.inl ⟨hpath, (Option.some.inj hp).symm⟩
      · exact Or.inr hp
    constructor
    · intro p q i hp hq
      rcases horigin hp with ⟨rfl, rfl⟩ | hp' <;> rcases horigin hq with ⟨rfl, hi⟩ | hq'
      · rfl
      · exact absurd (h.lt hq') (Nat.lt_irrefl _)
      · subst hi
        exact absurd (h.lt hp') (Nat.lt_irrefl _)
      · exact h.inj hp' hq'
    · intro p i hp
      rcases horigin hp with ⟨-, rfl⟩ | hp'
      · exact Nat.lt_succ_self _
      · exact Nat.lt_succ_of_lt (h.lt hp')

theorem WF.rename {fs fs' : FileSystem Path β} (h : fs.WF) {old new : Path}
    (hren : fs.rename old new = some fs') : fs'.WF := by
  obtain ⟨i, hi, rfl⟩ := Option.map_eq_some_iff.mp hren
  have horigin : ∀ {p : Path} {j : ℕ},
      Function.update (Function.update fs.dir new (some i)) old none p = some j →
      (p = new ∧ j = i) ∨ (p ≠ old ∧ fs.dir p = some j) := by
    intro p j hp
    rw [Function.update_apply] at hp
    split at hp
    · cases hp
    · next hold =>
      rw [Function.update_apply] at hp
      split at hp
      · next hnew => exact Or.inl ⟨hnew, (Option.some.inj hp).symm⟩
      · exact Or.inr ⟨hold, hp⟩
  constructor
  · intro p q j hp hq
    rcases horigin hp with ⟨rfl, rfl⟩ | ⟨hpo, hp'⟩ <;>
      rcases horigin hq with ⟨rfl, hj⟩ | ⟨hqo, hq'⟩
    · rfl
    · exact absurd (h.inj hq' hi) hqo
    · subst hj
      exact absurd (h.inj hp' hi) hpo
    · exact h.inj hp' hq'
  · intro p j hp
    rcases horigin hp with ⟨-, rfl⟩ | ⟨-, hp'⟩
    · exact h.lt hi
    · exact h.lt hp'

theorem WF.unlink {fs : FileSystem Path β} (h : fs.WF) (path : Path) : (fs.unlink path).WF := by
  have hold : ∀ {p : Path} {j : ℕ}, (fs.unlink path).dir p = some j → fs.dir p = some j := by
    intro p j hp
    change Function.update fs.dir path none p = some j at hp
    rw [Function.update_apply] at hp
    split at hp
    · cases hp
    · exact hp
  exact ⟨fun hp hq => h.inj (hold hp) (hold hq), fun hp => h.lt (hold hp)⟩

end FileSystem

end PollyInstrew
