import Triliteral.Failure
import Triliteral.Files.Memory

/-!
Programs over files in memory, one access at a time.
-/

namespace Triliteral.MemoryFiles

def perform {α : Type} (files : MemoryFiles) (program : ExceptT Failure Run α) :
    Except Failure α × MemoryFiles :=
  program.run.run files

section Programs

variable {α β : Type} {files after : MemoryFiles}

theorem run_bind {access : Run α} {value : α} (h : access files = (value, after))
    (next : α → Run β) : (access >>= next) files = next value after := by
  change (next (access files).1) (access files).2 = _
  rw [h]

variable {program : ExceptT Failure Run α}

theorem perform_lift (access : Run α) :
    files.perform (liftM access) = (.ok (access files).1, (access files).2) := rfl

theorem perform_bind_of_ok {a : α} (h : files.perform program = (.ok a, after))
    (next : α → ExceptT Failure Run β) :
    files.perform (program >>= next) = after.perform (next a) := by
  rw [perform] at h
  rw [perform, ExceptT.run_bind, StateT.run_bind, h]
  rfl

theorem perform_bind_of_error {failure : Failure}
    (h : files.perform program = (.error failure, after)) (next : α → ExceptT Failure Run β) :
    files.perform (program >>= next) = (.error failure, after) := by
  rw [perform] at h
  rw [perform, ExceptT.run_bind, StateT.run_bind, h]
  rfl

theorem perform_lift_bind {value : α} {access : Run α} (h : access files = (value, after))
    (next : α → ExceptT Failure Run β) :
    files.perform (liftM access >>= next) = after.perform (next value) :=
  perform_bind_of_ok (by rw [perform_lift, h]) next

end Programs

/-! ### Programs that only read -/

/-- Holds of a program that changes no file. -/
def OnlyReads {α : Type} (program : ExceptT Failure Run α) : Prop :=
  ∀ files : MemoryFiles, (files.perform program).2 = files

section OnlyReads

variable {α β : Type} {program : ExceptT Failure Run α}

theorem onlyReads_pure (value : α) : OnlyReads (pure value) :=
  fun _ => rfl

theorem onlyReads_throw (failure : Failure) :
    OnlyReads (throw failure : ExceptT Failure Run α) :=
  fun _ => rfl

theorem onlyReads_liftExcept (outcome : Except Failure α) :
    OnlyReads (liftM outcome : ExceptT Failure Run α) := by
  cases outcome <;> exact fun _ => rfl

theorem onlyReads_lift {access : Run α} (h : ∀ files, (access files).2 = files) :
    OnlyReads (liftM access) :=
  h

theorem OnlyReads.bind (h : OnlyReads program) {next : α → ExceptT Failure Run β}
    (hnext : ∀ value, OnlyReads (next value)) : OnlyReads (program >>= next) := by
  intro files
  have hfiles := h files
  rcases hrun : files.perform program with ⟨failure | value, after⟩
  · rw [hrun] at hfiles
    rw [perform_bind_of_error hrun]
    exact hfiles
  · rw [hrun] at hfiles
    obtain rfl : after = files := hfiles
    rw [perform_bind_of_ok hrun]
    exact hnext value after

end OnlyReads

/-! ### Accesses -/

def ParentReachable (files : MemoryFiles) (path : String) : Prop :=
  ∀ directory, Path.parent? path = some directory →
    directory = "" ∨ directory ∉ files.failing

instance (files : MemoryFiles) (path : String) : Decidable (files.ParentReachable path) :=
  match h : Path.parent? path with
  | none => .isTrue (by simp [ParentReachable, h])
  | some directory =>
    decidable_of_iff (directory = "" ∨ directory ∉ files.failing) (by simp [ParentReachable, h])

theorem ParentReachable.congr {files other : MemoryFiles} {path : String}
    (h : files.ParentReachable path) (hfailing : other.failing = files.failing) :
    other.ParentReachable path := by
  rw [ParentReachable, hfailing]
  exact h

theorem exists_run (files : MemoryFiles) (path : String) :
    (Files.exists? path : Run Bool) files = ((files.contents.lookup path).isSome, files) := rfl

theorem read_run (files : MemoryFiles) (path : String) :
    (Files.read? path : Run (Option String)) files = (files.read? path, files) := rfl

/-- A change of the files that is refused at the failing paths. -/
theorem refusable_run (files : MemoryFiles) (path : String)
    (change : MemoryFiles → MemoryFiles) :
    StateT.run (do
        if (← get).failing.contains path then return false
        modify change
        return true : Run Bool) files =
      if path ∈ files.failing then (false, files) else (true, change files) := by
  split
  · next hfailing =>
    simp only [StateT.run_bind, StateT.run_get, pure_bind, List.contains_iff_mem,
      if_pos hfailing]
    rfl
  · next hfailing =>
    simp only [StateT.run_bind, StateT.run_get, pure_bind, List.contains_iff_mem,
      if_neg hfailing]
    rfl

theorem write_run (files : MemoryFiles) (path content : String) :
    (Files.write path content : Run Bool) files =
      if path ∈ files.failing then (false, files) else (true, files.put path content) :=
  refusable_run files path fun files => files.put path content

theorem createDirectories_run (files : MemoryFiles) (directory : String) :
    (Files.createDirectories directory : Run Bool) files =
      if directory ∈ files.failing then (false, files)
      else (true, files.makeDirectory directory) :=
  refusable_run files directory fun files => files.makeDirectory directory

theorem ensureParent_run (files : MemoryFiles) (path : String) :
    ∃ directories, (Files.ensureParent path : Run Bool) files =
      (decide (files.ParentReachable path), { files with directories }) := by
  rw [Files.ensureParent]
  cases hparent : Path.parent? path with
  | none =>
      have hreachable : files.ParentReachable path := by
        simp [ParentReachable, hparent]
      refine ⟨files.directories, ?_⟩
      rw [decide_eq_true hreachable]
      rfl
  | some directory =>
      have hiff : files.ParentReachable path ↔ directory = "" ∨ directory ∉ files.failing := by
        simp [ParentReachable, hparent]
      by_cases hempty : directory = ""
      · refine ⟨files.directories, ?_⟩
        rw [decide_eq_true (hiff.mpr (.inl hempty)), hempty]
        rfl
      · have hrun := createDirectories_run files directory
        simp only [String.isEmpty_iff, if_neg hempty]
        by_cases hfailing : directory ∈ files.failing
        · have hreachable : ¬ files.ParentReachable path := by
            simp [hiff, hempty, hfailing]
          rw [if_pos hfailing] at hrun
          refine ⟨files.directories, ?_⟩
          rw [decide_eq_false hreachable]
          exact hrun
        · rw [if_neg hfailing] at hrun
          refine ⟨(files.makeDirectory directory).directories, ?_⟩
          rw [decide_eq_true (hiff.mpr (.inr hfailing))]
          exact hrun

theorem lookup_put (files : MemoryFiles) (path content : String) :
    (files.put path content).contents.lookup path = some content := by
  simp [put]

theorem lookup_filter_of_ne {α : Type} {key other : String} (hne : other ≠ key)
    (entries : List (String × α)) :
    (entries.filter fun entry => entry.1 != key).lookup other = entries.lookup other := by
  induction entries with
  | nil => rfl
  | cons entry entries ih =>
      obtain ⟨name, value⟩ := entry
      by_cases hname : name = key
      · have hother : (other == name) = false := beq_false_of_ne (hname ▸ hne)
        rw [List.filter_cons_of_neg (by simp [hname]), ih, List.lookup_cons, hother]
      · rw [List.filter_cons_of_pos (by simp [hname]), List.lookup_cons, List.lookup_cons, ih]

theorem lookup_put_of_ne (files : MemoryFiles) {path other : String} (hne : other ≠ path)
    (content : String) :
    (files.put path content).contents.lookup other = files.contents.lookup other := by
  rw [put, List.lookup_cons, beq_false_of_ne hne]
  exact lookup_filter_of_ne hne files.contents

end Triliteral.MemoryFiles
