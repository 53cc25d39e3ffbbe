import Triliteral.Instant.Epoch
import Triliteral.Proofs.MemoryFiles
import Triliteral.Proofs.SnapshotText
import Triliteral.Storage

/-!
Snapshots in files. What is saved is loaded again; only a usage too large for the format keeps
a snapshot from being saved to a file that can be written.
-/

namespace Triliteral.Storage

open MemoryFiles

variable {snapshot : Snapshot} {files : MemoryFiles} {path text : String}

theorem save_of_none (h : snapshot.toToml? = none) :
    files.perform (save path snapshot) = (.error (.snapshot .unwritable), files) := by
  rw [save, h]
  rfl

theorem save_of_some (h : snapshot.toToml? = some text) :
    ∃ directories, files.perform (save path snapshot) =
      if files.ParentReachable path then
        if path ∈ files.failing then
          (.error (.io (.write path)), { files with directories })
        else (.ok (), { files with directories }.put path text)
      else (.error (.io (.createParent path)), { files with directories }) := by
  obtain ⟨directories, hparent⟩ := ensureParent_run files path
  refine ⟨directories, ?_⟩
  rw [save, h]
  rw [perform_lift_bind hparent]
  by_cases hreachable : files.ParentReachable path
  · have hwrite := write_run { files with directories } path text
    rw [decide_eq_true hreachable, if_pos hreachable]
    by_cases hfailing : path ∈ files.failing
    · rw [if_pos hfailing] at hwrite ⊢
      exact perform_lift_bind hwrite _
    · rw [if_neg hfailing] at hwrite ⊢
      exact perform_lift_bind hwrite _
  · simp only [hreachable, decide_false]
    rfl

/-- Saving either fails and changes no file, or succeeds and writes the one file. -/
theorem save_cases (files : MemoryFiles) (path : String) (snapshot : Snapshot) :
    (∃ failure directories,
      files.perform (save path snapshot) = (.error failure, { files with directories })) ∨
    ∃ text directories, snapshot.toToml? = some text ∧
      files.perform (save path snapshot) =
        (.ok (), { files with directories }.put path text) := by
  cases htext : snapshot.toToml? with
  | none => exact .inl ⟨_, files.directories, save_of_none htext⟩
  | some text =>
      obtain ⟨directories, hsave⟩ := @save_of_some snapshot files path text htext
      split at hsave
      · split at hsave
        · exact .inl ⟨_, directories, hsave⟩
        · exact .inr ⟨text, directories, rfl, hsave⟩
      · exact .inl ⟨_, directories, hsave⟩

theorem perform_readFile (files : MemoryFiles) (path : String) (access : Access) :
    files.perform (readFile path access) =
      (match files.read? path with
        | some text => .ok text
        | none => .error (.io access), files) := by
  rw [readFile, perform_lift_bind (read_run files path)]
  cases files.read? path <;> rfl

theorem loadRoots_run (files : MemoryFiles) (path : String) (engine : Engine) :
    files.perform (loadRoots path engine) =
      (match files.read? path with
        | some text => .ok (engine.loadRoots (RootsFile.candidates text))
        | none => .error (.io (.readRoots path)), files) := by
  have hfile := perform_readFile files path (.readRoots path)
  cases hread : files.read? path with
  | some text =>
      rw [hread] at hfile
      exact perform_bind_of_ok (perform_bind_of_ok hfile _) _
  | none =>
      rw [hread] at hfile
      exact perform_bind_of_error (perform_bind_of_error hfile _) _

def loaded (files : MemoryFiles) (path : String) : Except Failure (Option Snapshot) :=
  match files.contents.lookup path with
  | none => .ok none
  | some text =>
    if path ∈ files.failing then .error (.io (.read path))
    else
      match Snapshot.ofToml? text with
      | some snapshot => .ok (some snapshot)
      | none => .error (.snapshot (.malformed path))

theorem load_run (files : MemoryFiles) (path : String) :
    files.perform (load path) = (loaded files path, files) := by
  rw [load, perform_lift_bind (exists_run files path), loaded]
  cases hcontent : files.contents.lookup path with
  | none => rfl
  | some text =>
      have hfile := perform_readFile files path (.read path)
      simp only [Option.isSome_some, if_true]
      by_cases hpath : path ∈ files.failing
      · rw [MemoryFiles.read?, if_pos (List.contains_iff_mem.mpr hpath)] at hfile
        rw [perform_bind_of_error hfile, if_pos hpath]
      · rw [MemoryFiles.read?, if_neg (by simpa using hpath), hcontent] at hfile
        rw [perform_bind_of_ok hfile, if_neg hpath]
        cases Snapshot.ofToml? text <;> rfl

theorem load_of_content (hpath : path ∉ files.failing)
    (hcontent : files.contents.lookup path = some text)
    (hsnapshot : Snapshot.ofToml? text = some snapshot) :
    files.perform (load path) = (.ok (some snapshot), files) := by
  simp only [load_run, loaded, hcontent, if_neg hpath, hsnapshot]

theorem save_snapshotFault_iff :
    (∃ fault, (files.perform (save path snapshot)).1 = .error (.snapshot fault)) ↔
      ∃ record ∈ snapshot.schemes, Toml.maxInteger < record.usage.toNat := by
  rw [← Snapshot.toToml?_eq_none_iff]
  cases htext : snapshot.toToml? with
  | none =>
      rw [save_of_none htext]
      exact ⟨fun _ => rfl, fun _ => ⟨_, rfl⟩⟩
  | some text =>
      obtain ⟨directories, hsave⟩ := @save_of_some snapshot files path text htext
      rw [hsave]
      split
      · split <;> simp
      · simp

/-- Only a usage too large for the format makes the writing of a snapshot fail. Any other
snapshot has a text that describes it and nothing else; where the file can be written it then
holds this text, and the same snapshot is loaded from it. -/
theorem load_save {snapshot : Snapshot} (hyears : snapshot.HasFourDigitYears) :
    (∀ (files : MemoryFiles) (path : String),
      (∃ fault, (files.perform (save path snapshot)).1 = .error (.snapshot fault)) ↔
        ∃ record ∈ snapshot.schemes, Toml.maxInteger < record.usage.toNat) ∧
    ((∀ record ∈ snapshot.schemes, record.usage.toNat ≤ Toml.maxInteger) →
      ∃ text, snapshot.toToml? = some text ∧ Snapshot.ofToml? text = some snapshot ∧
        ∀ (files : MemoryFiles) (path : String),
          files.ParentReachable path → path ∉ files.failing →
          ∃ after, files.perform (save path snapshot) = (.ok (), after) ∧
            after.contents.lookup path = some text ∧
            after.perform (load path) = (.ok (some snapshot), after)) := by
  refine ⟨fun files path => save_snapshotFault_iff, fun husage => ?_⟩
  cases htext : snapshot.toToml? with
  | none =>
      obtain ⟨record, hrecord, hlarge⟩ := Snapshot.toToml?_eq_none_iff.mp htext
      exact absurd (husage record hrecord) (Nat.not_le.mpr hlarge)
  | some text =>
      have hread := Snapshot.ofToml?_toToml? hyears htext
      refine ⟨text, rfl, hread, ?_⟩
      intro files path hreachable hpath
      obtain ⟨directories, hsave⟩ := @save_of_some snapshot files path text htext
      rw [if_pos hreachable, if_neg hpath] at hsave
      have hcontent := lookup_put { files with directories } path text
      refine ⟨_, hsave, hcontent, ?_⟩
      exact @load_of_content snapshot ({ files with directories }.put path text) path text hpath
        hcontent hread

/-- A snapshot with texts for every kind of string, with empty lists and with fractions of
seconds. -/
def awkwardSnapshot : Snapshot where
  schemes :=
    [⟨"\"\"\"\\\n'''", some "", true, .custom, 9223372036854775807⟩,
      ⟨"\t\r", none, false, .verb, 0⟩]
  roots :=
    [⟨"", []⟩,
      ⟨"\u007f'\n\"\"\"",
        [⟨"C:\\'", "'''", Instant.ofEpoch 1000⟩, ⟨"\u0000", "\n", Instant.ofEpoch 0⟩]⟩]

theorem load_save_awkward :
    ∃ text after, awkwardSnapshot.toToml? = some text ∧
      Snapshot.ofToml? text = some awkwardSnapshot ∧
      MemoryFiles.perform ⟨[], [], []⟩ (save "data/state.toml" awkwardSnapshot) =
        (.ok (), after) ∧
      after.perform (load "data/state.toml") = (.ok (some awkwardSnapshot), after) := by
  have hyears : awkwardSnapshot.HasFourDigitYears := by decide
  obtain ⟨-, hsave⟩ := load_save hyears
  obtain ⟨text, htext, hread, hfile⟩ := hsave (by decide)
  obtain ⟨after, hsaved, -, hload⟩ := hfile ⟨[], [], []⟩ "data/state.toml" (by decide) (by decide)
  exact ⟨text, after, htext, hread, hsaved, hload⟩

end Triliteral.Storage
