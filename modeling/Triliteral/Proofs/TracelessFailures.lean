import Triliteral.Proofs.AtomicStorage

/-!
Sessions that go on after failures. A deed that fails may make directories, which nothing ever looks
at; apart from them a session is what it would have been without the deeds that failed in it.
-/

namespace Triliteral.Storage

open MemoryFiles

variable {settings : Settings} {p : Placeholders} {engine engine' : Engine}
  {files files' after : MemoryFiles}

/-! ### Deeds -/

theorem attempt_get (engine : Engine) (files : MemoryFiles) :
    attempt engine files (get : Holding Run Engine) = ⟨.ok engine, engine, files⟩ :=
  rfl

theorem attempt_answerHeld (now : Occasion) (request : Request) (engine : Engine)
    (files : MemoryFiles) :
    attempt engine files (answerHeld now request) =
      match engine.perform now request with
      | (.refused fault, _) => ⟨.error (.refused fault), engine, files⟩
      | (_, next) => ⟨.ok (), next, files⟩ := by
  rw [answerHeld, attempt_bind_of_ok (attempt_get engine files)]
  rcases engine.perform now request with ⟨response, next⟩
  cases response <;> rfl

theorem attempt_loadHeld (path : String) (engine : Engine) (files : MemoryFiles) :
    attempt engine files (loadHeld path) =
      match files.read? path with
      | some text => ⟨.ok (), (engine.loadRoots (RootsFile.candidates text)).2, files⟩
      | none => ⟨.error (.io (.readRoots path)), engine, files⟩ := by
  rw [loadHeld, attempt_bind_of_ok (attempt_get engine files)]
  have hload := attempt_aside engine files
    (loadRoots path engine : ExceptT Failure Run (LoadReport × Engine))
  rw [loadRoots_run] at hload
  cases hread : files.read? path with
  | some text =>
      rw [hread] at hload
      exact attempt_bind_of_ok hload _
  | none =>
      rw [hread] at hload
      exact attempt_bind_of_error hload _

/-- The same files, whatever directories were made for them. -/
def SameFiles (a b : MemoryFiles) : Prop :=
  a.contents = b.contents ∧ a.failing = b.failing

theorem SameFiles.trans {a b c : MemoryFiles} (hab : SameFiles a b) (hbc : SameFiles b c) :
    SameFiles a c :=
  ⟨hab.1.trans hbc.1, hab.2.trans hbc.2⟩

theorem SameFiles.symm {a b : MemoryFiles} (h : SameFiles a b) : SameFiles b a :=
  ⟨h.1.symm, h.2.symm⟩

/-- No deed looks at the directories. -/
theorem Deed.attempt_congr {deed : Deed} {result : Except Failure Unit}
    (h : attempt engine files (deed.program settings p) = ⟨result, engine', after⟩)
    (hfiles : SameFiles files' files) :
    ∃ after', attempt engine files' (deed.program settings p) = ⟨result, engine', after'⟩ ∧
      SameFiles after' after := by
  obtain ⟨contents, directories, failing⟩ := files
  obtain ⟨contents', directories', failing'⟩ := files'
  obtain ⟨rfl, rfl⟩ : contents' = contents ∧ failing' = failing := hfiles
  -- What is read and what fails is computed from the contents and the failing paths alone.
  cases deed with
  | answer now request =>
      rw [program, attempt_answerHeld] at h ⊢
      generalize engine.perform now request = answer at h ⊢
      split at h <;> (cases h; exact ⟨_, rfl, rfl, rfl⟩)
  | loadRoots path =>
      have hread : MemoryFiles.read? ⟨contents', directories', failing'⟩ path =
        MemoryFiles.read? ⟨contents', directories, failing'⟩ path := rfl
      rw [program, attempt_loadHeld] at h ⊢
      rw [hread]
      split at h <;> (cases h; exact ⟨_, rfl, rfl, rfl⟩)
  | persist =>
      obtain ⟨made, hleft, -⟩ :=
        attempt_persistHeld settings engine ⟨contents', directories, failing'⟩
      obtain ⟨made', hleft', -⟩ :=
        attempt_persistHeld settings engine ⟨contents', directories', failing'⟩
      have hreason : persistFailure? settings engine ⟨contents', directories', failing'⟩ =
        persistFailure? settings engine ⟨contents', directories, failing'⟩ := rfl
      rw [program, hleft] at h
      rw [program, hleft', hreason]
      split at h <;> (cases h; exact ⟨_, rfl, rfl, rfl⟩)
  | reopen =>
      have hopened : opened settings p ⟨contents', directories', failing'⟩ =
        opened settings p ⟨contents', directories, failing'⟩ := rfl
      rw [program, attempt_reopen] at h ⊢
      rw [hopened]
      split at h <;> (cases h; exact ⟨_, rfl, rfl, rfl⟩)

theorem Deed.attempt_of_error {deed : Deed} {failure : Failure}
    (h : attempt engine files (deed.program settings p) = ⟨.error failure, engine', after⟩) :
    engine' = engine ∧ SameFiles after files := by
  cases deed with
  | answer now request =>
      rw [program, attempt_answerHeld] at h
      split at h <;> cases h
      exact ⟨rfl, rfl, rfl⟩
  | loadRoots path =>
      rw [program, attempt_loadHeld] at h
      split at h <;> cases h
      exact ⟨rfl, rfl, rfl⟩
  | persist =>
      obtain ⟨made, hleft, -⟩ := attempt_persistHeld settings engine files
      rw [program, hleft] at h
      split at h <;> cases h
      exact ⟨rfl, rfl, rfl⟩
  | reopen =>
      rw [program, attempt_reopen] at h
      split at h <;> cases h
      exact ⟨rfl, rfl, rfl⟩

/-! ### Sessions -/

/-- Does one deed after the other, going on whether or not they succeed. -/
def session (settings : Settings) (p : Placeholders) :
    List Deed → Engine → MemoryFiles → List (Except Failure Unit) × Engine × MemoryFiles
  | [], engine, files => ([], engine, files)
  | deed :: rest, engine, files =>
    let left := attempt engine files (deed.program settings p)
    let (results, last) := session settings p rest left.engine left.files
    (left.result :: results, last)

def succeeded (deeds : List Deed) (results : List (Except Failure Unit)) : List Deed :=
  ((deeds.zip results).filter fun attempted => attempted.2.isOk).map Prod.fst

theorem session_cons {deed : Deed} {result : Except Failure Unit}
    (h : attempt engine files (deed.program settings p) = ⟨result, engine', after⟩)
    (rest : List Deed) :
    session settings p (deed :: rest) engine files =
      (result :: (session settings p rest engine' after).1,
        (session settings p rest engine' after).2) := by
  rw [session, h]

theorem session_succeeded (deeds : List Deed) (engine : Engine) {files files' : MemoryFiles}
    (hfiles : SameFiles files' files) :
    let whole := session settings p deeds engine files
    let kept := session settings p (succeeded deeds whole.1) engine files'
    (∀ result ∈ kept.1, result = .ok ()) ∧ kept.2.1 = whole.2.1 ∧
      SameFiles kept.2.2 whole.2.2 := by
  induction deeds generalizing engine files files' with
  | nil => exact ⟨List.forall_mem_nil _, rfl, hfiles⟩
  | cons deed rest ih =>
      rcases hleft : attempt engine files (deed.program settings p) with ⟨result, engine', after⟩
      rw [session_cons hleft]
      cases result with
      | error failure =>
          obtain ⟨rfl, hafter⟩ := Deed.attempt_of_error hleft
          exact ih engine' (hfiles.trans hafter.symm)
      | ok value =>
          obtain ⟨after', hleft', hafter⟩ := Deed.attempt_congr hleft hfiles
          obtain ⟨hresults, hlast⟩ := ih engine' hafter
          intro whole kept
          have hkept : kept = _ :=
            session_cons hleft' (succeeded rest (session settings p rest engine' after).1)
          rw [hkept]
          exact ⟨List.forall_mem_cons.mpr ⟨rfl, hresults⟩, hlast⟩

/-- Failures leave no trace in a session, but for directories. Whatever is done in it and whatever
fails, the same session without the deeds that failed runs without a failure, ends with the same
engine, and leaves the same contents of all files. -/
theorem failures_leave_no_trace (settings : Settings) (p : Placeholders) (deeds : List Deed)
    (engine : Engine) (files : MemoryFiles) :
    let whole := session settings p deeds engine files
    let kept := session settings p (succeeded deeds whole.1) engine files
    (∀ result ∈ kept.1, result = .ok ()) ∧ kept.2.1 = whole.2.1 ∧
      kept.2.2.contents = whole.2.2.contents := by
  obtain ⟨hresults, hengine, hcontents, -⟩ :=
    @session_succeeded settings p deeds engine files files ⟨rfl, rfl⟩
  exact ⟨hresults, hengine, hcontents⟩

end Triliteral.Storage
