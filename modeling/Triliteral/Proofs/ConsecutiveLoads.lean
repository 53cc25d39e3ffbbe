import Triliteral.Engine.Basic

/-!
Loads one after the other. Loading two lists comes to the same as loading them as one list; what is
counted of the one and of the other adds up.
-/

namespace Triliteral

attribute [ext] LoadReport

namespace LoadReport

/-- Reports of consecutive loads add up count by count. -/
instance : Add LoadReport where
  add a b := ⟨a.added + b.added, a.duplicates + b.duplicates, a.invalid + b.invalid⟩

@[simp] theorem added_add (a b : LoadReport) : (a + b).added = a.added + b.added := rfl

@[simp] theorem duplicates_add (a b : LoadReport) :
    (a + b).duplicates = a.duplicates + b.duplicates := rfl

@[simp] theorem invalid_add (a b : LoadReport) : (a + b).invalid = a.invalid + b.invalid := rfl

def total (report : LoadReport) : Nat :=
  report.added + report.duplicates + report.invalid

theorem total_add (a b : LoadReport) : (a + b).total = a.total + b.total := by
  simp only [total, added_add, duplicates_add, invalid_add]
  omega

theorem add_assoc (a b c : LoadReport) : a + b + c = a + (b + c) := by
  ext <;> simp [Nat.add_assoc]

theorem none_add (report : LoadReport) : ⟨0, 0, 0⟩ + report = report := by
  ext <;> simp

theorem add_none (report : LoadReport) : report + ⟨0, 0, 0⟩ = report :=
  rfl

end LoadReport

namespace Engine

/-- One candidate is counted in the same way whatever was counted before. -/
theorem loadRoot_eq_add (report : LoadReport) (engine : Engine) (text : String) :
    loadRoot (report, engine) text =
      (report + (engine.loadRoots [text]).1, (engine.loadRoots [text]).2) := by
  rw [loadRoots, List.foldl_cons, List.foldl_nil, loadRoot, loadRoot]
  cases engine.addRoot text with
  | ok next => rfl
  | error fault => cases fault <;> rfl

theorem foldl_loadRoot_eq_add (texts : List String) (report : LoadReport) (engine : Engine) :
    texts.foldl loadRoot (report, engine) =
      (report + (engine.loadRoots texts).1, (engine.loadRoots texts).2) := by
  induction texts generalizing report engine with
  | nil => rw [List.foldl_nil, loadRoots, List.foldl_nil, LoadReport.add_none]
  | cons text texts ih =>
      rw [loadRoots, List.foldl_cons, List.foldl_cons, loadRoot_eq_add, ih,
        loadRoot_eq_add ⟨0, 0, 0⟩, ih, LoadReport.none_add, LoadReport.add_assoc]

theorem loadRoots_append (engine : Engine) (texts later : List String) :
    engine.loadRoots (texts ++ later) =
      ((engine.loadRoots texts).1 + ((engine.loadRoots texts).2.loadRoots later).1,
        ((engine.loadRoots texts).2.loadRoots later).2) := by
  rw [loadRoots, List.foldl_append, foldl_loadRoot_eq_add texts, foldl_loadRoot_eq_add later,
    LoadReport.none_add]

theorem loadRoots_nil (engine : Engine) : engine.loadRoots [] = (⟨0, 0, 0⟩, engine) :=
  rfl

theorem loadRoots_cons (engine : Engine) (text : String) (texts : List String) :
    engine.loadRoots (text :: texts) =
      ((engine.loadRoots [text]).1 + ((engine.loadRoots [text]).2.loadRoots texts).1,
        ((engine.loadRoots [text]).2.loadRoots texts).2) :=
  engine.loadRoots_append [text] texts

end Engine

end Triliteral
