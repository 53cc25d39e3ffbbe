import Triliteral.Proofs.MemoryFiles
import Triliteral.Settings.Load

/-!
Layers of plain assignments. Where every key of a layer is the name of a setting and stands in it
once, the layer gives each setting the value that is assigned to it and leaves the others alone, in
whatever order it makes its assignments.
-/

namespace Triliteral.Settings

open Toml (Value)

/-- Holds of an assignment to a whole setting, of a value that is not merged into an older one. -/
structure Assignment.IsPlain (assignment : Assignment) : Prop where
  splitKey_eq : Layer.splitKey assignment.key = (assignment.key, false)
  value_ne : ∀ origin, assignment.value ≠ .table origin []

namespace Layer

variable {values : Values} {layer : List Assignment} {assignment : Assignment} {key : String}

theorem lookup_put_self (values : Values) (key : String) (value : Value) :
    (put values key value).lookup key = some value :=
  List.lookup_cons_self

theorem lookup_put_of_ne {other : String} (hne : other ≠ key) (values : Values) (value : Value) :
    (put values key value).lookup other = values.lookup other := by
  rw [put, List.lookup_cons, beq_false_of_ne hne]
  exact MemoryFiles.lookup_filter_of_ne hne values

theorem assign_of_isPlain (h : assignment.IsPlain) (values : Values) :
    assign values assignment = put values assignment.key assignment.value := by
  obtain ⟨key, value⟩ := assignment
  obtain ⟨hkey, hvalue⟩ := h
  dsimp only at hkey hvalue ⊢
  unfold assign
  rw [hkey]
  split
  · next heq => cases heq
  · next heq hempty => exact absurd hempty (hvalue _)
  · next heq _ => rw [(Prod.mk.inj heq).1]

theorem lookup_apply_of_not_mem (hplain : ∀ assignment ∈ layer, assignment.IsPlain)
    (hkey : key ∉ layer.map Assignment.key) (values : Values) :
    (apply values layer).lookup key = values.lookup key := by
  induction layer generalizing values with
  | nil => rfl
  | cons first layer ih =>
      obtain ⟨hfirst, hplain⟩ := List.forall_mem_cons.mp hplain
      rw [List.map_cons, List.mem_cons, not_or] at hkey
      rw [apply, List.foldl_cons, ← apply, ih hplain hkey.2, assign_of_isPlain hfirst,
        lookup_put_of_ne hkey.1]

theorem lookup_apply_of_mem (hplain : ∀ assignment ∈ layer, assignment.IsPlain)
    (hkeys : (layer.map Assignment.key).Nodup) (hmem : assignment ∈ layer) (values : Values) :
    (apply values layer).lookup assignment.key = some assignment.value := by
  induction layer generalizing values with
  | nil => exact absurd hmem List.not_mem_nil
  | cons first layer ih =>
      obtain ⟨hfirst, hplain⟩ := List.forall_mem_cons.mp hplain
      obtain ⟨hnew, hkeys⟩ := List.nodup_cons.mp hkeys
      rw [apply, List.foldl_cons, ← apply]
      rcases List.mem_cons.mp hmem with heq | hmem
      · rw [heq, lookup_apply_of_not_mem hplain hnew, assign_of_isPlain hfirst, lookup_put_self]
      · exact ih hplain hkeys hmem _

theorem ofEntries_perm (entries : Toml.Entries) :
    (ofEntries entries).Perm (entries.map fun entry => ⟨entry.1, entry.2⟩) :=
  (List.mergeSort_perm entries _).map _

end Layer

/-! ### Conversions -/

section Conversions

variable {α : Type} {values : Values} {key : String} {convert : Value → Option α}

theorem convert?_of_lookup {value : Value} {converted : α}
    (hlookup : values.lookup key = some value) (hconvert : convert value = some converted) :
    convert? values key convert = .ok (some converted) := by
  rw [convert?, hlookup]
  dsimp only
  rw [hconvert]

theorem convert?_of_absent (hlookup : values.lookup key = none) :
    convert? values key convert = .ok none := by
  rw [convert?, hlookup]

end Conversions

/-! ### Layers in files -/

open MemoryFiles

variable {files : MemoryFiles} {path text : String}

theorem findFile_of_read (hextension : Path.extension? path = some "toml")
    (hread : files.read? path = some text) :
    files.perform (findFile path) = (.ok (path, text), files) := by
  have habsolute : (Files.absolute path >>= Files.read? : Run (Option String)) files =
      (some text, files) := by
    have hjoin : Path.join "" path = path := if_pos (.inr rfl)
    rw [← hread]
    exact congrArg (fun absolute => (files.read? absolute, files)) hjoin
  rw [findFile, perform_lift_bind habsolute]
  simp only [if_pos hextension]
  rfl

/-- Without a global file and without the variables of the environment, a chosen file is the only
layer above the built-in one. -/
theorem loadFrom_of_read {entries : Toml.Entries} (hextension : Path.extension? path = some "toml")
    (hread : files.read? path = some text) (hentries : Toml.Entries.ofFreeText? text = some entries)
    (env : Environment) :
    files.perform (loadFrom env ⟨none, some path, false⟩) =
      (ofLayers env [defaults env, Layer.ofEntries entries], files) := by
  have hchosen : files.perform (requiredLayer path) = (.ok (Layer.ofEntries entries), files) := by
    refine (perform_bind_of_ok (findFile_of_read hextension hread) _).trans ?_
    change files.perform (liftM (parseFile path text)) = _
    rw [parseFile, hentries]
    rfl
  have hlayers : ∀ layer, files.perform (liftM (ofLayers env [defaults env, [], layer, []])) =
      (ofLayers env [defaults env, layer], files) := by
    intro layer
    change _ = (ofLayers env [defaults env, [], layer, []], files)
    cases ofLayers env [defaults env, [], layer, []] <;> rfl
  rw [loadFrom]
  have hglobal : files.perform (pure []) = (.ok ([] : List Assignment), files) := rfl
  rw [perform_bind_of_ok hglobal, perform_bind_of_ok hchosen]
  exact hlayers _

end Triliteral.Settings
