import Triliteral.Engine.Request
import Triliteral.Proofs.ConsecutiveLoads
import Triliteral.Proofs.RegistryOrder

/-!
Views of engines. A view of a scheme may forget anything but its name, so that a registry answers
and changes as its view does. What an operation does is known from a view if the view can be taken
of the engine before it as well as after it.
-/

namespace Triliteral

namespace Registry

def map (view : Scheme → Scheme) (registry : Registry) : Registry :=
  ⟨registry.schemes.map view⟩

section Views

variable {view : Scheme → Scheme} (hname : ∀ scheme, (view scheme).name = scheme.name)
include hname

theorem find?_map (registry : Registry) (name : String) :
    (registry.map view).find? name = (registry.find? name).map view := by
  rw [find?, map, List.find?_map, find?]
  simp only [Function.comp_def, hname]

theorem get_map (registry : Registry) (name : String) :
    (registry.map view).get name = (registry.get name).map view := by
  rw [get, find?_map hname, get]
  cases registry.find? name <;> rfl

theorem map_insertByName (scheme : Scheme) (schemes : List Scheme) :
    (insertByName scheme schemes).map view = insertByName (view scheme) (schemes.map view) := by
  induction schemes with
  | nil => rfl
  | cons head rest ih =>
      rw [insertByName, List.map_cons, insertByName, hname, hname]
      by_cases hlt : head.name < scheme.name
      · rw [if_pos hlt, if_pos hlt, List.map_cons, ih]
      · rw [if_neg hlt, if_neg hlt, List.map_cons, List.map_cons]

theorem add_map (registry : Registry) (scheme : Scheme) :
    (registry.map view).add (view scheme) = (registry.add scheme).map (map view) := by
  rw [add, hname, find?_map hname, add]
  cases registry.find? scheme.name with
  | some other => rfl
  | none =>
      refine congrArg Except.ok ?_
      simp only [map, map_insertByName hname]

theorem update_map (registry : Registry) (name : String) {change change' : Scheme → Scheme}
    (hchange : ∀ scheme, view (change scheme) = change' (view scheme)) :
    (registry.map view).update name change' = (registry.update name change).map view := by
  simp only [update, map, List.map_map]
  congr 1
  refine List.map_congr_left fun scheme _ => ?_
  simp only [Function.comp_apply, hname]
  split
  · exact (hchange scheme).symm
  · rfl

theorem remove_map (registry : Registry) (name : String) :
    (registry.map view).remove name = (registry.remove name).map (Prod.map view (map view)) := by
  rw [remove, get_map hname, remove]
  cases registry.get name with
  | error fault => rfl
  | ok scheme =>
      refine congrArg Except.ok (Prod.ext rfl (congrArg Registry.mk ?_))
      simp only [map, List.filter_map, Function.comp_def, hname]

theorem producers_map (hword : ∀ scheme, (view scheme).word = scheme.word) (registry : Registry)
    (root : Root) (word : String) :
    (registry.map view).producers root word = registry.producers root word := by
  simp only [producers, map, List.filter_map, List.map_map, Function.comp_def, hname, hword]

end Views

end Registry

namespace Engine

def view (trees : RootTree → RootTree) (schemes : Scheme → Scheme) (engine : Engine) : Engine where
  tree := trees engine.tree
  registry := engine.registry.map schemes
  placeholders := engine.placeholders

variable {trees : RootTree → RootTree} {schemes : Scheme → Scheme}

section Roots

variable (hinsert : ∀ tree root,
  (trees tree).insert root = ((tree.insert root).1, trees (tree.insert root).2))
include hinsert

theorem addRoot_view (engine : Engine) (text : String) :
    (engine.view trees schemes).addRoot text = (engine.addRoot text).map (view trees schemes) := by
  rw [addRoot, addRoot]
  cases Root.ofText? text with
  | none => rfl
  | some root =>
      simp only [view, hinsert]
      rcases engine.tree.insert root with ⟨outcome, tree⟩
      cases outcome <;> rfl

theorem loadRoot_view (report : LoadReport) (engine : Engine) (text : String) :
    loadRoot (report, engine.view trees schemes) text =
      (loadRoot (report, engine) text).map id (view trees schemes) := by
  rw [loadRoot, addRoot_view hinsert, loadRoot]
  cases engine.addRoot text with
  | ok next => rfl
  | error fault => cases fault <;> rfl

theorem loadRoots_view (engine : Engine) (texts : List String) :
    (engine.view trees schemes).loadRoots texts =
      (engine.loadRoots texts).map id (view trees schemes) := by
  induction texts generalizing engine with
  | nil => rfl
  | cons text texts ih =>
      have hfirst : (engine.view trees schemes).loadRoots [text] =
          (engine.loadRoots [text]).map id (view trees schemes) :=
        loadRoot_view hinsert ⟨0, 0, 0⟩ engine text
      rw [loadRoots_cons (engine.view trees schemes), loadRoots_cons engine, hfirst, Prod.map_snd,
        ih]
      rfl

end Roots

section Schemes

variable (hname : ∀ scheme, (schemes scheme).name = scheme.name)
include hname

/-- Registering a scheme is seen as registering the view of it. -/
theorem map_view_register (engine : Engine) (check : Except Fault Scheme) :
    (do
      let scheme ← check
      let registry ← engine.registry.add scheme
      return { engine with registry }).map (view trees schemes) =
    (do
      let scheme ← check.map schemes
      let registry ← (engine.view trees schemes).registry.add scheme
      return { engine.view trees schemes with registry }) := by
  cases check with
  | error fault => rfl
  | ok scheme =>
      simp only [ok_bind, Except.map, view, Registry.add_map hname]
      cases engine.registry.add scheme <;> rfl

theorem removeScheme_view (engine : Engine) (name : String) :
    (engine.view trees schemes).removeScheme name =
      (engine.removeScheme name).map (view trees schemes) := by
  simp only [removeScheme, view, Registry.remove_map hname]
  cases engine.registry.remove name <;> rfl

end Schemes

/-! ### Answers -/

section Answers

variable {forget : Engine → Engine} {a b : Engine}

theorem settle_eq_of_view {α : Type} (h : forget a = forget b) (answer : α → Response)
    {outcome outcome' : Except Fault (α × Engine)}
    (houtcome : outcome.map (Prod.map id forget) = outcome'.map (Prod.map id forget)) :
    (a.settle answer outcome).1 = (b.settle answer outcome').1 ∧
      forget (a.settle answer outcome).2 = forget (b.settle answer outcome').2 := by
  cases outcome with
  | error fault =>
      cases outcome' with
      | error fault' =>
          obtain rfl : fault = fault' := Except.error.inj houtcome
          exact ⟨rfl, h⟩
      | ok value => cases houtcome
  | ok value =>
      cases outcome' with
      | error fault => cases houtcome
      | ok value' =>
          obtain ⟨hvalue, hnext⟩ := Prod.mk.inj (Except.ok.inj houtcome)
          exact ⟨congrArg answer hvalue, hnext⟩

theorem settleDone_eq_of_view (h : forget a = forget b) {outcome outcome' : Except Fault Engine}
    (houtcome : outcome.map forget = outcome'.map forget) :
    (a.settleDone outcome).1 = (b.settleDone outcome').1 ∧
      forget (a.settleDone outcome).2 = forget (b.settleDone outcome').2 := by
  apply settle_eq_of_view h fun _ => .done
  cases outcome <;> cases outcome' <;> simp_all [Except.map]

end Answers

end Engine

end Triliteral
