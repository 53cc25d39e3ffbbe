import Triliteral.Proofs.LocalEdits

/-!
Requests that edit a scheme. What such a request does depends on the placeholders and on the scheme
that its name stands for, and it changes nothing but what this name stands for.
-/

namespace Triliteral

namespace Request

def editedScheme? : Request → Option String
  | .addScheme name _ | .addExplicitScheme name _ _ | .modifyScheme name _ | .removeScheme name =>
    some name
  | _ => none

/-- Holds of a request that edits a name only, and of which the placeholders and what the name
stands for tell the answer and the edit. -/
def Edits (name : String) (request : Request) : Prop :=
  ∀ (p : Placeholders) (found : Option Scheme), ∃ response change,
    EditsAt Registry.Sorted Registry.find? name change ∧ ∀ (now : Occasion) (engine : Engine),
      engine.placeholders = p → engine.registry.find? name = found →
        engine.perform now request = (response, { engine with registry := change engine.registry })

end Request

namespace Engine

open Registry Request

theorem edits_register {request : Request} {name : String}
    (check : Placeholders → Except Fault Scheme)
    (hname : ∀ p scheme, check p = .ok scheme → scheme.name = name)
    (hperform : ∀ now (engine : Engine), engine.perform now request = engine.settleDone (do
      let scheme ← check engine.placeholders
      let registry ← engine.registry.add scheme
      return { engine with registry })) : Edits name request := by
  intro p found
  cases hcheck : check p with
  | error fault =>
      refine ⟨.refused fault, id, .refl name, ?_⟩
      rintro now engine rfl -
      rw [hperform, hcheck]
      rfl
  | ok scheme =>
      obtain rfl := hname p scheme hcheck
      cases found with
      | some other =>
          refine ⟨.refused (.duplicateScheme scheme.name), id, .refl _, ?_⟩
          rintro now engine rfl hfound
          rw [hperform, hcheck, ok_bind, add, hfound]
          rfl
      | none =>
          refine ⟨.done, put scheme, editsAt_put scheme, ?_⟩
          rintro now engine rfl hfound
          rw [hperform, hcheck, ok_bind, add_eq_ok_iff.mpr ⟨hfound, rfl⟩, put_of_free hfound]
          rfl

theorem edits_addScheme (name : String) (category : Category) :
    Edits name (.addScheme name category) := by
  refine edits_register (Scheme.dynamic · name category) ?_ fun _ _ => rfl
  intro p scheme hscheme
  obtain ⟨-, pattern, -, rfl⟩ := Scheme.compiled_eq_ok_iff.mp hscheme
  rfl

theorem edits_addExplicitScheme (name : String) (category : Category) (word : Root → String) :
    Edits name (.addExplicitScheme name category word) := by
  refine edits_register (fun _ => Scheme.explicit name category word) ?_ fun _ _ => rfl
  intro p scheme hscheme
  obtain ⟨-, rfl⟩ := Scheme.explicit_eq_ok_iff.mp hscheme
  rfl

theorem edits_modifyScheme (name pattern : String) : Edits name (.modifyScheme name pattern) := by
  intro p found
  cases found with
  | none =>
      refine ⟨.refused (.schemeNotFound name), id, .refl name, ?_⟩
      rintro now engine rfl hfound
      rw [perform, modifyScheme, Registry.modify, Registry.get, hfound]
      rfl
  | some scheme =>
      cases hpattern : Pattern.compile p pattern with
      | error fault =>
          refine ⟨.refused fault, id, .refl name, ?_⟩
          rintro now engine rfl hfound
          rw [perform, modifyScheme, Registry.modify, Registry.get, hfound, hpattern]
          rfl
      | ok compiled =>
          refine ⟨.done, (·.update name fun scheme => { scheme with rule := .compiled compiled }),
            editsAt_update name fun _ => rfl, ?_⟩
          rintro now engine rfl hfound
          rw [perform, modifyScheme,
            modify_eq_ok_iff.mpr ⟨⟨scheme, hfound⟩, compiled, hpattern, rfl⟩]
          rfl

theorem edits_removeScheme (name : String) : Edits name (.removeScheme name) := by
  intro p found
  cases found with
  | none =>
      refine ⟨.refused (.schemeNotFound name), id, .refl name, ?_⟩
      rintro now engine rfl hfound
      rw [perform, removeScheme, remove, Registry.get, hfound]
      rfl
  | some scheme =>
      refine ⟨.done, (·.without name), editsAt_without name, ?_⟩
      rintro now engine rfl hfound
      rw [perform, removeScheme, remove_eq_ok_iff.mpr ⟨hfound, rfl⟩]
      rfl

theorem edits_of_editedScheme? {request : Request} {name : String}
    (h : request.editedScheme? = some name) : Edits name request := by
  cases request with
  | addScheme edited category => exact Option.some.inj h ▸ edits_addScheme edited category
  | addExplicitScheme edited category word =>
      exact Option.some.inj h ▸ edits_addExplicitScheme edited category word
  | modifyScheme edited pattern => exact Option.some.inj h ▸ edits_modifyScheme edited pattern
  | removeScheme edited => exact Option.some.inj h ▸ edits_removeScheme edited
  | _ => cases h

end Engine

end Triliteral
