import Triliteral.Engine.InPlace
import Triliteral.Proofs.TreeDerivations
import Triliteral.Proofs.RegistryOrder

/-!
The programs that change an engine step by step do what the operations on engines say: each of
them either is done to its end or fails before it has changed anything.
-/

namespace Triliteral

namespace Response

def outcome : Response → Except Fault Response
  | .refused fault => .error fault
  | response => .ok response

end Response

namespace InPlace

/-! ### Steps of programs -/

section Steps

variable {α β : Type} (engine : Engine)

@[simp] theorem attempt_pure (value : α) : attempt (pure value) engine = (.ok value, engine) :=
  rfl

@[simp] theorem attempt_throw (fault : Fault) :
    attempt (throw fault : InPlace α) engine = (.error fault, engine) :=
  rfl

@[simp] theorem attempt_get : attempt get engine = (.ok engine, engine) :=
  rfl

@[simp] theorem attempt_modify (change : Engine → Engine) :
    attempt (modify change) engine = (.ok ⟨⟩, change engine) :=
  rfl

@[simp] theorem attempt_modifyGet (change : Engine → α × Engine) :
    attempt (modifyGet change) engine = (.ok (change engine).1, (change engine).2) :=
  rfl

@[simp] theorem attempt_look (check : Engine → Except Fault α) :
    attempt (look check) engine = (check engine, engine) := by
  change attempt (MonadExcept.ofExcept (check engine)) engine = _
  cases check engine <;> rfl

@[simp] theorem attempt_bind (program : InPlace α) (rest : α → InPlace β) :
    attempt (program >>= rest) engine =
      match program.attempt engine with
      | (.ok value, next) => (rest value).attempt next
      | (.error fault, next) => (.error fault, next) := by
  change (ExceptT.bindCont rest (program.attempt engine).1).run (program.attempt engine).2 = _
  obtain ⟨outcome, next⟩ := program.attempt engine
  cases outcome <;> rfl

@[simp] theorem attempt_tryCatch (program : InPlace α) (handle : Fault → InPlace α) :
    attempt (tryCatch program handle) engine =
      match program.attempt engine with
      | (.ok value, next) => (.ok value, next)
      | (.error fault, next) => (handle fault).attempt next := by
  have hrun : StateT.run program engine = (pure (program.attempt engine) : Id _) := rfl
  rw [attempt, tryCatch, instMonadExceptOfMonadExceptOf]
  simp only [tryCatchThe, MonadExceptOf.tryCatch, ExceptT.tryCatch, ExceptT.run_mk,
    StateT.run_bind, hrun, pure_bind]
  obtain ⟨outcome, next⟩ := program.attempt engine
  cases outcome <;> rfl

end Steps

/-! ### Operations -/

/-- The outcome of an operation that is done as a whole or not at all, and the engine it
leaves. -/
def settled {α : Type} (engine : Engine) :
    Except Fault (α × Engine) → Except Fault α × Engine
  | .ok (value, next) => (.ok value, next)
  | .error fault => (.error fault, engine)

section Operations

variable (engine : Engine)

theorem attempt_addRoot (text : String) :
    (addRoot text).attempt engine = settled engine ((engine.addRoot text).map ((), ·)) := by
  rw [addRoot, Engine.addRoot]
  cases Root.ofText? text with
  | none => rfl
  | some root =>
      simp only [insertRoot, attempt_bind, attempt_modifyGet]
      rw [RootTree.insert]
      cases engine.tree.contains root <;> rfl

theorem attempt_loadRoot (report : LoadReport) (text : String) :
    (loadRoot report text).attempt engine =
      (.ok (Engine.loadRoot (report, engine) text).1,
        (Engine.loadRoot (report, engine) text).2) := by
  simp only [loadRoot, attempt_tryCatch, attempt_bind, attempt_addRoot, Engine.loadRoot]
  cases engine.addRoot text with
  | ok next => rfl
  | error fault => cases fault <;> rfl

theorem attempt_loadRoots (texts : List String) :
    (loadRoots texts).attempt engine =
      (.ok (engine.loadRoots texts).1, (engine.loadRoots texts).2) := by
  have hfold : ∀ (report : LoadReport) (engine : Engine),
      attempt (texts.foldlM loadRoot report) engine =
        (.ok (texts.foldl Engine.loadRoot (report, engine)).1,
          (texts.foldl Engine.loadRoot (report, engine)).2) := by
    induction texts with
    | nil =>
        intro report engine
        rfl
    | cons text texts ih =>
        intro report engine
        simp only [List.foldlM_cons, attempt_bind, attempt_loadRoot, List.foldl_cons]
        exact ih _ _
  exact hfold ⟨0, 0, 0⟩ engine

theorem attempt_register (check : Engine → Except Fault Scheme) :
    attempt (look check >>= register) engine =
      settled engine (Except.map ((), ·) do
        let scheme ← check engine
        let registry ← engine.registry.add scheme
        return { engine with registry }) := by
  simp only [attempt_bind, attempt_look]
  cases check engine with
  | error fault => rfl
  | ok scheme =>
      simp only [register, setRegistry, attempt_bind, attempt_look, ok_bind]
      cases engine.registry.add scheme <;> rfl

theorem attempt_addScheme (name : String) (category : Category) :
    (addScheme name category).attempt engine =
      settled engine ((engine.addScheme name category).map ((), ·)) :=
  attempt_register engine fun engine => Scheme.dynamic engine.placeholders name category

theorem attempt_addExplicitScheme (name : String) (category : Category)
    (word : Root → String) :
    (addExplicitScheme name category word).attempt engine =
      settled engine ((engine.addExplicitScheme name category word).map ((), ·)) :=
  attempt_register engine fun _ => Scheme.explicit name category word

theorem attempt_modifyScheme (name pattern : String) :
    (modifyScheme name pattern).attempt engine =
      settled engine ((engine.modifyScheme name pattern).map ((), ·)) := by
  simp only [modifyScheme, changeScheme, attempt_bind, attempt_look, Engine.modifyScheme,
    Registry.modify]
  cases engine.registry.get name with
  | error fault => rfl
  | ok scheme =>
      simp only [ok_bind]
      cases Pattern.compile engine.placeholders pattern <;> rfl

theorem attempt_removeScheme (name : String) :
    (removeScheme name).attempt engine =
      settled engine ((engine.removeScheme name).map ((), ·)) := by
  simp only [removeScheme, setRegistry, attempt_bind, attempt_get, attempt_modify,
    Engine.removeScheme, Registry.remove, Registry.get]
  cases hfound : engine.registry.find? name with
  | some scheme => rfl
  | none =>
      change (Except.error _, { engine with registry := engine.registry.without name }) = _
      rw [Registry.without_of_find?_eq_none hfound]
      rfl

/-- A stored root has three letters, so that a scheme does not fail on its text. -/
theorem wordOfText_text (scheme : Scheme) (root : Root) :
    scheme.wordOfText root.text = .ok (scheme.word root) := by
  rw [Scheme.wordOfText, Root.ofText?_text]

theorem producersOfText_text (registry : Registry) (root : Root) (word : String) :
    registry.producersOfText root.text word = registry.producers root word := by
  simp only [Registry.producersOfText, Scheme.makes, wordOfText_text, Registry.producers]

theorem tree_record_of_old {text : String} {node : RootTree.Node}
    (hfound : engine.findRoot text = .ok node) {derivation : Derivation}
    (hold : derivation.word ∈ node.entry.derivations.map Derivation.word) :
    engine.tree.record node.entry.root derivation = engine.tree := by
  rw [Engine.findRoot, RootTree.findText?_eq] at hfound
  cases hroot : Root.ofText? text with
  | none => simp [hroot] at hfound
  | some root =>
      cases hnode : engine.tree.find? root with
      | none => simp [hroot, hnode] at hfound
      | some found =>
          obtain rfl : found = node := by simpa [hroot, hnode] using hfound
          obtain ⟨rfl, hrecord⟩ := RootTree.record_of_find? hnode hold
          exact hrecord

theorem attempt_record {text : String} {node : RootTree.Node}
    (hfound : engine.findRoot text = .ok node) (derivation : Derivation) :
    (record text derivation).attempt engine =
      (.ok (!node.entry.derivations.any fun earlier => earlier.word == derivation.word),
        { engine with tree := engine.tree.record node.entry.root derivation }) := by
  simp only [record, attempt_bind, attempt_look, hfound]
  split
  · next hold =>
    rw [tree_record_of_old engine hfound (Derivation.any_word_iff.mp hold), hold]
    rfl
  · next hnew =>
    rw [Bool.not_eq_true] at hnew
    rw [hnew]
    rfl

/-- A scheme that was found is still there after any change to the tree. -/
theorem attempt_countUse {name : String} {scheme : Scheme}
    (hscheme : engine.registry.get name = .ok scheme) (tree : RootTree) :
    (countUse name).attempt { engine with tree } =
      (.ok (), { engine with tree, registry := engine.registry.countUse name }) := by
  simp only [countUse, changeScheme, attempt_bind, attempt_look, hscheme, attempt_modify,
    Registry.countUse]

theorem attempt_generate (now : Occasion) (text name : String) :
    (generate now text name).attempt engine =
      settled engine (engine.generate now text name) := by
  simp only [generate, attempt_bind, attempt_look, Engine.generate]
  cases hfound : engine.findRoot text with
  | error fault => rfl
  | ok node =>
      simp only [ok_bind]
      cases hscheme : engine.registry.get name with
      | error fault => rfl
      | ok scheme =>
          simp only [ok_bind, wordOfText_text, attempt_record engine hfound]
          cases hold : node.entry.derivations.any fun earlier =>
              earlier.word == scheme.word node.entry.root with
          | true =>
              rw [tree_record_of_old engine hfound (Derivation.any_word_iff.mp hold)]
              rfl
          | false =>
              simp only [Bool.not_false, if_pos, attempt_bind, attempt_countUse engine hscheme]
              rfl

theorem attempt_validate (now : Occasion) (text word : String) :
    (validate now text word).attempt engine =
      settled engine (engine.validate now text word) := by
  simp only [validate, attempt_bind, attempt_look, attempt_get, Engine.validate]
  cases hfound : engine.findRoot text with
  | error fault => rfl
  | ok node =>
      simp only [ok_bind, producersOfText_text]
      cases hproducers : engine.registry.producers node.entry.root word with
      | nil => rfl
      | cons name names =>
          simp only [attempt_bind, attempt_record engine hfound]
          rfl

end Operations

/-! ### Requests -/

variable {engine : Engine}

theorem attempt_answer {α : Type} {answer : α → Response}
    (hanswer : ∀ value, (answer value).outcome = .ok (answer value)) {program : InPlace α}
    {operation : Except Fault (α × Engine)}
    (hprogram : program.attempt engine = settled engine operation) :
    attempt (program >>= fun value => pure (answer value)) engine =
      ((engine.settle answer operation).1.outcome, (engine.settle answer operation).2) := by
  rw [attempt_bind, hprogram]
  cases operation with
  | error fault => rfl
  | ok result =>
      obtain ⟨value, next⟩ := result
      rw [Engine.settle, hanswer]
      rfl

/-- A request answered in place is answered as by the operations on engines, and leaves the
engine that they leave. -/
theorem attempt_perform (now : Occasion) (engine : Engine) (request : Request) :
    (perform now request).attempt engine =
      ((engine.perform now request).1.outcome, (engine.perform now request).2) := by
  cases request with
  | addRoot text => exact attempt_answer (fun _ => rfl) (attempt_addRoot engine text)
  | loadRoots texts =>
      rw [perform, attempt_bind, attempt_loadRoots]
      rfl
  | addScheme name category =>
      exact attempt_answer (fun _ => rfl) (attempt_addScheme engine name category)
  | addExplicitScheme name category word =>
      exact attempt_answer (fun _ => rfl) (attempt_addExplicitScheme engine name category word)
  | modifyScheme name pattern =>
      exact attempt_answer (fun _ => rfl) (attempt_modifyScheme engine name pattern)
  | removeScheme name => exact attempt_answer (fun _ => rfl) (attempt_removeScheme engine name)
  | generate root scheme =>
      exact attempt_answer (fun _ => rfl) (attempt_generate engine now root scheme)
  | validate root word =>
      exact attempt_answer (fun _ => rfl) (attempt_validate engine now root word)
  | derivations root =>
      rw [perform, attempt_bind, attempt_look, Engine.perform]
      cases engine.derivations root <;> rfl
  | analyze | listRoots | listSchemes | schemesOf | popular | snapshot | reload => rfl

theorem run_eq (engine : Engine) (steps : List (Occasion × Request)) :
    run engine steps = ((engine.run steps).1.map Response.outcome, (engine.run steps).2) := by
  induction steps generalizing engine with
  | nil => rfl
  | cons step rest ih =>
      obtain ⟨now, request⟩ := step
      rw [run, attempt_perform, Engine.run]
      simp only [ih, List.map_cons]

end InPlace

end Triliteral
