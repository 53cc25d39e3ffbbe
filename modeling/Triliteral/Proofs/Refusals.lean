import Triliteral.Proofs.EngineInvariants
import Triliteral.Proofs.InPlaceRuns

/-!
Why requests are refused. Objections to a request are raised in a fixed order; the request
fails for the first one that holds, and a request that fails has changed nothing.
-/

namespace Triliteral

/-- The fault to report if an objection holds. -/
def objection (holds : Prop) [Decidable holds] (fault : Fault) : Option Fault :=
  if holds then some fault else none

section

variable {holds : Prop} [Decidable holds] {fault : Fault}

theorem objection_of (h : holds) : objection holds fault = some fault :=
  if_pos h

theorem objection_of_not (h : ¬ holds) : objection holds fault = none :=
  if_neg h

end

namespace Engine

variable (engine : Engine)

def unknownRoot? (text : String) : Option Fault :=
  objection (text ∉ engine.listRoots) (.rootNotFound text)

def unknownScheme? (name : String) : Option Fault :=
  objection (name ∉ engine.registry.names) (.schemeNotFound name)

def takenName? (name : String) : Option Fault :=
  objection (name ∈ engine.registry.names) (.duplicateScheme name)

def blankName? (name : String) : Option Fault :=
  objection (name.toList.all Text.isBlank) .invalidSchemeName

/-- A pattern needs every symbol of the engine; the fault lists those that it lacks. -/
def deficientPattern? (pattern : String) : Option Fault :=
  let lacks (symbol : Char) : Bool := !pattern.toList.contains symbol
  objection (engine.placeholders.symbols.any lacks)
    (.invalidPattern pattern (String.ofList (engine.placeholders.symbols.filter lacks)))

def refusal? : Request → Option Fault
  | .addRoot text =>
    objection (text.length ≠ 3) (.invalidRoot text) <|>
      objection (text ∈ engine.listRoots) (.duplicateRoot text)
  | .addScheme name _ =>
      blankName? name <|> engine.deficientPattern? name <|> engine.takenName? name
  | .addExplicitScheme name _ _ => blankName? name <|> engine.takenName? name
  | .modifyScheme name pattern => engine.unknownScheme? name <|> engine.deficientPattern? pattern
  | .removeScheme name => engine.unknownScheme? name
  | .generate root scheme => engine.unknownRoot? root <|> engine.unknownScheme? scheme
  | .validate root _ | .derivations root => engine.unknownRoot? root
  | .loadRoots _ | .analyze _ | .listRoots | .listSchemes | .schemesOf _ | .popular _ | .snapshot
  | .reload _ => none

/-- No request is ever refused because a stored root would not have three letters. -/
theorem refusal?_ne_generationFailure (request : Request) (root scheme : String) :
    engine.refusal? request ≠ some (.generationFailure root scheme) := by
  cases request <;>
    simp [refusal?, unknownRoot?, unknownScheme?, takenName?, blankName?, deficientPattern?,
      objection]

end Engine

/-! ### Faults of checks -/

def faultOf? {α : Type} : Except Fault α → Option Fault
  | .ok _ => none
  | .error fault => some fault

theorem faultOf?_eq_some_iff {α : Type} {outcome : Except Fault α} {fault : Fault} :
    faultOf? outcome = some fault ↔ outcome = .error fault := by
  cases outcome <;> simp [faultOf?]

theorem faultOf?_map {α β : Type} (f : α → β) (outcome : Except Fault α) :
    faultOf? (outcome.map f) = faultOf? outcome := by
  cases outcome <;> rfl

theorem faultOf?_guard {α : Type} {holds : Prop} [Decidable holds] (fault : Fault)
    (rest : Except Fault α) :
    faultOf? (if holds then .error fault else rest) =
      (objection holds fault <|> faultOf? rest) := by
  by_cases h : holds
  · rw [if_pos h, objection_of h]
    rfl
  · rw [if_neg h, objection_of_not h]
    rfl

theorem faultOf?_bind_pure {α β : Type} (outcome : Except Fault α) (f : α → β) :
    faultOf? (outcome >>= fun a => pure (f a)) = faultOf? outcome := by
  cases outcome <;> rfl

theorem faultOf?_bind {α β : Type} {first : Except Fault α} {rest : α → Except Fault β}
    {second : Option Fault} (h : ∀ a, first = .ok a → faultOf? (rest a) = second) :
    faultOf? (first >>= rest) = (faultOf? first <|> second) := by
  cases first with
  | error fault => rfl
  | ok a =>
      rw [ok_bind, h a rfl]
      rfl

theorem Registry.faultOf?_get (registry : Registry) (name : String) :
    faultOf? (registry.get name) =
      objection (name ∉ registry.names) (.schemeNotFound name) := by
  rw [Registry.get]
  cases hfound : registry.find? name with
  | none =>
      rw [objection_of (Registry.not_mem_names_iff.mpr hfound)]
      rfl
  | some scheme =>
      rw [objection_of_not (not_not.mpr (Registry.mem_names_iff.mpr ⟨scheme, hfound⟩))]
      rfl

theorem Registry.faultOf?_add (registry : Registry) (scheme : Scheme) :
    faultOf? (registry.add scheme) =
      objection (scheme.name ∈ registry.names) (.duplicateScheme scheme.name) := by
  rw [Registry.add]
  cases hfound : registry.find? scheme.name with
  | none =>
      rw [objection_of_not (Registry.not_mem_names_iff.mpr hfound)]
      rfl
  | some other =>
      rw [objection_of (Registry.mem_names_iff.mpr ⟨other, hfound⟩)]
      rfl

namespace Engine

variable {engine : Engine}

theorem mem_listRoots_iff (hordered : engine.tree.Ordered) {text : String} :
    text ∈ engine.listRoots ↔ engine.tree.containsText text = true := by
  rw [RootTree.containsText_iff hordered, listRoots, List.mem_map]

theorem faultOf?_findRoot (hordered : engine.tree.Ordered) (text : String) :
    faultOf? (engine.findRoot text) = engine.unknownRoot? text := by
  simp only [unknownRoot?, mem_listRoots_iff hordered, RootTree.containsText, findRoot]
  cases engine.tree.findText? text <;> rfl

theorem faultOf?_addRoot (hordered : engine.tree.Ordered) (text : String) :
    faultOf? (engine.addRoot text) = engine.refusal? (.addRoot text) := by
  rw [refusal?, addRoot]
  cases hroot : Root.ofText? text with
  | none =>
      rw [objection_of (Root.ofText?_eq_none_iff.mp hroot)]
      rfl
  | some root =>
      have hlength : ¬ text.length ≠ 3 := by simp [← Root.ofText?_eq_none_iff, hroot]
      have hstored : text ∈ engine.listRoots ↔ root ∈ engine.tree.roots := by
        rw [Root.ofText?_eq_some_iff.mp hroot, listRoots]
        exact List.mem_map_of_injective fun a b => Root.text_injective
      rw [objection_of_not hlength]
      simp only [RootTree.insert_eq hordered]
      by_cases hmem : root ∈ engine.tree.roots
      · rw [if_pos hmem, objection_of (hstored.mpr hmem)]
        rfl
      · rw [if_neg hmem, objection_of_not (mt hstored.mp hmem)]
        rfl

theorem faultOf?_compile (pattern : String) :
    faultOf? (Pattern.compile engine.placeholders pattern) =
      engine.deficientPattern? pattern := by
  have hlacks : (engine.placeholders.symbols.any fun symbol =>
      !pattern.toList.contains symbol) = true ↔
        Pattern.missing engine.placeholders pattern.toList ≠ [] := by
    simp [Pattern.missing]
  rw [deficientPattern?, Pattern.compile]
  split
  · next hnone =>
    rw [objection_of_not fun hany => hlacks.mp hany hnone]
    rfl
  · next hsome =>
    rw [objection_of (hlacks.mpr hsome)]
    rfl

theorem faultOf?_compiled (name pattern : String) (category : Category) :
    faultOf? (Scheme.compiled engine.placeholders name pattern category) =
      (blankName? name <|> engine.deficientPattern? pattern) := by
  rw [Scheme.compiled, faultOf?_guard, faultOf?_bind_pure, faultOf?_compile]
  rfl

theorem faultOf?_explicit (name : String) (category : Category) (word : Root → String) :
    faultOf? (Scheme.explicit name category word) = blankName? name := by
  rw [Scheme.explicit, faultOf?_guard, faultOf?, Option.orElse_eq_orElse, Option.orElse_eq_or,
    Option.or_none]
  rfl

theorem faultOf?_register {check : Except Fault Scheme} {name : String}
    (hname : ∀ scheme, check = .ok scheme → scheme.name = name) :
    faultOf? (do
      let scheme ← check
      let registry ← engine.registry.add scheme
      return { engine with registry }) = (faultOf? check <|> engine.takenName? name) := by
  apply faultOf?_bind
  intro scheme hscheme
  rw [faultOf?_bind_pure, Registry.faultOf?_add, hname scheme hscheme]
  rfl

theorem faultOf?_addScheme (name : String) (category : Category) :
    faultOf? (engine.addScheme name category) = engine.refusal? (.addScheme name category) := by
  have hname : ∀ scheme, Scheme.dynamic engine.placeholders name category = .ok scheme →
      scheme.name = name := by
    intro scheme hscheme
    obtain ⟨-, pattern, -, rfl⟩ := Scheme.compiled_eq_ok_iff.mp hscheme
    rfl
  rw [addScheme, faultOf?_register hname, Scheme.dynamic, faultOf?_compiled, refusal?]
  simp only [Option.orElse_eq_orElse, Option.orElse_eq_or, Option.or_assoc]

theorem faultOf?_addExplicitScheme (name : String) (category : Category)
    (word : Root → String) :
    faultOf? (engine.addExplicitScheme name category word) =
      engine.refusal? (.addExplicitScheme name category word) := by
  rw [addExplicitScheme, faultOf?_register, faultOf?_explicit, refusal?]
  intro scheme hscheme
  obtain ⟨-, rfl⟩ := Scheme.explicit_eq_ok_iff.mp hscheme
  rfl

theorem faultOf?_modifyScheme (name pattern : String) :
    faultOf? (engine.modifyScheme name pattern) =
      engine.refusal? (.modifyScheme name pattern) := by
  rw [modifyScheme, faultOf?_bind_pure, Registry.modify, refusal?, unknownScheme?,
    ← Registry.faultOf?_get]
  apply faultOf?_bind
  intro scheme _
  rw [faultOf?_bind_pure, faultOf?_compile]

theorem faultOf?_removeScheme (name : String) :
    faultOf? (engine.removeScheme name) = engine.refusal? (.removeScheme name) := by
  rw [removeScheme, faultOf?_bind_pure, Registry.remove, faultOf?_bind_pure,
    Registry.faultOf?_get]
  rfl

theorem faultOf?_generate (hordered : engine.tree.Ordered) (now : Occasion)
    (root scheme : String) :
    faultOf? (engine.generate now root scheme) = engine.refusal? (.generate root scheme) := by
  rw [generate, refusal?, ← faultOf?_findRoot hordered]
  apply faultOf?_bind
  intro node _
  rw [unknownScheme?, ← Registry.faultOf?_get]
  cases engine.registry.get scheme with
  | error fault => rfl
  | ok found =>
      simp only [ok_bind]
      split <;> rfl

theorem faultOf?_validate (hordered : engine.tree.Ordered) (now : Occasion)
    (root word : String) :
    faultOf? (engine.validate now root word) = engine.refusal? (.validate root word) := by
  rw [validate, refusal?, ← faultOf?_findRoot hordered]
  cases engine.findRoot root with
  | error fault => rfl
  | ok node =>
      simp only [ok_bind]
      split <;> rfl

/-! ### Refused requests -/

/-- Describes a response to a request that is refused with this fault or, if there is none,
answered: a refusal leaves the engine as it is. -/
def AnswersTo (engine : Engine) (refusal : Option Fault) (result : Response × Engine) : Prop :=
  faultOf? result.1.outcome = refusal ∧ (refusal ≠ none → result.2 = engine)

theorem answersTo_settle {α : Type} {answer : α → Response}
    (hanswer : ∀ value, (answer value).outcome = .ok (answer value))
    {operation : Except Fault (α × Engine)} {refusal : Option Fault}
    (hfault : faultOf? operation = refusal) :
    engine.AnswersTo refusal (engine.settle answer operation) := by
  subst hfault
  cases operation with
  | error fault => exact ⟨rfl, fun _ => rfl⟩
  | ok result =>
      refine ⟨?_, fun hrefused => absurd rfl hrefused⟩
      rw [settle, hanswer]
      rfl

theorem perform_answersTo (hordered : engine.tree.Ordered) (now : Occasion)
    (request : Request) :
    engine.AnswersTo (engine.refusal? request) (engine.perform now request) := by
  cases request with
  | addRoot text =>
      apply answersTo_settle fun _ => rfl
      rw [faultOf?_map, faultOf?_addRoot hordered]
  | addScheme name category =>
      apply answersTo_settle fun _ => rfl
      rw [faultOf?_map, faultOf?_addScheme]
  | addExplicitScheme name category word =>
      apply answersTo_settle fun _ => rfl
      rw [faultOf?_map, faultOf?_addExplicitScheme]
  | modifyScheme name pattern =>
      apply answersTo_settle fun _ => rfl
      rw [faultOf?_map, faultOf?_modifyScheme]
  | removeScheme name =>
      apply answersTo_settle fun _ => rfl
      rw [faultOf?_map, faultOf?_removeScheme]
  | generate root scheme =>
      exact answersTo_settle (fun _ => rfl) (faultOf?_generate hordered now root scheme)
  | validate root word =>
      exact answersTo_settle (fun _ => rfl) (faultOf?_validate hordered now root word)
  | derivations root =>
      apply answersTo_settle fun _ => rfl
      rw [faultOf?_map, derivations, faultOf?_map, faultOf?_findRoot hordered]
      rfl
  | loadRoots | analyze | listRoots | listSchemes | schemesOf | popular | snapshot | reload =>
      exact ⟨rfl, fun hrefused => absurd rfl hrefused⟩

/-- For every engine that requests can lead to and every request, a program that changes the
engine step by step fails exactly for the first objection to the request, never for want of a
word, and leaves an engine that it fails on as it was; otherwise it answers as `perform`. -/
theorem inPlace_refused_iff {p : Placeholders} {start : Engine} (hstart : Initial p start)
    (steps : List (Occasion × Request)) (now : Occasion) (request : Request) :
    let engine := (InPlace.run start steps).2
    let (outcome, next) := (InPlace.perform now request).attempt engine
    (∀ fault, outcome = .error fault ↔ engine.refusal? request = some fault) ∧
      (∀ fault, outcome = .error fault →
        next = engine ∧ ∀ root scheme, fault ≠ .generationFailure root scheme) ∧
      outcome = (engine.perform now request).1.outcome ∧
      next = (engine.perform now request).2 := by
  intro engine
  have hordered : engine.tree.Ordered := by
    have hrun := (hstart.faithful.wellFormed.run steps).ordered
    rwa [← congrArg Prod.snd (InPlace.run_eq start steps)] at hrun
  obtain ⟨hfault, hunchanged⟩ := perform_answersTo hordered now request
  rw [InPlace.attempt_perform]
  refine ⟨?_, ?_, rfl, rfl⟩
  · intro fault
    rw [← hfault, faultOf?_eq_some_iff]
  · intro fault houtcome
    have hrefusal : engine.refusal? request = some fault := by
      rw [← hfault, faultOf?_eq_some_iff, houtcome]
    refine ⟨hunchanged (by simp [hrefusal]), ?_⟩
    rintro root scheme rfl
    exact engine.refusal?_ne_generationFailure request root scheme hrefusal

/-- A root with a word, then without the scheme that made it. -/
def unlearning : List (Occasion × Request) :=
  [.addRoot "درس", .generate "درس" "فاعل", .removeScheme "فاعل"].map (Occasion.ofEpoch 0, ·)

theorem inPlace_refused_iff_unlearning :
    let engine := (InPlace.run (withCatalog .standard) unlearning).2
    let attempt := (InPlace.perform (Occasion.ofEpoch 1) (.generate "درس" "فاعل")).attempt engine
    attempt = (.error (.schemeNotFound "فاعل"), engine) := by
  intro engine attempt
  obtain ⟨hfault, hunchanged, -⟩ := inPlace_refused_iff (p := .standard) .withCatalog unlearning
    (Occasion.ofEpoch 1) (.generate "درس" "فاعل")
  have hrefusal : engine.refusal? (.generate "درس" "فاعل") = some (.schemeNotFound "فاعل") := by
    decide +kernel
  have hfailed := (hfault _).mpr hrefusal
  exact Prod.ext hfailed (hunchanged _ hfailed).1

end Engine

end Triliteral
