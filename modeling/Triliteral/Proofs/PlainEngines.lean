import Triliteral.Proofs.EngineViews

/-!
Engines without patterns. A scheme can be seen as the function that makes its words, whether this
is given by itself or by a pattern. What is shown of patterns where schemes are listed apart, no
answer depends on more than that.
-/

namespace Triliteral

namespace Scheme

/-- The scheme with a function for its rule, which does not tell whether there was a pattern. -/
def plain (scheme : Scheme) : Scheme :=
  { scheme with rule := .explicit scheme.word }

@[simp] theorem name_plain (scheme : Scheme) : scheme.plain.name = scheme.name := rfl

@[simp] theorem word_plain (scheme : Scheme) : scheme.plain.word = scheme.word := rfl

theorem map_plain_explicit (name : String) (category : Category) (word : Root → String) :
    (explicit name category word).map plain = explicit name category word := by
  rw [explicit]
  split <;> rfl

end Scheme

def SchemeSummary.plain (summary : SchemeSummary) : SchemeSummary :=
  { summary with dynamic := false, pattern := none }

def SchemeRecord.plain (record : SchemeRecord) : SchemeRecord :=
  { record with dynamic := false, pattern := none }

def Snapshot.plain (snapshot : Snapshot) : Snapshot :=
  { snapshot with schemes := snapshot.schemes.map SchemeRecord.plain }

/-- The response without the flags and patterns of listed schemes. -/
def Response.plain : Response → Response
  | .schemes summaries => .schemes (summaries.map SchemeSummary.plain)
  | .snapshot taken => .snapshot taken.plain
  | response => response

namespace Registry

theorem countUse_plain (registry : Registry) (name : String) :
    (registry.map Scheme.plain).countUse name = (registry.countUse name).map Scheme.plain :=
  update_map Scheme.name_plain registry name fun _ => rfl

theorem update_rule_plain (registry : Registry) (name : String) (pattern : Pattern) :
    ((registry.map Scheme.plain).update name fun scheme =>
        { scheme with rule := .explicit pattern.render }) =
      (registry.update name fun scheme =>
        { scheme with rule := .compiled pattern }).map Scheme.plain :=
  update_map Scheme.name_plain registry name fun _ => rfl

theorem summaries_plain (registry : Registry) :
    (registry.map Scheme.plain).summaries = registry.summaries.map SchemeSummary.plain := by
  simp only [summaries, map, List.map_map]
  rfl

theorem summariesOf_plain (registry : Registry) (category : Category) :
    (registry.map Scheme.plain).summariesOf category =
      (registry.summariesOf category).map SchemeSummary.plain := by
  simp only [summariesOf, map, List.filter_map, List.map_map]
  rfl

theorem mostUsed_plain (registry : Registry) (limit : Nat) :
    (registry.map Scheme.plain).mostUsed limit =
      (registry.mostUsed limit).map SchemeSummary.plain := by
  have hsort : (registry.schemes.mergeSort ranksBefore).map Scheme.plain =
      (registry.schemes.map Scheme.plain).mergeSort ranksBefore :=
    List.map_mergeSort fun _ _ _ _ => rfl
  simp only [mostUsed, map, ← hsort, ← List.map_take, List.map_map]
  rfl

end Registry

namespace Engine

def plain (engine : Engine) : Engine :=
  engine.view id Scheme.plain

variable {a b : Engine}

/-! ### Operations without patterns -/

theorem addRoot_plain (engine : Engine) (text : String) :
    engine.plain.addRoot text = (engine.addRoot text).map plain :=
  addRoot_view (fun _ _ => rfl) engine text

theorem loadRoots_plain (engine : Engine) (texts : List String) :
    engine.plain.loadRoots texts = (engine.loadRoots texts).map id plain :=
  loadRoots_view (fun _ _ => rfl) engine texts

theorem removeScheme_plain (engine : Engine) (name : String) :
    engine.plain.removeScheme name = (engine.removeScheme name).map plain :=
  removeScheme_view Scheme.name_plain engine name

theorem map_plain_addScheme (engine : Engine) (name : String) (category : Category) :
    (engine.addScheme name category).map plain = (do
      let scheme ← (Scheme.dynamic engine.plain.placeholders name category).map Scheme.plain
      let registry ← engine.plain.registry.add scheme
      return { engine.plain with registry }) :=
  map_view_register Scheme.name_plain engine _

theorem addExplicitScheme_plain (engine : Engine) (name : String) (category : Category)
    (word : Root → String) :
    engine.plain.addExplicitScheme name category word =
      (engine.addExplicitScheme name category word).map plain := by
  rw [addExplicitScheme, ← Scheme.map_plain_explicit]
  exact (map_view_register Scheme.name_plain engine _).symm

theorem map_plain_modifyScheme (engine : Engine) (name source : String) :
    (engine.modifyScheme name source).map plain = (do
      let _ ← engine.plain.registry.get name
      let pattern ← Pattern.compile engine.plain.placeholders source
      return { engine.plain with
        registry := engine.plain.registry.update name fun scheme =>
          { scheme with rule := .explicit pattern.render } }) := by
  simp only [modifyScheme, Registry.modify, plain, view, Registry.get_map Scheme.name_plain]
  cases engine.registry.get name with
  | error fault => rfl
  | ok scheme =>
      simp only [ok_bind, Except.map]
      cases Pattern.compile engine.placeholders source with
      | error fault => rfl
      | ok pattern =>
          simp only [ok_bind, Registry.update_rule_plain]
          rfl

theorem generate_plain (now : Occasion) (engine : Engine) (text name : String) :
    engine.plain.generate now text name =
      (engine.generate now text name).map (Prod.map id plain) := by
  have hfound : engine.plain.findRoot text = engine.findRoot text := rfl
  have hget : engine.plain.registry.get name = (engine.registry.get name).map Scheme.plain :=
    Registry.get_map Scheme.name_plain engine.registry name
  have hcount : engine.plain.registry.countUse name =
      (engine.registry.countUse name).map Scheme.plain :=
    engine.registry.countUse_plain name
  rw [generate, hfound, hget, generate]
  cases engine.findRoot text with
  | error fault => rfl
  | ok node =>
      cases engine.registry.get name with
      | error fault => rfl
      | ok scheme =>
          simp only [ok_bind, hcount]
          by_cases hold : (node.entry.derivations.any fun earlier =>
            earlier.word == scheme.word node.entry.root) = true
          · refine (if_pos hold).trans ?_
            rw [if_pos hold]
            rfl
          · refine (if_neg hold).trans ?_
            rw [if_neg hold]
            rfl

theorem producers_plain (engine : Engine) (root : Root) (word : String) :
    engine.plain.registry.producers root word = engine.registry.producers root word :=
  Registry.producers_map Scheme.name_plain Scheme.word_plain engine.registry root word

theorem validate_plain (now : Occasion) (engine : Engine) (text word : String) :
    engine.plain.validate now text word =
      (engine.validate now text word).map (Prod.map id plain) := by
  have hfound : engine.plain.findRoot text = engine.findRoot text := rfl
  rw [validate, hfound, validate]
  cases engine.findRoot text with
  | error fault => rfl
  | ok node =>
      simp only [ok_bind, producers_plain]
      split <;> rfl

theorem analyze_plain (engine : Engine) (word : String) :
    engine.plain.analyze word = engine.analyze word := by
  simp only [analyze, producers_plain]
  rfl

theorem snapshot_plain (engine : Engine) : engine.plain.snapshot = engine.snapshot.plain := by
  simp only [snapshot, plain, view, id_eq, Registry.map, Snapshot.plain, List.map_map]
  rfl

/-! ### Runs without patterns -/

theorem tree_eq_of_plain (h : a.plain = b.plain) : a.tree = b.tree := by
  have htree : a.plain.tree = b.plain.tree := by rw [h]
  exact htree

/-- Engines whose schemes make the same words answer a request alike up to patterns, and their
schemes still make the same words afterwards. -/
theorem perform_eq_of_plain (h : a.plain = b.plain) (now : Occasion) {request : Request}
    (hreload : ∀ p, request ≠ .reload p) :
    (a.perform now request).1.plain = (b.perform now request).1.plain ∧
      (a.perform now request).2.plain = (b.perform now request).2.plain := by
  have hdone : ∀ {outcome outcome' : Except Fault Engine}, outcome.map plain = outcome'.map plain →
      (a.settleDone outcome).1.plain = (b.settleDone outcome').1.plain ∧
        (a.settleDone outcome).2.plain = (b.settleDone outcome').2.plain := by
    intro outcome outcome' houtcome
    obtain ⟨hresponse, hnext⟩ := settleDone_eq_of_view h houtcome
    exact ⟨congrArg Response.plain hresponse, hnext⟩
  have hsettle : ∀ {α : Type} (answer : α → Response)
      {outcome outcome' : Except Fault (α × Engine)},
      outcome.map (Prod.map id plain) = outcome'.map (Prod.map id plain) →
      (a.settle answer outcome).1.plain = (b.settle answer outcome').1.plain ∧
        (a.settle answer outcome).2.plain = (b.settle answer outcome').2.plain := by
    intro α answer outcome outcome' houtcome
    obtain ⟨hresponse, hnext⟩ := settle_eq_of_view h answer houtcome
    exact ⟨congrArg Response.plain hresponse, hnext⟩
  have hsummaries : ∀ list : Registry → List SchemeSummary,
      (∀ registry, list (registry.map Scheme.plain) = (list registry).map SchemeSummary.plain) →
      (list a.registry).map SchemeSummary.plain = (list b.registry).map SchemeSummary.plain := by
    intro list hlist
    have hregistry : a.registry.map Scheme.plain = b.registry.map Scheme.plain :=
      congrArg Engine.registry h
    rw [← hlist, hregistry, hlist]
  cases request with
  | addRoot text =>
      refine hdone ?_
      rw [← addRoot_plain, h, addRoot_plain]
  | loadRoots texts =>
      have hboth : (a.loadRoots texts).map id plain = (b.loadRoots texts).map id plain := by
        rw [← loadRoots_plain, h, loadRoots_plain]
      obtain ⟨hreport, hnext⟩ := Prod.mk.inj hboth
      exact ⟨congrArg Response.loaded hreport, hnext⟩
  | addScheme name category =>
      refine hdone ?_
      rw [map_plain_addScheme, h, map_plain_addScheme]
  | addExplicitScheme name category word =>
      refine hdone ?_
      rw [← addExplicitScheme_plain, h, addExplicitScheme_plain]
  | modifyScheme name source =>
      refine hdone ?_
      rw [map_plain_modifyScheme, h, map_plain_modifyScheme]
  | removeScheme name =>
      refine hdone ?_
      rw [← removeScheme_plain, h, removeScheme_plain]
  | generate text name =>
      refine hsettle .word ?_
      rw [← generate_plain, h, generate_plain]
  | validate text word =>
      refine hsettle .verdict ?_
      rw [← validate_plain, h, validate_plain]
  | analyze word =>
      refine ⟨congrArg (fun found => (Response.analysis found).plain) ?_, h⟩
      rw [← analyze_plain, h, analyze_plain]
  | listRoots =>
      refine ⟨?_, h⟩
      rw [perform, listRoots, tree_eq_of_plain h, perform, listRoots]
  | derivations text =>
      refine hsettle .derivations ?_
      rw [derivations, findRoot, tree_eq_of_plain h, derivations, findRoot]
      cases b.tree.findText? text with
      | none => rfl
      | some node => exact congrArg (fun engine => Except.ok (node.entry.derivations, engine)) h
  | listSchemes =>
      exact ⟨congrArg Response.schemes (hsummaries _ Registry.summaries_plain), h⟩
  | schemesOf category =>
      exact ⟨congrArg Response.schemes
        (hsummaries (·.summariesOf category) (·.summariesOf_plain category)), h⟩
  | popular limit =>
      exact ⟨congrArg Response.schemes (hsummaries (·.mostUsed limit) (·.mostUsed_plain limit)), h⟩
  | snapshot =>
      refine ⟨congrArg Response.snapshot ?_, h⟩
      rw [← snapshot_plain, h, snapshot_plain]
  | reload p => exact absurd rfl (hreload p)

theorem run_eq_of_plain (h : a.plain = b.plain) {steps : List (Occasion × Request)}
    (hreload : ∀ step ∈ steps, ∀ p, step.2 ≠ .reload p) :
    (a.run steps).1.map Response.plain = (b.run steps).1.map Response.plain ∧
      (a.run steps).2.plain = (b.run steps).2.plain := by
  induction steps generalizing a b with
  | nil => exact ⟨rfl, h⟩
  | cons step rest ih =>
      obtain ⟨now, request⟩ := step
      obtain ⟨hresponse, hnext⟩ := perform_eq_of_plain h now (hreload _ List.mem_cons_self)
      obtain ⟨hresponses, hlast⟩ :=
        ih hnext fun later hlater => hreload later (List.mem_cons_of_mem _ hlater)
      exact ⟨List.cons_eq_cons.mpr ⟨hresponse, hresponses⟩, hlast⟩

end Engine

/-- Holds of the requests whose answers show patterns. -/
def Request.ShowsPatterns : Request → Prop
  | .listSchemes | .schemesOf _ | .popular _ | .snapshot => True
  | _ => False

namespace Engine

variable {engine : Engine}

theorem plain_settle {α : Type} {answer : α → Response}
    (hanswer : ∀ value, (answer value).plain = answer value)
    (outcome : Except Fault (α × Engine)) :
    (engine.settle answer outcome).1.plain = (engine.settle answer outcome).1 := by
  cases outcome with
  | error fault => rfl
  | ok result => exact hanswer result.1

theorem plain_perform {request : Request} (h : ¬ request.ShowsPatterns) (now : Occasion)
    (engine : Engine) :
    (engine.perform now request).1.plain = (engine.perform now request).1 := by
  cases request with
  | listSchemes | schemesOf | popular | snapshot => exact absurd trivial h
  | loadRoots | analyze | listRoots | reload => rfl
  | _ => exact plain_settle (fun _ => rfl) _

theorem map_plain_run {steps : List (Occasion × Request)}
    (hsteps : ∀ step ∈ steps, ¬ step.2.ShowsPatterns) :
    (engine.run steps).1.map Response.plain = (engine.run steps).1 := by
  induction steps generalizing engine with
  | nil => rfl
  | cons step rest ih =>
      obtain ⟨now, request⟩ := step
      have hresponse := plain_perform (hsteps _ List.mem_cons_self) now engine
      exact List.cons_eq_cons.mpr
        ⟨hresponse, ih fun later hlater => hsteps later (List.mem_cons_of_mem _ hlater)⟩

end Engine

end Triliteral
