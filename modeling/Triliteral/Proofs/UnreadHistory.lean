import Triliteral.Proofs.BareEngines
import Triliteral.Proofs.EngineUpdates

/-!
What was recorded decides nothing. Engines that differ in their histories and usage counters only
answer every request alike that does not ask for these, so that requests to generate or to
validate words can be left out of a run without a trace in the answers to all others.
-/

namespace Triliteral

namespace Request

def Records : Request → Prop
  | .generate .. | .validate .. => True
  | _ => False

def AsksHistory : Request → Prop
  | .derivations _ | .listSchemes | .schemesOf _ | .popular _ | .snapshot => True
  | _ => False

end Request

namespace Engine

variable {a b : Engine}

/-! ### One request -/

/-- Engines that agree but for what was recorded answer alike, at whatever times, and still agree
afterwards. -/
theorem perform_eq_of_bare (h : a.bare = b.bare) (now now' : Occasion) (request : Request) :
    (¬ request.AsksHistory → (a.perform now request).1 = (b.perform now' request).1) ∧
      (a.perform now request).2.bare = (b.perform now' request).2.bare := by
  have hdone : ∀ operation : Engine → Except Fault Engine,
      (∀ engine : Engine, operation engine.bare = (operation engine).map bare) →
      (a.settleDone (operation a)).1 = (b.settleDone (operation b)).1 ∧
        (a.settleDone (operation a)).2.bare = (b.settleDone (operation b)).2.bare := by
    intro operation hbare
    apply settleDone_eq_of_view h
    rw [← hbare, h, hbare]
  cases request with
  | addRoot text =>
      have hboth := hdone (·.addRoot text) fun engine => engine.addRoot_bare text
      exact ⟨fun _ => hboth.1, hboth.2⟩
  | loadRoots texts =>
      have hboth : (a.loadRoots texts).map id bare = (b.loadRoots texts).map id bare := by
        rw [← loadRoots_bare, h, loadRoots_bare]
      obtain ⟨hreport, hnext⟩ := Prod.mk.inj hboth
      exact ⟨fun _ => congrArg Response.loaded hreport, hnext⟩
  | addScheme name category =>
      have hboth := hdone (·.addScheme name category) fun engine =>
        engine.addScheme_bare name category
      exact ⟨fun _ => hboth.1, hboth.2⟩
  | addExplicitScheme name category word =>
      have hboth := hdone (·.addExplicitScheme name category word) fun engine =>
        engine.addExplicitScheme_bare name category word
      exact ⟨fun _ => hboth.1, hboth.2⟩
  | modifyScheme name pattern =>
      have hboth := hdone (·.modifyScheme name pattern) fun engine =>
        engine.modifyScheme_bare name pattern
      exact ⟨fun _ => hboth.1, hboth.2⟩
  | removeScheme name =>
      have hboth := hdone (·.removeScheme name) fun engine => engine.removeScheme_bare name
      exact ⟨fun _ => hboth.1, hboth.2⟩
  | generate text name =>
      have hsame : (a.generate now text name).map (Prod.map id bare) =
          (b.generate now' text name).map (Prod.map id bare) := by
        rw [map_bare_generate, map_bare_generate, h]
      have hboth := settle_eq_of_view h .word hsame
      exact ⟨fun _ => hboth.1, hboth.2⟩
  | validate text word =>
      have hsame : (a.validate now text word).map (Prod.map id bare) =
          (b.validate now' text word).map (Prod.map id bare) := by
        rw [map_bare_validate, map_bare_validate, h]
      have hboth := settle_eq_of_view h .verdict hsame
      exact ⟨fun _ => hboth.1, hboth.2⟩
  | analyze word =>
      refine ⟨fun _ => congrArg Response.analysis ?_, h⟩
      rw [← analyze_bare, h, analyze_bare]
  | listRoots =>
      refine ⟨fun _ => congrArg Response.roots ?_, h⟩
      rw [← listRoots_bare, h, listRoots_bare]
  | derivations text =>
      refine ⟨fun hasks => absurd trivial hasks, ?_⟩
      rw [perform, settleRead_snd, perform, settleRead_snd, h]
  | listSchemes | schemesOf | popular | snapshot => exact ⟨fun hasks => absurd trivial hasks, h⟩
  | reload p =>
      have hboth : (restore p a.snapshot).map bare id = (restore p b.snapshot).map bare id := by
        rw [← restore_snapshot_bare, h, restore_snapshot_bare]
      obtain ⟨hnext, hreport⟩ := Prod.mk.inj hboth
      exact ⟨fun _ => congrArg Response.reloaded hreport, hnext⟩

theorem bare_settle {engine : Engine} {α : Type} {answer : α → Response}
    {outcome : Except Fault (α × Engine)}
    (h : ∀ value next, outcome = .ok (value, next) → next.bare = engine.bare) :
    (engine.settle answer outcome).2.bare = engine.bare := by
  cases outcome with
  | error fault => rfl
  | ok result => exact h result.1 result.2 rfl

theorem bare_perform_of_records {request : Request} (h : request.Records) (now : Occasion)
    (engine : Engine) : (engine.perform now request).2.bare = engine.bare := by
  cases request with
  | generate text name =>
      refine bare_settle fun word next houtcome => ?_
      rcases generate_eq_ok houtcome with rfl | ⟨node, scheme, -, -, -, rfl⟩
      · rfl
      · simp only [bare, RootTree.bare_record, Registry.bare_countUse]
  | validate text word =>
      refine bare_settle fun names next houtcome => ?_
      rcases validate_eq_ok houtcome with ⟨-, rfl⟩ | ⟨node, -, -, -, rfl⟩
      · rfl
      · simp only [bare, RootTree.bare_record]
  | _ => exact h.elim

end Engine

/-! ### Runs -/

/-- A request of a run and the time at which it is made again when the run is replayed, unless it
is left out then. -/
structure ReplayedStep where
  request : Request
  now : Occasion
  again : Option Occasion

namespace ReplayedStep

def original (step : ReplayedStep) : Occasion × Request :=
  (step.now, step.request)

def replay? (step : ReplayedStep) : Option (Occasion × Request) :=
  step.again.map (·, step.request)

end ReplayedStep

namespace Engine

variable {a b : Engine}

/-- Leaving out requests that record something changes no other answer, and leads to an engine that
differs in what was recorded only. -/
theorem run_eq_of_bare (h : a.bare = b.bare) {steps : List ReplayedStep}
    (hleftOut : ∀ step ∈ steps, step.again = none → step.request.Records) :
    List.Forall₂
        (fun (step, response) response' => ¬ step.request.AsksHistory → response = response')
        ((steps.zip (a.run (steps.map ReplayedStep.original)).1).filter
          fun answered => answered.1.again.isSome)
        (b.run (steps.filterMap ReplayedStep.replay?)).1 ∧
      (a.run (steps.map ReplayedStep.original)).2.bare =
        (b.run (steps.filterMap ReplayedStep.replay?)).2.bare := by
  induction steps generalizing a b with
  | nil => exact ⟨.nil, h⟩
  | cons step steps ih =>
      have hleftOut' : ∀ later ∈ steps, later.again = none → later.request.Records :=
        fun later hlater => hleftOut later (List.mem_cons_of_mem step hlater)
      obtain ⟨request, now, again⟩ := step
      cases again with
      | none =>
          -- only the first run takes this step, and nothing but its record changes
          have hrecords := hleftOut _ List.mem_cons_self rfl
          have hnext := bare_perform_of_records hrecords now a
          exact ih (hnext.trans h) hleftOut'
      | some now' =>
          obtain ⟨hresponse, hnext⟩ := perform_eq_of_bare h now now' request
          obtain ⟨hresponses, hlast⟩ := ih hnext hleftOut'
          exact ⟨.cons hresponse hresponses, hlast⟩

/-- What was recorded decides nothing. Of any run on any engine, any requests to generate or to
validate words may be left out: every request that is kept, at whatever time it is then made, is
answered as before unless it asks for what was recorded or counted, and the run ends with the same
tree but for its histories and the same schemes but for their counters. -/
theorem unread_history (engine : Engine) {steps : List ReplayedStep}
    (hleftOut : ∀ step ∈ steps, step.again = none → step.request.Records) :
    let full := engine.run (steps.map ReplayedStep.original)
    let kept := engine.run (steps.filterMap ReplayedStep.replay?)
    List.Forall₂
      (fun (step, response) response' => ¬ step.request.AsksHistory → response = response')
      ((steps.zip full.1).filter fun answered => answered.1.again.isSome) kept.1 ∧
    kept.2.tree.bare = full.2.tree.bare ∧ kept.2.listRoots = full.2.listRoots ∧
    kept.2.registry.schemes.map (fun scheme => (scheme.name, scheme.category, scheme.rule)) =
      full.2.registry.schemes.map (fun scheme => (scheme.name, scheme.category, scheme.rule)) ∧
    kept.2.placeholders = full.2.placeholders := by
  intro full kept
  obtain ⟨hresponses, hlast⟩ := run_eq_of_bare (rfl : engine.bare = engine.bare) hleftOut
  have hroots : full.2.listRoots = kept.2.listRoots := by
    rw [← listRoots_bare, hlast, listRoots_bare]
  have hschemes : full.2.registry.bare.schemes = kept.2.registry.bare.schemes :=
    congrArg (fun engine => engine.registry.schemes) hlast
  refine ⟨hresponses, (congrArg Engine.tree hlast).symm, hroots.symm, ?_,
    (congrArg Engine.placeholders hlast).symm⟩
  have hparts := congrArg
    (List.map fun scheme : Scheme => (scheme.name, scheme.category, scheme.rule)) hschemes
  rw [Registry.bare, Registry.bare, List.map_map, List.map_map] at hparts
  exact hparts.symm

/-- A lesson of which the second run leaves out all that is generated or validated first. -/
def rehearsal : List ReplayedStep :=
  let start := Occasion.ofEpoch 0
  let later := Occasion.ofEpoch 60
  [⟨.addRoot "كتب", start, some later⟩, ⟨.generate "كتب" "فاعل", start, none⟩,
    ⟨.validate "كتب" "مكتوب", start, none⟩, ⟨.addRoot "درس", start, some later⟩,
    ⟨.modifyScheme "فاعل" "فعول", start, some later⟩, ⟨.generate "كتب" "فاعل", start, some later⟩,
    ⟨.validate "كتب" "كاتب", start, some later⟩, ⟨.analyze "كتوب", start, some later⟩]

theorem unread_history_rehearsal :
    let full := (withCatalog .standard).run (rehearsal.map ReplayedStep.original)
    let kept := (withCatalog .standard).run (rehearsal.filterMap ReplayedStep.replay?)
    (∀ step ∈ rehearsal, step.again = none → step.request.Records) ∧
      List.Forall₂
        (fun (step, response) response' => ¬ step.request.AsksHistory → response = response')
        ((rehearsal.zip full.1).filter fun answered => answered.1.again.isSome) kept.1 ∧
      kept.1.length = 6 ∧ kept.2.tree.bare = full.2.tree.bare ∧ kept.2.tree ≠ full.2.tree := by
  intro full kept
  have hleftOut : ∀ step ∈ rehearsal, step.again = none → step.request.Records := by
    simp [rehearsal, Request.Records]
  obtain ⟨hresponses, htree, -⟩ := unread_history (withCatalog .standard) hleftOut
  exact ⟨hleftOut, hresponses, by decide +kernel, htree, by decide +kernel⟩

end Engine

end Triliteral
