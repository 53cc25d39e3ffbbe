import Mathlib.Logic.Relation
import Triliteral.Engine.Request
import Triliteral.Proofs.ConsecutiveLoads
import Triliteral.Proofs.RegistryOrder

/-!
What requests can do to an engine. Every request is a sequence of a few kinds of updates, so
that what the updates preserve holds after every run.
-/

namespace Triliteral.Engine

/-- One change that a request makes to an engine, with what was checked before it. -/
inductive Update : Request → Engine → Engine → Prop
  | insertRoot (request : Request) (engine : Engine) (root : Root) :
      Update request engine { engine with tree := (engine.tree.insert root).2 }
  | addDynamic {engine : Engine} {name : String} {category : Category} {scheme : Scheme}
      {registry : Registry}
      (hscheme : Scheme.dynamic engine.placeholders name category = .ok scheme)
      (hadd : engine.registry.add scheme = .ok registry) :
      Update (.addScheme name category) engine { engine with registry }
  | addExplicit {engine : Engine} {name : String} {category : Category} {word : Root → String}
      {scheme : Scheme} {registry : Registry}
      (hscheme : Scheme.explicit name category word = .ok scheme)
      (hadd : engine.registry.add scheme = .ok registry) :
      Update (.addExplicitScheme name category word) engine { engine with registry }
  | modifyScheme {engine : Engine} {name source : String} {registry : Registry}
      (hmodify : engine.registry.modify engine.placeholders name source = .ok registry) :
      Update (.modifyScheme name source) engine { engine with registry }
  | removeScheme {engine : Engine} {name : String} {scheme : Scheme} {registry : Registry}
      (hremove : engine.registry.remove name = .ok (scheme, registry)) :
      Update (.removeScheme name) engine { engine with registry }
  | generate {engine : Engine} (now : Occasion) {text name : String} {node : RootTree.Node}
      {scheme : Scheme} (hfound : engine.findRoot text = .ok node)
      (hscheme : engine.registry.get name = .ok scheme)
      (hnew : (node.entry.derivations.any fun earlier =>
        earlier.word == scheme.word node.entry.root) = false) :
      Update (.generate text name) engine
        { engine with
          tree := engine.tree.record node.entry.root ⟨scheme.word node.entry.root, name, now.time⟩
          registry := engine.registry.countUse name }
  | validate {engine : Engine} (now : Occasion) {text word : String} {node : RootTree.Node}
      (hfound : engine.findRoot text = .ok node)
      (hproducers : engine.registry.producers node.entry.root word ≠ []) :
      Update (.validate text word) engine
        { engine with
          tree := engine.tree.record node.entry.root
            ⟨word, now.choose (engine.registry.producers node.entry.root word), now.time⟩ }
  | reload (engine : Engine) (p : Placeholders) :
      Update (.reload p) engine (restore p engine.snapshot).1

abbrev Updates (request : Request) : Engine → Engine → Prop :=
  Relation.ReflTransGen (Update request)

variable {engine next : Engine}

theorem updates_addRoot {request : Request} {text : String}
    (h : engine.addRoot text = .ok next) : Updates request engine next := by
  unfold addRoot at h
  split at h
  · simp at h
  · next root hroot =>
    split at h
    · next tree hinsert =>
      obtain rfl : { engine with tree } = next := by simpa using h
      have htree : tree = (engine.tree.insert root).2 := by rw [hinsert]
      subst htree
      exact .single (.insertRoot request engine root)
    · simp at h

theorem updates_loadRoot (request : Request) (report : LoadReport) (engine : Engine)
    (text : String) : Updates request engine (loadRoot (report, engine) text).2 := by
  rw [loadRoot]
  split
  · next hadd => exact updates_addRoot hadd
  · exact .refl
  · exact .refl

theorem updates_loadRoots (request : Request) (engine : Engine) (texts : List String) :
    Updates request engine (engine.loadRoots texts).2 := by
  induction texts generalizing engine with
  | nil => exact .refl
  | cons text texts ih =>
      rw [loadRoots_cons]
      exact (updates_loadRoot request ⟨0, 0, 0⟩ engine text).trans (ih _)

theorem generate_eq_ok {now : Occasion} {text name word : String}
    (h : engine.generate now text name = .ok (word, next)) :
    next = engine ∨ ∃ node scheme, engine.findRoot text = .ok node ∧
      engine.registry.get name = .ok scheme ∧
      (node.entry.derivations.any fun earlier =>
        earlier.word == scheme.word node.entry.root) = false ∧
      next =
        { engine with
          tree := engine.tree.record node.entry.root ⟨scheme.word node.entry.root, name, now.time⟩
          registry := engine.registry.countUse name } := by
  obtain ⟨node, hfound, h⟩ := bind_eq_ok_iff.mp h
  obtain ⟨scheme, hscheme, h⟩ := bind_eq_ok_iff.mp h
  dsimp only at h
  split at h
  · exact .inl (Prod.mk.inj (Except.ok.inj h)).2.symm
  · next hnew =>
    exact .inr ⟨node, scheme, hfound, hscheme, by simpa using hnew,
      (Prod.mk.inj (Except.ok.inj h)).2.symm⟩

theorem generate_of_found {now : Occasion} {text name : String} {node : RootTree.Node}
    {scheme : Scheme} (hfound : engine.findRoot text = .ok node)
    (hscheme : engine.registry.get name = .ok scheme) :
    engine.generate now text name = .ok (scheme.word node.entry.root,
      if node.entry.derivations.any fun earlier => earlier.word == scheme.word node.entry.root then
        engine
      else
        { engine with
          tree := engine.tree.record node.entry.root ⟨scheme.word node.entry.root, name, now.time⟩
          registry := engine.registry.countUse name }) := by
  rw [generate, hfound, hscheme, ok_bind, ok_bind]
  dsimp only
  split <;> rfl

theorem validate_eq_ok {now : Occasion} {text word : String} {names : List String}
    (h : engine.validate now text word = .ok (names, next)) :
    names = [] ∧ next = engine ∨ ∃ node, engine.findRoot text = .ok node ∧
      engine.registry.producers node.entry.root word = names ∧ names ≠ [] ∧
      next =
        { engine with
          tree := engine.tree.record node.entry.root ⟨word, now.choose names, now.time⟩ } := by
  obtain ⟨node, hfound, h⟩ := bind_eq_ok_iff.mp h
  dsimp only at h
  split at h
  · obtain ⟨rfl, rfl⟩ := Prod.mk.inj (Except.ok.inj h)
    exact .inl ⟨rfl, rfl⟩
  · next hproducers =>
    obtain ⟨rfl, rfl⟩ := Prod.mk.inj (Except.ok.inj h)
    exact .inr ⟨node, hfound, rfl, hproducers, rfl⟩

theorem updates_generate {now : Occasion} {text name word : String}
    (h : engine.generate now text name = .ok (word, next)) :
    Updates (.generate text name) engine next := by
  rcases generate_eq_ok h with rfl | ⟨node, scheme, hfound, hscheme, hnew, rfl⟩
  · exact .refl
  · exact .single (.generate now hfound hscheme hnew)

theorem updates_validate {now : Occasion} {text word : String} {names : List String}
    (h : engine.validate now text word = .ok (names, next)) :
    Updates (.validate text word) engine next := by
  rcases validate_eq_ok h with ⟨-, rfl⟩ | ⟨node, hfound, rfl, hproducers, rfl⟩
  · exact .refl
  · exact .single (.validate now hfound hproducers)

theorem updates_settle {α : Type} {request : Request} {answer : α → Response}
    {outcome : Except Fault (α × Engine)}
    (h : ∀ value next, outcome = .ok (value, next) → Updates request engine next) :
    Updates request engine (engine.settle answer outcome).2 := by
  cases outcome with
  | error fault => exact .refl
  | ok result => exact h result.1 result.2 rfl

theorem updates_settleDone {request : Request} {outcome : Except Fault Engine}
    (h : ∀ next, outcome = .ok next → Updates request engine next) :
    Updates request engine (engine.settleDone outcome).2 := by
  cases outcome with
  | error fault => exact .refl
  | ok next => exact h next rfl

theorem settleRead_snd {α : Type} (answer : α → Response) (outcome : Except Fault α) :
    (engine.settleRead answer outcome).2 = engine := by
  cases outcome <;> rfl

/-- Every request is a sequence of updates. -/
theorem updates_perform (now : Occasion) (engine : Engine) (request : Request) :
    Updates request engine (engine.perform now request).2 := by
  cases request with
  | addRoot text => exact updates_settleDone fun next => updates_addRoot
  | loadRoots texts => exact updates_loadRoots _ engine texts
  | addScheme name category =>
      refine updates_settleDone fun next h => ?_
      obtain ⟨scheme, hscheme, h⟩ := bind_eq_ok_iff.mp h
      obtain ⟨registry, hadd, h⟩ := bind_eq_ok_iff.mp h
      obtain rfl := Except.ok.inj h
      exact .single (.addDynamic hscheme hadd)
  | addExplicitScheme name category word =>
      refine updates_settleDone fun next h => ?_
      obtain ⟨scheme, hscheme, h⟩ := bind_eq_ok_iff.mp h
      obtain ⟨registry, hadd, h⟩ := bind_eq_ok_iff.mp h
      obtain rfl := Except.ok.inj h
      exact .single (.addExplicit hscheme hadd)
  | modifyScheme name pattern =>
      refine updates_settleDone fun next h => ?_
      obtain ⟨registry, hmodify, h⟩ := bind_eq_ok_iff.mp h
      obtain rfl := Except.ok.inj h
      exact .single (.modifyScheme hmodify)
  | removeScheme name =>
      refine updates_settleDone fun next h => ?_
      obtain ⟨⟨scheme, registry⟩, hremove, h⟩ := bind_eq_ok_iff.mp h
      obtain rfl := Except.ok.inj h
      exact .single (.removeScheme hremove)
  | generate root scheme => exact updates_settle fun word next => updates_generate
  | validate root word => exact updates_settle fun names next => updates_validate
  | derivations root =>
      rw [perform, settleRead_snd]
  | reload p => exact .single (.reload engine p)
  | analyze | listRoots | listSchemes | schemesOf | popular | snapshot => exact .refl

/-- What every update of a request preserves, the request preserves. -/
theorem perform_preserves {P : Engine → Prop} {request : Request}
    (hupdate : ∀ before after, Update request before after → P before → P after) (now : Occasion)
    (hengine : P engine) : P (engine.perform now request).2 := by
  have hkeep : ∀ after, Updates request engine after → P after := by
    intro after hupdates
    induction hupdates with
    | refl => exact hengine
    | tail _ hlast hbefore => exact hupdate _ _ hlast hbefore
  exact hkeep _ (updates_perform now engine request)

/-- What every update of the allowed requests preserves, their runs preserve. -/
theorem run_preserves {P : Engine → Prop} {allowed : Request → Prop}
    (hupdate : ∀ request, allowed request → ∀ before after, Update request before after →
      P before → P after)
    {steps : List (Occasion × Request)} (hsteps : ∀ step ∈ steps, allowed step.2)
    (hstart : P engine) : P (engine.run steps).2 := by
  induction steps generalizing engine with
  | nil => exact hstart
  | cons step rest ih =>
      obtain ⟨now, request⟩ := step
      have hfirst : P (engine.perform now request).2 :=
        perform_preserves (hupdate request (hsteps _ List.mem_cons_self)) now hstart
      apply ih _ hfirst
      intro step hstep
      exact hsteps step (List.mem_cons_of_mem _ hstep)

end Triliteral.Engine
