import Triliteral.Proofs.EngineUpdates
import Triliteral.Proofs.RootRestoration
import Triliteral.Proofs.SchemeRestoration

/-!
What holds of every engine that requests can lead to, and what holds as long as no rule is
registered but compiled ones.
-/

namespace Triliteral.Engine

/-! ### Well-formed engines -/

structure WellFormed (engine : Engine) : Prop where
  ordered : engine.tree.Ordered
  distinctWords : engine.tree.DistinctWords
  sorted : engine.registry.Sorted
  named : engine.registry.Named

theorem wellFormed_restore (p : Placeholders) (snapshot : Snapshot) :
    (restore p snapshot).1.WellFormed :=
  ⟨(restoreRoots_invariant snapshot.roots).1, (restoreRoots_invariant snapshot.roots).2,
    (restoredRegistry_restoreSchemes p snapshot.schemes).sorted,
    (restoredRegistry_restoreSchemes p snapshot.schemes).named⟩

theorem findRoot_eq_ok_iff {engine : Engine} (hordered : engine.tree.Ordered) {text : String}
    {node : RootTree.Node} :
    engine.findRoot text = .ok node ↔
      node ∈ engine.tree.nodes ∧ node.entry.root.text = text := by
  rw [← RootTree.findText?_eq_some_iff hordered, findRoot]
  cases engine.tree.findText? text <;> simp

theorem named_update {registry : Registry} (hnamed : registry.Named) (name : String)
    {change : Scheme → Scheme} (hname : ∀ scheme, (change scheme).name = scheme.name) :
    (registry.update name change).Named := by
  refine Registry.forall_update ?_ fun scheme hscheme _ => hnamed scheme hscheme
  intro scheme hscheme _
  rw [hname]
  exact hnamed scheme hscheme

theorem WellFormed.update {request : Request} {before after : Engine}
    (h : Update request before after) (hbefore : before.WellFormed) : after.WellFormed := by
  obtain ⟨hordered, hwords, hsorted, hnamed⟩ := hbefore
  cases h with
  | insertRoot _ _ root =>
      exact ⟨hordered.insert root, hwords.insert hordered root, hsorted, hnamed⟩
  | addDynamic hscheme hadd =>
      obtain ⟨hfree, rfl⟩ := Registry.add_eq_ok_iff.mp hadd
      obtain ⟨hname, pattern, -, rfl⟩ := Scheme.compiled_eq_ok_iff.mp hscheme
      exact ⟨hordered, hwords, hsorted.insertByName hfree, hnamed.insertByName hname⟩
  | addExplicit hscheme hadd =>
      obtain ⟨hfree, rfl⟩ := Registry.add_eq_ok_iff.mp hadd
      obtain ⟨hname, rfl⟩ := Scheme.explicit_eq_ok_iff.mp hscheme
      exact ⟨hordered, hwords, hsorted.insertByName hfree, hnamed.insertByName hname⟩
  | modifyScheme hmodify =>
      obtain ⟨-, pattern, -, rfl⟩ := Registry.modify_eq_ok_iff.mp hmodify
      exact ⟨hordered, hwords, hsorted.update _ fun _ => rfl, named_update hnamed _ fun _ => rfl⟩
  | removeScheme hremove =>
      obtain ⟨-, rfl⟩ := Registry.remove_eq_ok_iff.mp hremove
      refine ⟨hordered, hwords, hsorted.without _, ?_⟩
      intro scheme hscheme
      exact hnamed scheme (Registry.mem_without.mp hscheme).1
  | generate now hfound hscheme hnew =>
      exact ⟨hordered.record _ _, hwords.record hordered _ _, hsorted.update _ fun _ => rfl,
        named_update hnamed _ fun _ => rfl⟩
  | validate now hfound hproducers =>
      exact ⟨hordered.record _ _, hwords.record hordered _ _, hsorted, hnamed⟩
  | reload _ p => exact wellFormed_restore p before.snapshot

theorem WellFormed.perform {engine : Engine} (h : engine.WellFormed) (now : Occasion)
    (request : Request) : (engine.perform now request).2.WellFormed :=
  perform_preserves (fun _ _ hupdate hbefore => hbefore.update hupdate) now h

theorem WellFormed.run {engine : Engine} (h : engine.WellFormed)
    (steps : List (Occasion × Request)) : (engine.run steps).2.WellFormed := by
  have hupdate : ∀ request : Request, True → ∀ before after, Update request before after →
      before.WellFormed → after.WellFormed :=
    fun _ _ _ _ hupdate hbefore => hbefore.update hupdate
  exact run_preserves hupdate (fun _ _ => trivial) h

/-! ### Where runs start -/

/-- The engines with which a run can begin under the given placeholders. -/
inductive Initial (p : Placeholders) : Engine → Prop
  | empty : Initial p (empty p)
  | withCatalog : Initial p (withCatalog p)
  | restored (snapshot : Snapshot) : Initial p (restore p snapshot).1

inductive Fresh (p : Placeholders) : Engine → Prop
  | empty : Fresh p (empty p)
  | withCatalog : Fresh p (withCatalog p)

theorem Fresh.initial {p : Placeholders} {engine : Engine} (h : Fresh p engine) :
    Initial p engine := by
  cases h with
  | empty => exact .empty
  | withCatalog => exact .withCatalog

theorem restoredRegistry_catalog (p : Placeholders) :
    RestoredRegistry p (withCatalog p).registry := by
  have hfold : ∀ schemes : List Scheme, schemes ⊆ Catalog.schemes →
      (schemes.map Scheme.name).Nodup →
      RestoredRegistry p ⟨schemes.foldr Registry.insertByName []⟩ ∧
        ∀ scheme ∈ schemes.foldr Registry.insertByName [], scheme ∈ schemes := by
    intro schemes
    induction schemes with
    | nil =>
        intro _ _
        exact ⟨restoredRegistry_empty p, by simp⟩
    | cons scheme schemes ih =>
        intro hsubset hnames
        obtain ⟨hscheme, hsubset⟩ := List.cons_subset.mp hsubset
        obtain ⟨hnew, hnames⟩ := List.nodup_cons.mp hnames
        obtain ⟨⟨hsorted, hnamed, hrestorable⟩, hmem⟩ := ih hsubset hnames
        have hfree : Registry.find? ⟨schemes.foldr Registry.insertByName []⟩ scheme.name =
            none := by
          refine Registry.find?_eq_none_iff.mpr fun other hother hname => hnew ?_
          exact hname ▸ List.mem_map_of_mem (hmem other hother)
        refine ⟨⟨hsorted.insertByName hfree,
          hnamed.insertByName (Catalog.isBlankText_name hscheme),
          hrestorable.insertByName (Scheme.restorable_of_mem_catalog hscheme scheme.usage)⟩, ?_⟩
        intro other hother
        rcases Registry.mem_insertByName.mp hother with rfl | hother
        · exact List.mem_cons_self
        · exact List.mem_cons_of_mem scheme (hmem other hother)
  exact (hfold Catalog.schemes (List.Subset.refl _) Catalog.nodup_names).1

/-! ### Engines that their snapshots describe -/

/-- Holds of an engine of which its snapshot tells everything but the shape of the tree. -/
structure Faithful (p : Placeholders) (engine : Engine) : Prop where
  wellFormed : engine.WellFormed
  restorable : engine.registry.Restorable p
  placeholders_eq : engine.placeholders = p

theorem Faithful.restoredRegistry {p : Placeholders} {engine : Engine}
    (h : engine.Faithful p) : RestoredRegistry p engine.registry :=
  ⟨h.wellFormed.sorted, h.wellFormed.named, h.restorable⟩

theorem faithful_restore (p : Placeholders) (snapshot : Snapshot) :
    (restore p snapshot).1.Faithful p :=
  ⟨wellFormed_restore p snapshot,
    (restoredRegistry_restoreSchemes p snapshot.schemes).restorable, rfl⟩

theorem Initial.faithful {p : Placeholders} {engine : Engine} (h : Initial p engine) :
    engine.Faithful p := by
  cases h with
  | empty =>
      obtain ⟨hsorted, hnamed, hrestorable⟩ := restoredRegistry_empty p
      exact ⟨⟨RootTree.ordered_leaf, RootTree.distinctWords_leaf, hsorted, hnamed⟩, hrestorable,
        rfl⟩
  | withCatalog =>
      obtain ⟨hsorted, hnamed, hrestorable⟩ := restoredRegistry_catalog p
      exact ⟨⟨RootTree.ordered_leaf, RootTree.distinctWords_leaf, hsorted, hnamed⟩, hrestorable,
        rfl⟩
  | restored snapshot => exact faithful_restore p snapshot

end Triliteral.Engine

namespace Triliteral.Request

/-- Holds of the requests that register no rule but compiled ones and keep the given
placeholders. -/
def KeepsFaithful (p : Placeholders) : Request → Prop
  | .addExplicitScheme .. => False
  | .reload q => q = p
  | _ => True

end Triliteral.Request

namespace Triliteral.Engine

theorem restorable_update {p : Placeholders} {registry : Registry}
    (hrestorable : registry.Restorable p) (name : String) {change : Scheme → Scheme}
    (hchange : ∀ scheme : Scheme, scheme.Restorable p → (change scheme).Restorable p) :
    (registry.update name change).Restorable p :=
  Registry.forall_update (fun scheme hscheme _ => hchange scheme (hrestorable scheme hscheme))
    fun scheme hscheme _ => hrestorable scheme hscheme

theorem Faithful.update {p : Placeholders} {request : Request}
    (hkeep : request.KeepsFaithful p) {before after : Engine}
    (h : Update request before after) (hbefore : before.Faithful p) : after.Faithful p := by
  have hwellFormed := hbefore.wellFormed.update h
  obtain ⟨-, hrestorable, rfl⟩ := hbefore
  cases h with
  | insertRoot _ _ root => exact ⟨hwellFormed, hrestorable, rfl⟩
  | addDynamic hscheme hadd =>
      obtain ⟨hfree, rfl⟩ := Registry.add_eq_ok_iff.mp hadd
      obtain ⟨-, pattern, hpattern, rfl⟩ := Scheme.compiled_eq_ok_iff.mp hscheme
      exact ⟨hwellFormed,
        hrestorable.insertByName (Scheme.restorable_of_compiled rfl hpattern), rfl⟩
  | addExplicit hscheme hadd => exact hkeep.elim
  | modifyScheme hmodify =>
      obtain ⟨-, pattern, hpattern, rfl⟩ := Registry.modify_eq_ok_iff.mp hmodify
      refine ⟨hwellFormed, ?_, rfl⟩
      apply restorable_update hrestorable
      intro scheme _
      exact Scheme.restorable_of_compiled rfl hpattern
  | removeScheme hremove =>
      obtain ⟨-, rfl⟩ := Registry.remove_eq_ok_iff.mp hremove
      refine ⟨hwellFormed, ?_, rfl⟩
      intro scheme hscheme
      exact hrestorable scheme (Registry.mem_without.mp hscheme).1
  | generate now hfound hscheme hnew =>
      refine ⟨hwellFormed, ?_, rfl⟩
      apply restorable_update hrestorable
      intro scheme hscheme
      exact hscheme.withUsage _
  | validate now hfound hproducers => exact ⟨hwellFormed, hrestorable, rfl⟩
  | reload _ q =>
      obtain rfl : q = before.placeholders := hkeep
      exact faithful_restore _ _

theorem Faithful.run {p : Placeholders} {engine : Engine} (h : engine.Faithful p)
    {steps : List (Occasion × Request)} (hsteps : ∀ step ∈ steps, step.2.KeepsFaithful p) :
    (engine.run steps).2.Faithful p :=
  run_preserves (fun _ hkeep _ _ hupdate hbefore => hbefore.update hkeep hupdate) hsteps h

/-- Every run from a start that registers no rule but compiled ones ends in an engine that its
snapshot describes. -/
theorem Initial.faithful_run {p : Placeholders} {start : Engine} (hstart : Initial p start)
    {steps : List (Occasion × Request)} (hsteps : ∀ step ∈ steps, step.2.KeepsFaithful p) :
    (start.run steps).2.Faithful p :=
  hstart.faithful.run hsteps

theorem WellFormed.entries_restore {engine : Engine} (h : engine.WellFormed) (p : Placeholders) :
    (restore p engine.snapshot).1.tree.entries = engine.tree.entries :=
  (restoreRoots_toRecord h.ordered h.distinctWords).1

theorem Faithful.restore_snapshot {p : Placeholders} {engine : Engine} (h : engine.Faithful p) :
    (restore p engine.snapshot).1.registry = engine.registry ∧
      (restore p engine.snapshot).1.tree.entries = engine.tree.entries ∧
      (restore p engine.snapshot).2 = ⟨[], [], []⟩ := by
  have hschemes := restoreSchemes_toRecord h.restoredRegistry
  obtain ⟨hentries, hinvalid, hduplicates⟩ :=
    restoreRoots_toRecord h.wellFormed.ordered h.wellFormed.distinctWords
  simp only [restore, snapshot, hschemes, hentries, hinvalid, hduplicates, and_self]

end Triliteral.Engine
