import Triliteral.Proofs.OccasionAgreement
import Triliteral.Proofs.ConsecutiveLoads
import Triliteral.Proofs.HistoryGrowth

/-!
A restored engine cannot be told from the one whose snapshot it was restored from. Both answer
every later run alike, though their trees may have different shapes. Where the two answer on
different occasions, the derivations recorded from then on differ in their times, and in which of
the schemes that make a word they name.
-/

namespace Triliteral.Engine

variable {ticks : Ticks}

/-! ### Agreement of engines -/

/-- Two engines that differ at most in the shapes of their ordered trees and by the occasions of the
same steps. -/
structure Agrees (ticks : Ticks) (a b : Engine) : Prop where
  left_ordered : a.tree.Ordered
  right_ordered : b.tree.Ordered
  tree : a.tree.Agrees ticks b.tree
  registry_eq : a.registry = b.registry
  placeholders_eq : a.placeholders = b.placeholders

variable {a b : Engine}

theorem Agrees.withRegistry (h : a.Agrees ticks b) (registry : Registry) :
    Agrees ticks { a with registry } { b with registry } :=
  { h with registry_eq := rfl }

theorem Agrees.record (h : a.Agrees ticks b) (root : Root) {d d' : Derivation}
    (hnew : d.Agrees ticks d') :
    Agrees ticks { a with tree := a.tree.record root d }
      { b with tree := b.tree.record root d' } :=
  { h with
    left_ordered := h.left_ordered.record root d
    right_ordered := h.right_ordered.record root d'
    tree := h.tree.record h.left_ordered h.right_ordered root hnew }

theorem Agrees.listRoots_eq (h : a.Agrees ticks b) : a.listRoots = b.listRoots := by
  rw [Engine.listRoots, Engine.listRoots, h.tree.roots_eq]

theorem Agrees.size_eq (h : a.Agrees ticks b) : a.tree.size = b.tree.size := by
  rw [RootTree.size_eq_length_roots, RootTree.size_eq_length_roots, h.tree.roots_eq]

theorem Agrees.analyze_eq (h : a.Agrees ticks b) (word : String) :
    a.analyze word = b.analyze word := by
  rw [Engine.analyze, Engine.analyze, h.tree.roots_eq, h.registry_eq]

theorem Agrees.findRoot (h : a.Agrees ticks b) (text : String) :
    OutcomesAgree (fun node node' => node.entry.Agrees ticks node'.entry) (a.findRoot text)
      (b.findRoot text) := by
  rw [Engine.findRoot, Engine.findRoot]
  rcases h.tree.findText? h.left_ordered h.right_ordered text with
    ⟨hmiss, hmiss'⟩ | ⟨node, node', hfound, hfound', hagrees⟩
  · rw [hmiss, hmiss']
    rfl
  · rw [hfound, hfound']
    exact hagrees

theorem Agrees.addRoot (h : a.Agrees ticks b) (text : String) :
    OutcomesAgree (Agrees ticks) (a.addRoot text) (b.addRoot text) := by
  rw [Engine.addRoot, Engine.addRoot]
  cases Root.ofText? text with
  | none => rfl
  | some root =>
      have htree := h.tree.insert h.left_ordered h.right_ordered root
      have hordered := h.left_ordered.insert root
      have hordered' := h.right_ordered.insert root
      rcases hinsert : a.tree.insert root with ⟨outcome, tree⟩
      rcases hinsert' : b.tree.insert root with ⟨outcome', tree'⟩
      rw [hinsert, hinsert'] at htree
      rw [hinsert] at hordered
      rw [hinsert'] at hordered'
      obtain ⟨rfl, htree⟩ := htree
      simp only [hinsert, hinsert']
      cases outcome with
      | added =>
          exact { h with left_ordered := hordered, right_ordered := hordered', tree := htree }
      | alreadyPresent => rfl

theorem Agrees.loadRoot (h : a.Agrees ticks b) (report : LoadReport) (text : String) :
    (Engine.loadRoot (report, a) text).1 = (Engine.loadRoot (report, b) text).1 ∧
      (Engine.loadRoot (report, a) text).2.Agrees ticks
        (Engine.loadRoot (report, b) text).2 := by
  simp only [Engine.loadRoot]
  rcases outcomesAgree_iff.mp (h.addRoot text) with
    ⟨next, next', hleft, hright, hnext⟩ | ⟨fault, hleft, hright⟩
  · rw [hleft, hright]
    exact ⟨rfl, hnext⟩
  · rw [hleft, hright]
    cases fault <;> exact ⟨rfl, h⟩

theorem Agrees.loadRoots (h : a.Agrees ticks b) (texts : List String) :
    (a.loadRoots texts).1 = (b.loadRoots texts).1 ∧
      (a.loadRoots texts).2.Agrees ticks (b.loadRoots texts).2 := by
  induction texts generalizing a b with
  | nil => exact ⟨rfl, h⟩
  | cons text texts ih =>
      obtain ⟨hfirst, hnext⟩ := h.loadRoot ⟨0, 0, 0⟩ text
      obtain ⟨hrest, hlast⟩ := ih hnext
      rw [loadRoots_cons a, loadRoots_cons b]
      exact ⟨congrArg₂ (· + ·) hfirst hrest, hlast⟩

theorem Agrees.changeRegistry (h : a.Agrees ticks b) (outcome : Except Fault Registry) :
    OutcomesAgree (Agrees ticks) (outcome >>= fun registry => pure { a with registry })
      (outcome >>= fun registry => pure { b with registry }) := by
  refine (outcomesAgree_refl outcome).bind ?_
  rintro registry _ rfl
  exact h.withRegistry registry

theorem Agrees.addScheme (h : a.Agrees ticks b) (name : String) (category : Category) :
    OutcomesAgree (Agrees ticks) (a.addScheme name category) (b.addScheme name category) := by
  have hcompiled : Scheme.dynamic a.placeholders name category =
      Scheme.dynamic b.placeholders name category := by
    rw [h.placeholders_eq]
  unfold Engine.addScheme
  rw [hcompiled]
  refine (outcomesAgree_refl (Scheme.dynamic b.placeholders name category)).bind ?_
  rintro scheme _ rfl
  rw [h.registry_eq]
  exact h.changeRegistry (b.registry.add scheme)

theorem Agrees.addExplicitScheme (h : a.Agrees ticks b) (name : String) (category : Category)
    (word : Root → String) :
    OutcomesAgree (Agrees ticks) (a.addExplicitScheme name category word)
      (b.addExplicitScheme name category word) := by
  unfold Engine.addExplicitScheme
  refine (outcomesAgree_refl (Scheme.explicit name category word)).bind ?_
  rintro scheme _ rfl
  rw [h.registry_eq]
  exact h.changeRegistry (b.registry.add scheme)

theorem Agrees.modifyScheme (h : a.Agrees ticks b) (name pattern : String) :
    OutcomesAgree (Agrees ticks) (a.modifyScheme name pattern)
      (b.modifyScheme name pattern) := by
  have hmodified : a.registry.modify a.placeholders name pattern =
      b.registry.modify b.placeholders name pattern := by
    rw [h.registry_eq, h.placeholders_eq]
  unfold Engine.modifyScheme
  rw [hmodified]
  exact h.changeRegistry (b.registry.modify b.placeholders name pattern)

theorem Agrees.removeScheme (h : a.Agrees ticks b) (name : String) :
    OutcomesAgree (Agrees ticks) (a.removeScheme name) (b.removeScheme name) := by
  unfold Engine.removeScheme
  rw [h.registry_eq]
  refine (outcomesAgree_refl (b.registry.remove name)).bind ?_
  rintro removed _ rfl
  exact h.withRegistry removed.2

theorem Agrees.generate (h : a.Agrees ticks b) {now now' : Occasion} {names : List String}
    (htick : ⟨now, now', names⟩ ∈ ticks) (text name : String) :
    OutcomesAgree (fun x y => x.1 = y.1 ∧ x.2.Agrees ticks y.2) (a.generate now text name)
      (b.generate now' text name) := by
  rw [Engine.generate, Engine.generate, ← h.registry_eq]
  refine (h.findRoot text).bind fun node node' hnode => ?_
  refine (outcomesAgree_refl (a.registry.get name)).bind ?_
  rintro scheme _ rfl
  have hany : ∀ word : String,
      (node.entry.derivations.any fun earlier => earlier.word == word) =
        node'.entry.derivations.any fun earlier => earlier.word == word := by
    intro word
    rw [Bool.eq_iff_iff, Derivation.any_word_iff, Derivation.any_word_iff,
      words_eq_of_agrees hnode.2]
  dsimp only
  rw [hany, hnode.1]
  split
  · exact ⟨rfl, h⟩
  · have hnew := Derivation.agrees_of_tick htick (scheme.word node'.entry.root) name
    exact ⟨rfl, (h.record node'.entry.root hnew).withRegistry _⟩

theorem Agrees.validate (h : a.Agrees ticks b) {now now' : Occasion}
    {text word : String} (htick : ∀ node, a.findRoot text = .ok node →
      ⟨now, now', a.registry.producers node.entry.root word⟩ ∈ ticks) :
    OutcomesAgree (fun x y => x.1 = y.1 ∧ x.2.Agrees ticks y.2) (a.validate now text word)
      (b.validate now' text word) := by
  rw [Engine.validate, Engine.validate, ← h.registry_eq]
  rcases outcomesAgree_iff.mp (h.findRoot text) with
    ⟨node, node', hleft, hright, hnode⟩ | ⟨fault, hleft, hright⟩
  · have hchosen := htick node hleft
    rw [hleft, hright, ok_bind, ok_bind]
    dsimp only
    rw [hnode.1] at hchosen ⊢
    cases hnames : a.registry.producers node'.entry.root word with
    | nil => exact ⟨rfl, h⟩
    | cons name names =>
        rw [hnames] at hchosen
        have hnew := Derivation.agrees_of_choice hchosen (List.cons_ne_nil name names) word
        exact ⟨rfl, (h.record node'.entry.root hnew).withRegistry _⟩
  · rw [hleft, hright]
    rfl

theorem Agrees.derivations (h : a.Agrees ticks b) (text : String) :
    OutcomesAgree (List.Forall₂ (Derivation.Agrees ticks)) (a.derivations text)
      (b.derivations text) := by
  rw [Engine.derivations, Engine.derivations]
  exact (h.findRoot text).map fun node node' hnode => hnode.2

theorem Agrees.snapshot (h : a.Agrees ticks b) : a.snapshot.Agrees ticks b.snapshot := by
  refine ⟨by rw [Engine.snapshot, Engine.snapshot, h.registry_eq], ?_⟩
  rw [Engine.snapshot, Engine.snapshot, List.forall₂_map_left_iff, List.forall₂_map_right_iff]
  refine List.Forall₂.imp (fun x y hxy => ?_) h.tree
  exact ⟨congrArg Root.text hxy.1, hxy.2⟩

theorem Agrees.restore (h : a.Agrees ticks b) (ha : a.WellFormed) (hb : b.WellFormed)
    (p : Placeholders) :
    (Engine.restore p a.snapshot).2 = (Engine.restore p b.snapshot).2 ∧
      (Engine.restore p a.snapshot).1.Agrees ticks (Engine.restore p b.snapshot).1 := by
  have hrestored := restoreRoots_toRecord ha.ordered ha.distinctWords
  have hrestored' := restoreRoots_toRecord hb.ordered hb.distinctWords
  have hschemes : a.snapshot.schemes = b.snapshot.schemes := h.snapshot.1
  obtain ⟨hentries, hinvalid, hduplicates⟩ := hrestored
  obtain ⟨hentries', hinvalid', hduplicates'⟩ := hrestored'
  refine ⟨?_, (wellFormed_restore p a.snapshot).ordered,
    (wellFormed_restore p b.snapshot).ordered, ?_, ?_, rfl⟩
  · simp only [Engine.restore, hschemes]
    simp only [Engine.snapshot, hinvalid, hduplicates, hinvalid', hduplicates']
  · rw [RootTree.Agrees]
    exact hentries ▸ hentries' ▸ h.tree
  · simp only [Engine.restore, hschemes]

/-! ### Agreement of runs -/

theorem Agrees.settle {α : Type} (h : a.Agrees ticks b) {answer : α → Response}
    {outcome outcome' : Except Fault (α × Engine)}
    (houtcome : OutcomesAgree (fun x y => (answer x.1).Agrees ticks (answer y.1) ∧
      x.2.Agrees ticks y.2) outcome outcome') :
    (a.settle answer outcome).1.Agrees ticks (b.settle answer outcome').1 ∧
      (a.settle answer outcome).2.Agrees ticks (b.settle answer outcome').2 := by
  rcases outcomesAgree_iff.mp houtcome with ⟨x, y, rfl, rfl, hxy⟩ | ⟨fault, rfl, rfl⟩
  · exact hxy
  · exact ⟨Response.agrees_refl _, h⟩

theorem Agrees.settleDone (h : a.Agrees ticks b) {outcome outcome' : Except Fault Engine}
    (houtcome : OutcomesAgree (Agrees ticks) outcome outcome') :
    (a.settleDone outcome).1.Agrees ticks (b.settleDone outcome').1 ∧
      (a.settleDone outcome).2.Agrees ticks (b.settleDone outcome').2 :=
  h.settle (houtcome.map fun _ _ hnext => ⟨Response.agrees_refl _, hnext⟩)

theorem Agrees.settleSame {α : Type} (h : a.Agrees ticks b) {answer : α → Response}
    {outcome outcome' : Except Fault (α × Engine)}
    (houtcome : OutcomesAgree (fun x y => x.1 = y.1 ∧ x.2.Agrees ticks y.2) outcome outcome') :
    (a.settle answer outcome).1.Agrees ticks (b.settle answer outcome').1 ∧
      (a.settle answer outcome).2.Agrees ticks (b.settle answer outcome').2 := by
  refine h.settle (houtcome.imp fun x y hxy => ⟨?_, hxy.2⟩)
  rw [hxy.1]
  exact Response.agrees_refl _

theorem named_validate {engine : Engine} {text : String} {node : RootTree.Node}
    (hfound : engine.findRoot text = .ok node) (now : Occasion) (word : String) :
    (engine.perform now (.validate text word)).1.named =
      engine.registry.producers node.entry.root word := by
  rw [Engine.perform, Engine.validate, hfound, ok_bind]
  dsimp only
  cases engine.registry.producers node.entry.root word <;> rfl

/-- Answering a request keeps engines in agreement, whatever the two occasions are. -/
theorem Agrees.perform (h : a.Agrees ticks b) (ha : a.WellFormed) (hb : b.WellFormed)
    {now now' : Occasion} {request : Request}
    (htick : ⟨now, now', (a.perform now request).1.named⟩ ∈ ticks) :
    (a.perform now request).1.Agrees ticks (b.perform now' request).1 ∧
      (a.perform now request).2.Agrees ticks (b.perform now' request).2 := by
  cases request with
  | addRoot text => exact h.settleDone (h.addRoot text)
  | loadRoots texts =>
      obtain ⟨hreport, hnext⟩ := h.loadRoots texts
      exact ⟨congrArg Response.loaded hreport, hnext⟩
  | addScheme name category => exact h.settleDone (h.addScheme name category)
  | addExplicitScheme name category word =>
      exact h.settleDone (h.addExplicitScheme name category word)
  | modifyScheme name pattern => exact h.settleDone (h.modifyScheme name pattern)
  | removeScheme name => exact h.settleDone (h.removeScheme name)
  | generate root scheme => exact h.settleSame (h.generate htick root scheme)
  | validate root word =>
      refine h.settleSame (h.validate fun node hfound => ?_)
      rwa [named_validate hfound] at htick
  | analyze word => exact ⟨congrArg Response.analysis (h.analyze_eq word), h⟩
  | listRoots => exact ⟨congrArg Response.roots h.listRoots_eq, h⟩
  | derivations root =>
      exact h.settle ((h.derivations root).map fun history history' hhistory => ⟨hhistory, h⟩)
  | listSchemes =>
      have hsummaries : a.registry.summaries = b.registry.summaries := by
        rw [h.registry_eq]
      exact ⟨congrArg Response.schemes hsummaries, h⟩
  | schemesOf category =>
      have hsummaries : a.registry.summariesOf category = b.registry.summariesOf category := by
        rw [h.registry_eq]
      exact ⟨congrArg Response.schemes hsummaries, h⟩
  | popular limit =>
      have hsummaries : a.registry.mostUsed limit = b.registry.mostUsed limit := by
        rw [h.registry_eq]
      exact ⟨congrArg Response.schemes hsummaries, h⟩
  | snapshot => exact ⟨h.snapshot, h⟩
  | reload p =>
      obtain ⟨hreport, hnext⟩ := h.restore ha hb p
      exact ⟨congrArg Response.reloaded hreport, hnext⟩

/-- Engines that agree answer every run alike, each on its own occasions. -/
theorem Agrees.run {steps : List (Occasion × Occasion × Request)} (ha : a.WellFormed)
    (hb : b.WellFormed) (h : a.Agrees ticks b)
    (hsteps : ticksOf steps (a.run (steps.map fun (now, _, request) => (now, request))).1 ⊆
      ticks) :
    List.Forall₂ (Response.Agrees ticks)
      (a.run (steps.map fun (now, _, request) => (now, request))).1
      (b.run (steps.map fun (_, now, request) => (now, request))).1 := by
  induction steps generalizing a b with
  | nil => exact .nil
  | cons step rest ih =>
      obtain ⟨now, now', request⟩ := step
      obtain ⟨hresponse, hnext⟩ := h.perform ha hb (hsteps List.mem_cons_self)
      refine .cons hresponse ?_
      apply ih (ha.perform now request) (hb.perform now' request) hnext
      exact fun tick htick => hsteps (List.mem_cons_of_mem _ htick)

theorem Agrees.run_eq {steps : List (Occasion × Request)} (ha : a.WellFormed)
    (hb : b.WellFormed) (h : a.Agrees {tick | tick.left = tick.right} b) :
    (a.run steps).1 = (b.run steps).1 := by
  induction steps generalizing a b with
  | nil => rfl
  | cons step rest ih =>
      obtain ⟨now, request⟩ := step
      have htick : (⟨now, now, (a.perform now request).1.named⟩ : Tick) ∈
          {tick : Tick | tick.left = tick.right} := rfl
      obtain ⟨hresponse, hnext⟩ := h.perform ha hb htick
      exact congrArg₂ List.cons (Response.eq_of_agrees (fun _ => id) hresponse)
        (ih (ha.perform now request) (hb.perform now request) hnext)

theorem agrees_refl {engine : Engine} (hordered : engine.tree.Ordered) :
    engine.Agrees ticks engine :=
  ⟨hordered, hordered, List.forall₂_same.mpr fun entry _ => entry.agrees_refl, rfl, rfl⟩

/-- What agrees with a faithful engine agrees with the one restored from its snapshot. -/
theorem Agrees.restored {p : Placeholders} (h : a.Agrees ticks b) (hb : b.Faithful p) :
    a.Agrees ticks (Engine.restore p b.snapshot).1 := by
  obtain ⟨hregistry, hentries, -⟩ := hb.restore_snapshot
  refine ⟨h.left_ordered, (wellFormed_restore p b.snapshot).ordered, ?_,
    h.registry_eq.trans hregistry.symm, h.placeholders_eq.trans hb.placeholders_eq⟩
  rw [RootTree.Agrees, hentries]
  exact h.tree

theorem Faithful.agrees_restore {p : Placeholders} {engine : Engine} (h : engine.Faithful p) :
    engine.Agrees ticks (restore p engine.snapshot).1 :=
  (agrees_refl h.wellFormed.ordered).restored h

/-- Restoring a snapshot is a bisimulation. After any run from a start that registers no rule
but compiled ones, the snapshot is restored without complaint, and the restored engine answers
every later run as the old one does on the same occasions. On other occasions its answers differ at
most in the times of derivations and, where a word was validated that several schemes make, in
which of these the derivation names; and only in derivations recorded since then, as both engines
keep the histories of the snapshot and put new derivations after them. -/
theorem restore_snapshot_bisimulation {p : Placeholders} {start : Engine}
    (hstart : Initial p start) {steps : List (Occasion × Request)}
    (hsteps : ∀ step ∈ steps, step.2.KeepsFaithful p) :
    let engine := (start.run steps).2
    let restored := restore p engine.snapshot
    restored.2.isClean = true ∧
    (∀ later : List (Occasion × Request), (restored.1.run later).1 = (engine.run later).1) ∧
    (∀ later : List (Occasion × Occasion × Request),
      let responses := (engine.run (later.map fun (now, _, request) => (now, request))).1
      List.Forall₂ (Response.Agrees (ticksOf later responses)) responses
        (restored.1.run (later.map fun (_, now, request) => (now, request))).1) ∧
    ∀ (later : List (Occasion × Request)) (text : String) (old : List Derivation),
      engine.derivations text = .ok old →
        (∃ new, (engine.run later).2.derivations text = .ok (old ++ new)) ∧
          ∃ new, (restored.1.run later).2.derivations text = .ok (old ++ new) := by
  intro engine restored
  have hfaithful : engine.Faithful p := hstart.faithful_run hsteps
  have hwellFormed : restored.1.WellFormed := wellFormed_restore p engine.snapshot
  refine ⟨?_, ?_, ?_, ?_⟩
  · rw [hfaithful.restore_snapshot.2.2]
    rfl
  · intro later
    exact (hfaithful.agrees_restore.run_eq hfaithful.wellFormed hwellFormed).symm
  · intro later
    exact hfaithful.agrees_restore.run hfaithful.wellFormed hwellFormed (subset_refl _)
  · intro later text old hold
    have hkept : restored.1.derivations text = .ok old := by
      rw [derivations_eq_ok_iff hwellFormed.ordered, hfaithful.restore_snapshot.2.1]
      exact (derivations_eq_ok_iff hfaithful.wellFormed.ordered).mp hold
    exact ⟨hfaithful.wellFormed.derivations_run hold later,
      hwellFormed.derivations_run hkept later⟩

def lesson : List (Occasion × Request) :=
  [.addRoot "كتب", .addRoot "درس", .generate "كتب" "فاعل", .addScheme "مفعلة" .placeNoun,
    .modifyScheme "مفعلة" "مفعلات", .validate "درس" "درس", .removeScheme "فعل"].map
    (Occasion.ofEpoch 0, ·)

theorem restore_snapshot_bisimulation_lesson :
    let engine := ((withCatalog .standard).run lesson).2
    let restored := restore .standard engine.snapshot
    engine.snapshot.roots.map (fun record => (record.root, record.derivations.length)) =
        [("درس", 1), ("كتب", 1)] ∧
      restored.2.isClean = true ∧
      ∀ later : List (Occasion × Request),
        (restored.1.run later).1 = (engine.run later).1 := by
  have hlesson : ∀ step ∈ lesson, step.2.KeepsFaithful .standard := by
    simp [lesson, Request.KeepsFaithful]
  obtain ⟨hclean, hrun, -⟩ := restore_snapshot_bisimulation .withCatalog hlesson
  exact ⟨by decide +kernel, hclean, hrun⟩

def lastAt (time : Instant) : Occasion where
  time := time
  choose names := names.reverse.headD ""
  choose_mem h :=
    List.mem_reverse.mp ((Occasion.firstAt time).choose_mem (List.reverse_ne_nil_iff.mpr h))

/-- Two schemes make the word that is validated, of which the restored engine names the other. -/
theorem restored_engine_names_another :
    let engine := ((withCatalog .standard).run [(Occasion.ofEpoch 0, .addRoot "كاب")]).2
    let restored := (restore .standard engine.snapshot).1
    let time := Instant.ofEpoch 60
    let asked : List Request := [.validate "كاب" "كااب", .derivations "كاب"]
    (engine.run (asked.map (Occasion.firstAt time, ·))).1 =
        [.verdict ["فاعل", "فعال"], .derivations [⟨"كااب", "فاعل", time⟩]] ∧
      (restored.run (asked.map (lastAt time, ·))).1 =
        [.verdict ["فاعل", "فعال"], .derivations [⟨"كااب", "فعال", time⟩]] := by
  decide +kernel

end Triliteral.Engine
