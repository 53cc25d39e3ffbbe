import Triliteral.Proofs.HistoryGrowth
import Triliteral.Proofs.LeastAnalysis
import Triliteral.Proofs.UsageAccounting

/-!
Recorded words stay justified. As long as no scheme is modified or removed, every word that is
recorded on a root can still be made of it, so that it is found valid again and can be analyzed.
-/

namespace Triliteral

namespace Registry

def Produces (registry : Registry) (root : Root) (word : String) : Prop :=
  ∃ scheme ∈ registry.schemes, scheme.word root = word

variable {registry next : Registry} {root : Root} {word : String}

theorem producers_ne_nil_iff : registry.producers root word ≠ [] ↔ registry.Produces root word := by
  simp [producers, Produces]

theorem Produces.mono (h : registry.Produces root word)
    (hkept : ∀ scheme ∈ registry.schemes, ∃ kept ∈ next.schemes, kept.rule = scheme.rule) :
    next.Produces root word := by
  obtain ⟨scheme, hscheme, rfl⟩ := h
  obtain ⟨kept, hmem, hrule⟩ := hkept scheme hscheme
  exact ⟨kept, hmem, by rw [Scheme.word, Scheme.word, hrule]⟩

theorem rules_insertByName {scheme : Scheme} :
    ∀ old ∈ registry.schemes, ∃ kept ∈ insertByName scheme registry.schemes,
      kept.rule = old.rule :=
  fun old hold => ⟨old, mem_insertByName.mpr (.inr hold), rfl⟩

theorem rules_countUse (name : String) :
    ∀ old ∈ registry.schemes, ∃ kept ∈ (registry.countUse name).schemes,
      kept.rule = old.rule := by
  intro old hold
  refine ⟨_, mem_update.mpr ⟨old, hold, rfl⟩, ?_⟩
  split <;> rfl

end Registry

/-- Holds of the requests that take no rule away. -/
def Request.KeepsRules : Request → Prop
  | .modifyScheme .. | .removeScheme _ | .reload _ => False
  | _ => True

namespace Engine

def Justified (engine : Engine) : Prop :=
  ∀ entry ∈ engine.tree.entries, ∀ derivation ∈ entry.derivations,
    engine.registry.Produces entry.root derivation.word

variable {engine : Engine}

theorem Justified.withRegistry (h : engine.Justified) {registry : Registry}
    (hkept : ∀ scheme ∈ engine.registry.schemes, ∃ kept ∈ registry.schemes,
      kept.rule = scheme.rule) : Justified { engine with registry } :=
  fun entry hentry derivation hderivation => (h entry hentry derivation hderivation).mono hkept

theorem Justified.record (h : engine.Justified) (hordered : engine.tree.Ordered) {root : Root}
    {derivation : Derivation} (hproduces : engine.registry.Produces root derivation.word) :
    Justified { engine with tree := engine.tree.record root derivation } := by
  intro entry hentry recorded hrecorded
  rw [RootTree.entries_record hordered] at hentry
  obtain ⟨old, hold, rfl⟩ := List.mem_map.mp hentry
  rw [RootEntry.root_recordAt]
  by_cases hroot : old.root = root
  · rw [RootEntry.recordAt, if_pos hroot] at hrecorded
    obtain ⟨new, hnew, -, honly⟩ := derivation.record_eq_append old.derivations
    rcases List.mem_append.mp (hnew ▸ hrecorded) with hmem | hmem
    · exact h old hold recorded hmem
    · obtain rfl := List.mem_singleton.mp (honly hmem)
      exact hroot ▸ hproduces
  · rw [RootEntry.recordAt_of_ne derivation hroot] at hrecorded
    exact h old hold recorded hrecorded

theorem Justified.update {request : Request} (hkeeps : request.KeepsRules) {before after : Engine}
    (hbefore : before.WellFormed) (h : Update request before after)
    (hjustified : before.Justified) : after.Justified := by
  cases h with
  | insertRoot _ _ root =>
      intro entry hentry derivation hderivation
      rcases hbefore.ordered.mem_entries_insert hentry with hold | hempty
      · exact hjustified entry hold derivation hderivation
      · rw [hempty] at hderivation
        cases hderivation
  | addDynamic hscheme hadd | addExplicit hscheme hadd =>
      obtain ⟨-, rfl⟩ := Registry.add_eq_ok_iff.mp hadd
      exact hjustified.withRegistry Registry.rules_insertByName
  | modifyScheme | removeScheme | reload => exact hkeeps.elim
  | @generate _ now text name node scheme hfound hscheme hnew =>
      -- the new word is made by the scheme whose use is counted, and counting keeps its rule
      have hmem := List.mem_of_find?_eq_some (Registry.get_eq_ok_iff.mp hscheme)
      exact (hjustified.record hbefore.ordered ⟨scheme, hmem, rfl⟩).withRegistry
        (Registry.rules_countUse name)
  | validate now hfound hproducers =>
      exact hjustified.record hbefore.ordered (Registry.producers_ne_nil_iff.mp hproducers)

theorem Fresh.justified_run {p : Placeholders} {start : Engine} (hstart : Fresh p start)
    {steps : List (Occasion × Request)} (hsteps : ∀ step ∈ steps, step.2.KeepsRules) :
    (start.run steps).2.Justified := by
  have hjustified : start.Justified := by
    intro entry hentry derivation hderivation
    have hmem := RootTree.mem_derivations.mpr ⟨entry, hentry, hderivation⟩
    rw [hstart.derivations_eq_nil] at hmem
    cases hmem
  refine (run_preserves (P := fun engine => engine.WellFormed ∧ engine.Justified) ?_ hsteps
    ⟨hstart.initial.faithful.wellFormed, hjustified⟩).2
  rintro request hkeeps before after hupdate ⟨hbefore, hjustified⟩
  exact ⟨hbefore.update hupdate, hjustified.update hkeeps hbefore hupdate⟩

/-- A word that is recorded already and can still be made is valid, and nothing changes. -/
theorem validate_of_recorded (hordered : engine.tree.Ordered) {node : RootTree.Node}
    (hnode : node ∈ engine.tree.nodes) {word : String}
    (hrecorded : word ∈ node.entry.derivations.map Derivation.word)
    (hproducers : engine.registry.producers node.entry.root word ≠ []) (now : Occasion) :
    engine.validate now node.entry.root.text word =
      .ok (engine.registry.producers node.entry.root word, engine) := by
  have hfound := (findRoot_eq_ok_iff hordered).mpr ⟨hnode, rfl⟩
  have hfind := (RootTree.find?_eq_some_iff hordered).mpr ⟨hnode, rfl⟩
  rw [validate, hfound, ok_bind]
  dsimp only
  split
  · next hnone => exact absurd hnone hproducers
  · next hsome =>
    obtain ⟨-, htree⟩ : _ ∧ engine.tree.record node.entry.root
        ⟨word, now.choose (engine.registry.producers node.entry.root word), now.time⟩ =
          engine.tree :=
      RootTree.record_of_find? hfind hrecorded
    rw [htree]
    rfl

theorem exists_analysis_of_produces (hordered : engine.tree.Ordered) {root : Root}
    (hroot : root ∈ engine.tree.roots) {word : String}
    (hproduces : engine.registry.Produces root word) :
    ∃ found, engine.analyze word = some found ∧ ¬ root < found.root := by
  have hproducers := Registry.producers_ne_nil_iff.mpr hproduces
  cases hfound : engine.analyze word with
  | none => exact absurd (analyze_eq_none_iff.mp hfound root hroot) hproducers
  | some found =>
      obtain ⟨-, -, -, hleast⟩ := (analyze_eq_some_iff hordered).mp hfound
      exact ⟨found, rfl, fun hlt => hproducers (hleast root hroot hlt)⟩

/-- In every run from a start without a snapshot that neither modifies nor removes a scheme, and
whatever else it requests, a word that is recorded on a root is made of it by a registered scheme.
Validating the word again names such schemes and changes nothing, and analyzing it finds a root that
is not greater. -/
theorem recorded_words_justified {p : Placeholders} {start : Engine} (hstart : Fresh p start)
    {steps : List (Occasion × Request)} (hsteps : ∀ step ∈ steps, step.2.KeepsRules)
    (now : Occasion) :
    let engine := (start.run steps).2
    ∀ (root : Root) (history : List Derivation), engine.derivations root.text = .ok history →
      ∀ derivation ∈ history,
        (∃ scheme ∈ engine.registry.schemes, scheme.word root = derivation.word) ∧
        (∃ names, names ≠ [] ∧
          engine.perform now (.validate root.text derivation.word) = (.verdict names, engine)) ∧
        ∃ found, engine.analyze derivation.word = some found ∧ ¬ root.text < found.root.text := by
  intro engine root history hhistory derivation hderivation
  have hengine : engine.WellFormed := hstart.initial.faithful.wellFormed.run steps
  have hjustified : engine.Justified := hstart.justified_run hsteps
  obtain ⟨entry, hentry, hroot, rfl⟩ := (derivations_eq_ok_iff hengine.ordered).mp hhistory
  obtain rfl := Root.text_injective hroot
  have hproduces := hjustified entry hentry derivation hderivation
  have hproducers := Registry.producers_ne_nil_iff.mpr hproduces
  obtain ⟨node, hnode, rfl⟩ := List.mem_map.mp hentry
  refine ⟨hproduces, ⟨_, hproducers, ?_⟩, ?_⟩
  · rw [perform, validate_of_recorded hengine.ordered hnode (List.mem_map_of_mem hderivation)
      hproducers]
    rfl
  · obtain ⟨found, hfound, hle⟩ := exists_analysis_of_produces hengine.ordered
      (RootTree.mem_roots_of_mem_nodes hnode) hproduces
    exact ⟨found, hfound, fun hlt => hle (Root.text_lt_text_iff.mp hlt)⟩

/-- One word is made of two roots, by a scheme that is added after roots were rotated; a second
scheme of that name is refused. -/
def sharedWord : List (Occasion × Request) :=
  [.loadRoots ["كتب", "درس", "علم", "كلم"],
    .addExplicitScheme "مطلع" .custom fun root => String.ofList [root.first],
    .addScheme "مطلع" .custom, .validate "كلم" "ك", .generate "درس" "فاعل",
    .generate "درس" "مطلع"].map (Occasion.ofEpoch 0, ·)

theorem recorded_words_justified_sharedWord :
    let engine := ((withCatalog .standard).run sharedWord).2
    (∀ step ∈ sharedWord, step.2.KeepsRules) ∧
      ∃ history derivation, engine.derivations "كلم" = .ok history ∧ derivation ∈ history ∧
        derivation.word = "ك" ∧ derivation.scheme = "مطلع" ∧
        (∃ names, names ≠ [] ∧ engine.perform (Occasion.ofEpoch 60) (.validate "كلم" "ك") =
          (.verdict names, engine)) ∧
        ∃ found, engine.analyze "ك" = some found ∧ ¬ "كلم" < found.root.text := by
  intro engine
  have hsteps : ∀ step ∈ sharedWord, step.2.KeepsRules := by
    simp [sharedWord, Request.KeepsRules]
  have hhistory : engine.derivations "كلم" = .ok [⟨"ك", "مطلع", Instant.ofEpoch 0⟩] := by
    decide +kernel
  obtain ⟨-, hvalid, hanalysis⟩ := recorded_words_justified .withCatalog hsteps
    (Occasion.ofEpoch 60) ⟨'ك', 'ل', 'م'⟩ _ hhistory _ List.mem_cons_self
  exact ⟨hsteps, _, _, hhistory, List.mem_cons_self, rfl, rfl, hvalid, hanalysis⟩

end Engine

end Triliteral
