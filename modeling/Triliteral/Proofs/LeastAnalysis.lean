import Triliteral.Proofs.CleanRestoration

/-!
What an analysis finds. A word is valid on a root exactly if some registered scheme generates it
from the root; an analysis gives the least root on which the word is valid, with all the schemes
that generate it there, and nothing if there is no such root.
-/

namespace Triliteral

theorem Registry.mem_producers_iff {registry : Registry} {root : Root} {word name : String} :
    name ∈ registry.producers root word ↔
      ∃ scheme ∈ registry.schemes, scheme.word root = word ∧ scheme.name = name := by
  simp [producers, and_assoc]

namespace Engine

/-- The schemes that are named when a word of a root is validated; none if it is not valid. -/
def verdict (now : Occasion) (engine : Engine) (text word : String) :
    Except Fault (List String) :=
  (engine.validate now text word).map Prod.fst

variable {engine : Engine} {now : Occasion} {text word name : String}

/-! ### Validation and generation -/

theorem verdict_eq (now : Occasion) (engine : Engine) (text word : String) :
    engine.verdict now text word =
      (engine.findRoot text).map fun node => engine.registry.producers node.entry.root word := by
  rw [verdict, validate]
  cases engine.findRoot text with
  | error fault => rfl
  | ok node =>
      simp only [ok_bind]
      split
      · next hnone =>
        rw [Except.map, hnone]
        rfl
      · rfl

theorem findRoot_text (hordered : engine.tree.Ordered) {root : Root}
    (hroot : root ∈ engine.tree.roots) :
    ∃ node, engine.findRoot root.text = .ok node ∧ node.entry.root = root := by
  obtain ⟨node, hnode, rfl⟩ := RootTree.mem_roots_iff.mp hroot
  exact ⟨node, (findRoot_eq_ok_iff hordered).mpr ⟨hnode, rfl⟩, rfl⟩

theorem verdict_text (hordered : engine.tree.Ordered) {root : Root}
    (hroot : root ∈ engine.tree.roots) (now : Occasion) (word : String) :
    engine.verdict now root.text word = .ok (engine.registry.producers root word) := by
  obtain ⟨node, hfound, rfl⟩ := findRoot_text hordered hroot
  rw [verdict_eq, hfound]
  rfl

theorem map_fst_generate_eq_ok_iff (hengine : engine.WellFormed) {root : Root}
    (hroot : root ∈ engine.tree.roots) :
    (engine.generate now root.text name).map Prod.fst = .ok word ↔
      name ∈ engine.registry.producers root word := by
  obtain ⟨node, hfound, rfl⟩ := findRoot_text hengine.ordered hroot
  rw [Registry.mem_producers_iff]
  cases hscheme : engine.registry.find? name with
  | none =>
      have hunknown : engine.registry.get name = .error (.schemeNotFound name) := by
        rw [Registry.get, hscheme]
      rw [generate, hfound, ok_bind, hunknown, error_bind]
      constructor
      · intro h
        cases h
      · rintro ⟨scheme, hmem, -, hname⟩
        exact absurd hname (Registry.find?_eq_none_iff.mp hscheme scheme hmem)
  | some scheme =>
      have hgenerate : (engine.generate now node.entry.root.text name).map Prod.fst =
          .ok (scheme.word node.entry.root) := by
        rw [map_fst_generate hscheme, hfound]
        rfl
      rw [hgenerate, Except.ok.injEq]
      constructor
      · intro hword
        obtain ⟨hmem, hname⟩ := (Registry.find?_eq_some_iff hengine.sorted).mp hscheme
        exact ⟨scheme, hmem, hword, hname⟩
      · rintro ⟨other, hmem, hword, hname⟩
        have hother := (Registry.find?_eq_some_iff hengine.sorted).mpr ⟨hmem, hname⟩
        obtain rfl : other = scheme := Option.some.inj (hother.symm.trans hscheme)
        exact hword

/-! ### Analysis -/

theorem analysis_eq_none_iff {registry : Registry} {root : Root} :
    (match registry.producers root word with
      | [] => none
      | names => some (⟨root, names⟩ : Analysis)) = none ↔ registry.producers root word = [] := by
  split <;> simp_all

theorem analyze_eq_none_iff :
    engine.analyze word = none ↔
      ∀ root ∈ engine.tree.roots, engine.registry.producers root word = [] := by
  rw [analyze, List.findSome?_eq_none_iff]
  exact forall₂_congr fun root _ => analysis_eq_none_iff

/-- In an ordered tree the first root that has a producer is the least one. -/
theorem analyze_eq_some_iff (hordered : engine.tree.Ordered) {found : Analysis} :
    engine.analyze word = some found ↔
      found.root ∈ engine.tree.roots ∧ engine.registry.producers found.root word = found.schemes ∧
        found.schemes ≠ [] ∧
        ∀ root ∈ engine.tree.roots, root < found.root →
          engine.registry.producers root word = [] := by
  rw [analyze, List.findSome?_eq_some_iff]
  constructor
  · rintro ⟨before, root, after, hsplit, hroot, hbefore⟩
    have hsorted : (before ++ root :: after).Pairwise (· < ·) := hsplit ▸ hordered
    obtain ⟨-, hafter, -⟩ := List.pairwise_append.mp hsorted
    split at hroot
    · cases hroot
    · next hproducers =>
      obtain rfl := Option.some.inj hroot
      refine ⟨by simp [hsplit], rfl, hproducers, ?_⟩
      intro other hother hlt
      rw [hsplit, List.mem_append, List.mem_cons] at hother
      rcases hother with hother | rfl | hother
      · exact analysis_eq_none_iff.mp (hbefore other hother)
      · exact absurd hlt (Root.lt_irrefl other)
      · exact absurd hlt (Root.not_lt_of_lt ((List.pairwise_cons.mp hafter).1 other hother))
  · rintro ⟨hmem, hproducers, hne, hleast⟩
    obtain ⟨before, after, hsplit⟩ := List.append_of_mem hmem
    have hsorted : (before ++ found.root :: after).Pairwise (· < ·) := hsplit ▸ hordered
    refine ⟨before, found.root, after, hsplit, ?_, ?_⟩
    · split
      · next hnone => exact absurd (hproducers.symm.trans hnone) hne
      · rw [hproducers]
    · -- what comes before the root in the tree is less, so that it has no producer
      intro other hother
      have hlt := (List.pairwise_append.mp hsorted).2.2 other hother _ List.mem_cons_self
      exact analysis_eq_none_iff.mpr (hleast other (by simp [hsplit, hother]) hlt)

/-- An analysis finds nothing exactly if the word is valid on no stored root. Otherwise it finds
the least stored root on which the word is valid, by the order of texts, and names the schemes
that validation names there. On every stored root these are exactly the registered schemes that
generate the word from it. -/
theorem analyze_least_valid {p : Placeholders} {start : Engine} (hstart : Initial p start)
    (steps : List (Occasion × Request)) (now : Occasion) (word : String) :
    let engine := (start.run steps).2
    (engine.analyze word = none ↔
      ∀ text ∈ engine.listRoots, engine.verdict now text word = .ok []) ∧
    (∀ found, engine.analyze word = some found ↔
      found.root.text ∈ engine.listRoots ∧
        engine.verdict now found.root.text word = .ok found.schemes ∧ found.schemes ≠ [] ∧
        ∀ text ∈ engine.listRoots, text < found.root.text →
          engine.verdict now text word = .ok []) ∧
    ∀ text ∈ engine.listRoots, ∃ names, engine.verdict now text word = .ok names ∧
      ∀ name, name ∈ names ↔ (engine.generate now text name).map Prod.fst = .ok word := by
  intro engine
  have hengine : engine.WellFormed := hstart.faithful.wellFormed.run steps
  have hinvalid : ∀ root ∈ engine.tree.roots,
      engine.verdict now root.text word = .ok [] ↔ engine.registry.producers root word = [] := by
    intro root hroot
    rw [verdict_text hengine.ordered hroot, Except.ok.injEq]
  have hall : ∀ P : String → Prop,
      (∀ text ∈ engine.listRoots, P text) ↔ ∀ root ∈ engine.tree.roots, P root.text :=
    fun P => List.forall_mem_map
  refine ⟨?_, ?_, ?_⟩
  · rw [analyze_eq_none_iff, hall]
    exact (forall₂_congr hinvalid).symm
  · intro found
    rw [analyze_eq_some_iff hengine.ordered, hall]
    have hstored : found.root.text ∈ engine.listRoots ↔ found.root ∈ engine.tree.roots :=
      List.mem_map_of_injective fun a b => Root.text_injective
    rw [hstored]
    refine and_congr_right fun hmem => ?_
    rw [verdict_text hengine.ordered hmem, Except.ok.injEq]
    refine and_congr_right fun _ => and_congr_right fun _ => forall₂_congr fun root hroot => ?_
    rw [hinvalid root hroot, Root.text_lt_text_iff]
  · rw [hall]
    intro root hroot
    refine ⟨_, verdict_text hengine.ordered hroot now word, fun name => ?_⟩
    exact (map_fst_generate_eq_ok_iff hengine hroot).symm

/-- Two schemes make the first letter of a root; two of three roots begin with the same one. -/
def initials : List (Occasion × Request) :=
  [.addRoot "كلم", .addRoot "كتب", .addRoot "درس",
    .addExplicitScheme "مطلع" .custom fun root => String.ofList [root.first],
    .addExplicitScheme "أول" .custom fun root => String.ofList [root.first]].map
    (Occasion.ofEpoch 0, ·)

theorem analyze_least_valid_initials :
    let engine := ((withCatalog .standard).run initials).2
    engine.analyze "ك" = some ⟨⟨'ك', 'ت', 'ب'⟩, ["أول", "مطلع"]⟩ ∧
      engine.verdict (Occasion.ofEpoch 0) "كتب" "ك" = .ok ["أول", "مطلع"] ∧
      engine.verdict (Occasion.ofEpoch 0) "درس" "ك" = .ok [] ∧
      engine.analyze "كك" = none ∧
      ∀ text ∈ engine.listRoots, engine.verdict (Occasion.ofEpoch 0) text "كك" = .ok [] := by
  intro engine
  have hstart : Initial .standard (withCatalog .standard) := .withCatalog
  obtain ⟨-, hsome, -⟩ := analyze_least_valid hstart initials (Occasion.ofEpoch 0) "ك"
  obtain ⟨hnone, -⟩ := analyze_least_valid hstart initials (Occasion.ofEpoch 0) "كك"
  have hfound : engine.analyze "ك" = some ⟨⟨'ك', 'ت', 'ب'⟩, ["أول", "مطلع"]⟩ := by
    decide +kernel
  have hmissing : engine.analyze "كك" = none := by
    decide +kernel
  obtain ⟨-, hverdict, -, hleast⟩ := (hsome _).mp hfound
  exact ⟨hfound, hverdict, hleast "درس" (by decide +kernel) (by decide +kernel), hmissing,
    hnone.mp hmissing⟩

end Engine

end Triliteral
