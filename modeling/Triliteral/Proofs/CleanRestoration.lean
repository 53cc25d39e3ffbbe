import Triliteral.Proofs.EngineInvariants

/-!
What a clean restoration report promises. A rule supplied by a caller is not part of a snapshot,
so its scheme gives way to the built-in scheme of the same name; the report is clean exactly if
there always is one. Compiled schemes come back as they were.
-/

namespace Triliteral

namespace Engine

/-! ### Words that an engine generates -/

variable {a b : Engine}

theorem findRoot_eq_error {fault : Fault} {text : String} (h : a.findRoot text = .error fault) :
    fault = .rootNotFound text := by
  rw [findRoot] at h
  split at h
  · simp at h
  · exact (Except.error.inj h).symm

theorem exists_findRoot_of_entries_eq (ha : a.tree.Ordered) (hb : b.tree.Ordered)
    (h : a.tree.entries = b.tree.entries) {text : String} {node : RootTree.Node}
    (hfound : a.findRoot text = .ok node) :
    ∃ other, b.findRoot text = .ok other ∧ other.entry = node.entry := by
  obtain ⟨hnode, htext⟩ := (findRoot_eq_ok_iff ha).mp hfound
  have hentry : node.entry ∈ b.tree.entries := h ▸ List.mem_map_of_mem hnode
  obtain ⟨other, hother, heq⟩ := List.mem_map.mp hentry
  exact ⟨other, (findRoot_eq_ok_iff hb).mpr ⟨hother, heq ▸ htext⟩, heq⟩

theorem map_findRoot_of_entries_eq (ha : a.tree.Ordered) (hb : b.tree.Ordered)
    (h : a.tree.entries = b.tree.entries) (text : String) :
    (a.findRoot text).map RootTree.Node.entry = (b.findRoot text).map RootTree.Node.entry := by
  cases hleft : a.findRoot text with
  | ok node =>
      obtain ⟨other, hother, heq⟩ := exists_findRoot_of_entries_eq ha hb h hleft
      rw [hother]
      exact congrArg Except.ok heq.symm
  | error fault =>
      cases hright : b.findRoot text with
      | ok node =>
          obtain ⟨other, hother, -⟩ := exists_findRoot_of_entries_eq hb ha h.symm hright
          rw [hleft] at hother
          cases hother
      | error fault' => rw [findRoot_eq_error hleft, findRoot_eq_error hright]

theorem map_fst_generate {scheme : Scheme} {name : String}
    (h : a.registry.find? name = some scheme) (now : Occasion) (text : String) :
    (a.generate now text name).map Prod.fst =
      ((a.findRoot text).map RootTree.Node.entry).map fun entry => scheme.word entry.root := by
  rw [generate, Registry.get_eq_ok_iff.mpr h]
  cases a.findRoot text with
  | error fault => rfl
  | ok node =>
      simp only [bind, Except.bind]
      split <;> rfl

/-! ### Patterns of reachable engines -/

def PatternsCompile (engine : Engine) : Prop :=
  ∀ scheme ∈ engine.registry.schemes, scheme.CompilesUnder engine.placeholders

theorem PatternsCompile.update {request : Request} {before after : Engine}
    (h : Update request before after) (hbefore : before.PatternsCompile) :
    after.PatternsCompile := by
  cases h with
  | insertRoot _ _ root => exact hbefore
  | addDynamic hscheme hadd =>
      obtain ⟨-, rfl⟩ := Registry.add_eq_ok_iff.mp hadd
      obtain ⟨-, pattern, hpattern, rfl⟩ := Scheme.compiled_eq_ok_iff.mp hscheme
      exact Registry.forall_insertByName (Scheme.compilesUnder_of_compiled rfl hpattern) hbefore
  | addExplicit hscheme hadd =>
      obtain ⟨-, rfl⟩ := Registry.add_eq_ok_iff.mp hadd
      obtain ⟨-, rfl⟩ := Scheme.explicit_eq_ok_iff.mp hscheme
      refine Registry.forall_insertByName ?_ hbefore
      intro pattern hrule
      exact Rule.noConfusion hrule
  | modifyScheme hmodify =>
      obtain ⟨-, pattern, hpattern, rfl⟩ := Registry.modify_eq_ok_iff.mp hmodify
      exact Registry.forall_update
        (fun _ _ _ => Scheme.compilesUnder_of_compiled rfl hpattern)
        fun scheme hscheme _ => hbefore scheme hscheme
  | removeScheme hremove =>
      obtain ⟨-, rfl⟩ := Registry.remove_eq_ok_iff.mp hremove
      intro scheme hscheme
      exact hbefore scheme (Registry.mem_without.mp hscheme).1
  | generate now hfound hscheme hnew =>
      exact Registry.forall_update (fun scheme hscheme _ => hbefore scheme hscheme)
        fun scheme hscheme _ => hbefore scheme hscheme
  | validate now hfound hproducers => exact hbefore
  | reload _ p =>
      intro scheme hscheme
      have hrestorable := (restoredRegistry_restoreSchemes p before.snapshot.schemes).restorable
      exact (Scheme.restorable_iff.mp (hrestorable scheme hscheme)).1

theorem Initial.patternsCompile_run {p : Placeholders} {start : Engine} (hstart : Initial p start)
    (steps : List (Occasion × Request)) : (start.run steps).2.PatternsCompile := by
  have hpatterns : start.PatternsCompile := by
    obtain ⟨-, hrestorable, rfl⟩ := hstart.faithful
    intro scheme hscheme
    exact (Scheme.restorable_iff.mp (hrestorable scheme hscheme)).1
  have hupdate : ∀ request : Request, True → ∀ before after, Update request before after →
      before.PatternsCompile → after.PatternsCompile :=
    fun _ _ _ _ hupdate hbefore => hbefore.update hupdate
  exact run_preserves hupdate (fun _ _ => trivial) hpatterns

/-! ### Reports -/

/-- Restoring the snapshot of an engine keeps its entries and whatever can be carried over of
its schemes, and reports the names of the others. -/
theorem WellFormed.restore_snapshot {engine : Engine} (h : engine.WellFormed)
    (hpatterns : engine.PatternsCompile) :
    let restored := restore engine.placeholders engine.snapshot
    restored.1.tree.entries = engine.tree.entries ∧
      restored.1.registry = ⟨engine.registry.schemes.filterMap Scheme.carriedOver?⟩ ∧
      restored.2 = ⟨(engine.registry.schemes.filter fun scheme =>
        scheme.carriedOver?.isNone).map Scheme.name, [], []⟩ := by
  have hschemes := restoreSchemes_eq h.sorted h.named hpatterns
  obtain ⟨hentries, hinvalid, hduplicates⟩ := restoreRoots_toRecord h.ordered h.distinctWords
  simp only [restore, snapshot, hschemes, hentries, hinvalid, hduplicates, and_self]

end Engine

namespace Scheme

theorem exists_carriedOver?_iff {scheme : Scheme} :
    (∃ kept, scheme.carriedOver? = some kept) ↔
      (scheme.isDynamic = false → scheme.name ∈ Catalog.schemes.map name) := by
  obtain ⟨name, category, rule, usage⟩ := scheme
  cases rule with
  | explicit word =>
      rw [← Catalog.exists_find?_iff]
      simp [carriedOver?, isDynamic, Rule.source?]
  | compiled pattern => simp [carriedOver?, isDynamic, Rule.source?]

/-- What is kept of a scheme that is stored and restored without a complaint. -/
structure CarriedOver (old kept : Scheme) : Prop where
  name_eq : kept.name = old.name
  isDynamic_eq : kept.isDynamic = old.isDynamic
  source_eq : kept.rule.source? = old.rule.source?
  usage_eq : kept.usage = old.usage
  of_dynamic : old.isDynamic = true → kept = old
  /-- The rule is the built-in one, and a category that is the built-in one stays. -/
  of_explicit : old.isDynamic = false → ∃ entry, Catalog.find? old.name = some entry ∧
    (∀ root, kept.word root = entry.word root) ∧
    (entry.category = old.category → kept.category = old.category)

theorem carriedOver_of_carriedOver? {scheme kept : Scheme}
    (h : scheme.carriedOver? = some kept) : scheme.CarriedOver kept := by
  have hname := name_of_carriedOver? h
  obtain ⟨name, category, rule, usage⟩ := scheme
  cases rule with
  | explicit word =>
      obtain ⟨entry, hfind, rfl⟩ := Option.map_eq_some_iff.mp h
      obtain ⟨builtIn, hrule⟩ := Catalog.exists_rule_eq_explicit (List.mem_of_find?_eq_some hfind)
      refine ⟨hname, ?_, ?_, rfl, ?_, ?_⟩
      · simp [isDynamic, hrule, Rule.source?]
      · simp [hrule, Rule.source?]
      · intro hdynamic
        simp [isDynamic, Rule.source?] at hdynamic
      · intro _
        exact ⟨entry, hfind, fun _ => rfl, id⟩
  | compiled pattern =>
      obtain rfl := Option.some.inj h
      refine ⟨rfl, rfl, rfl, rfl, fun _ => rfl, ?_⟩
      intro hexplicit
      simp [isDynamic, Rule.source?] at hexplicit

def Standard (scheme : Scheme) : Prop :=
  scheme.isDynamic = true ∨ ∃ entry, Catalog.find? scheme.name = some entry ∧
    entry.category = scheme.category ∧ ∀ root, entry.word root = scheme.word root

theorem CarriedOver.word_eq {old kept : Scheme} (h : old.CarriedOver kept)
    (hstandard : old.Standard) (root : Root) : kept.word root = old.word root := by
  cases hdynamic : old.isDynamic with
  | true => rw [h.of_dynamic hdynamic]
  | false =>
      obtain ⟨entry, hfind, hword, -⟩ := h.of_explicit hdynamic
      rcases hstandard with hdynamic' | ⟨entry', hfind', -, hword'⟩
      · exact absurd (hdynamic.symm.trans hdynamic') Bool.false_ne_true
      · obtain rfl := Option.some.inj (hfind.symm.trans hfind')
        exact (hword root).trans (hword' root)

theorem CarriedOver.summary_eq {old kept : Scheme} (h : old.CarriedOver kept)
    (hstandard : old.Standard) : kept.summary = old.summary := by
  have hcategory : kept.category = old.category := by
    cases hdynamic : old.isDynamic with
    | true => rw [h.of_dynamic hdynamic]
    | false =>
        obtain ⟨entry, hfind, -, hcategory⟩ := h.of_explicit hdynamic
        rcases hstandard with hdynamic' | ⟨entry', hfind', hcategory', -⟩
        · exact absurd (hdynamic.symm.trans hdynamic') Bool.false_ne_true
        · obtain rfl := Option.some.inj (hfind.symm.trans hfind')
          exact hcategory hcategory'
  simp only [summary, h.name_eq, h.isDynamic_eq, h.source_eq, h.usage_eq, hcategory]

theorem forall₂_carriedOver {schemes : List Scheme}
    (h : ∀ scheme ∈ schemes, ∃ kept, scheme.carriedOver? = some kept) :
    List.Forall₂ CarriedOver schemes (schemes.filterMap carriedOver?) := by
  induction schemes with
  | nil => exact .nil
  | cons scheme schemes ih =>
      obtain ⟨kept, hkept⟩ := h scheme List.mem_cons_self
      rw [List.filterMap_cons_some hkept]
      exact .cons (carriedOver_of_carriedOver? hkept)
        (ih fun other hother => h other (List.mem_cons_of_mem scheme hother))

end Scheme

namespace Engine

/-- A clean report discloses every scheme that could not be carried over. After any run from a
start without roots the report on the engine's own snapshot is clean exactly if each scheme
with a rule of its own has a built-in counterpart by name. Then the restored engine has the
same schemes but for the rules, and the categories, of those; a scheme that is compiled or is
the built-in one itself has the same summary and generates the same word of every root. -/
theorem clean_restore_carries_over {p : Placeholders} {start : Engine} (hstart : Fresh p start)
    (steps : List (Occasion × Request)) :
    let engine := (start.run steps).2
    let restored := restore engine.placeholders engine.snapshot
    (restored.2.isClean = true ↔ ∀ scheme ∈ engine.registry.schemes,
      scheme.isDynamic = false → scheme.name ∈ Catalog.schemes.map Scheme.name) ∧
    (restored.2.isClean = true →
      List.Forall₂ Scheme.CarriedOver engine.registry.schemes restored.1.registry.schemes ∧
      ∀ scheme ∈ engine.registry.schemes, scheme.Standard →
        (∃ kept, restored.1.registry.find? scheme.name = some kept ∧
          kept.summary = scheme.summary) ∧
        ∀ now text, (restored.1.generate now text scheme.name).map Prod.fst =
          (engine.generate now text scheme.name).map Prod.fst) := by
  intro engine restored
  have hengine : engine.WellFormed := hstart.initial.faithful.wellFormed.run steps
  have hrestored : restored.1.WellFormed := wellFormed_restore _ _
  obtain ⟨hentries, hregistry, hreport⟩ :=
    hengine.restore_snapshot (hstart.initial.patternsCompile_run steps)
  have hclean : restored.2.isClean = true ↔
      ∀ scheme ∈ engine.registry.schemes, ∃ kept, scheme.carriedOver? = some kept := by
    rw [hreport]
    simp [RestoreReport.isClean, ← ne_eq, Option.ne_none_iff_exists']
  refine ⟨hclean.trans (forall₂_congr fun scheme _ => Scheme.exists_carriedOver?_iff), ?_⟩
  intro hall
  rw [hclean] at hall
  refine ⟨hregistry ▸ Scheme.forall₂_carriedOver hall, ?_⟩
  intro scheme hscheme hstandard
  obtain ⟨kept, hkept⟩ := hall scheme hscheme
  have hcarried := Scheme.carriedOver_of_carriedOver? hkept
  have hfind : restored.1.registry.find? scheme.name = some kept := by
    apply (Registry.find?_eq_some_iff hrestored.sorted).mpr
    rw [hregistry]
    exact ⟨List.mem_filterMap.mpr ⟨scheme, hscheme, hkept⟩, hcarried.name_eq⟩
  have hfind' : engine.registry.find? scheme.name = some scheme :=
    (Registry.find?_eq_some_iff hengine.sorted).mpr ⟨hscheme, rfl⟩
  refine ⟨⟨kept, hfind, hcarried.summary_eq hstandard⟩, ?_⟩
  intro now text
  rw [map_fst_generate hfind, map_fst_generate hfind',
    map_findRoot_of_entries_eq hrestored.ordered hengine.ordered hentries]
  simp only [hcarried.word_eq hstandard]

/-- A built-in scheme is removed and its name given to a rule that writes roots backwards. -/
def usurpation : List (Occasion × Request) :=
  [.removeScheme "فعل",
    .addExplicitScheme "فعل" .custom fun root =>
      String.ofList [root.third, root.second, root.first],
    .addScheme "مفعلة" .placeNoun, .addRoot "كتب"].map (Occasion.ofEpoch 0, ·)

def usurped : Engine := ((withCatalog .standard).run usurpation).2

/-- The report is clean although the category and the words of the scheme are others. -/
theorem clean_restore_of_usurped :
    let restored := restore .standard usurped.snapshot
    restored.2.isClean = true ∧
      (usurped.registry.find? "فعل").map Scheme.summary =
        some ⟨"فعل", false, none, .custom, 0⟩ ∧
      (restored.1.registry.find? "فعل").map Scheme.summary =
        some ⟨"فعل", false, none, .verb, 0⟩ ∧
      (usurped.generate (Occasion.ofEpoch 0) "كتب" "فعل").map Prod.fst = .ok "بتك" ∧
      (restored.1.generate (Occasion.ofEpoch 0) "كتب" "فعل").map Prod.fst = .ok "كتب" := by
  decide +kernel

theorem clean_restore_carries_over_usurped :
    (restore usurped.placeholders usurped.snapshot).2.isClean = true ∧
      List.Forall₂ Scheme.CarriedOver usurped.registry.schemes
        (restore usurped.placeholders usurped.snapshot).1.registry.schemes ∧
      ∀ now text,
        ((restore usurped.placeholders usurped.snapshot).1.generate now text "مفعلة").map
            Prod.fst =
          (usurped.generate now text "مفعلة").map Prod.fst := by
  have hcarries := clean_restore_carries_over (Fresh.withCatalog (p := .standard)) usurpation
  rw [← usurped] at hcarries
  have hclean : (restore usurped.placeholders usurped.snapshot).2.isClean = true := by
    decide +kernel
  have hdynamic : (usurped.registry.find? "مفعلة").map Scheme.isDynamic = some true := by
    decide +kernel
  obtain ⟨scheme, hfind, hdynamic⟩ := Option.map_eq_some_iff.mp hdynamic
  have hname : scheme.name = "مفعلة" := by simpa using List.find?_some hfind
  obtain ⟨hschemes, hgenerate⟩ := hcarries.2 hclean
  have hwords := (hgenerate scheme (List.mem_of_find?_eq_some hfind) (.inl hdynamic)).2
  rw [hname] at hwords
  exact ⟨hclean, hschemes, hwords⟩

end Engine

end Triliteral
