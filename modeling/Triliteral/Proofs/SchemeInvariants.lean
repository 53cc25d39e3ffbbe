import Triliteral.Proofs.LeastAnalysis
import Triliteral.Proofs.PatternSubstitution
import Triliteral.Proofs.SchemeEdits
import Triliteral.Proofs.UsageAccounting

/-!
What holds of the schemes after every run. Each one is found under its own name, and one that has a
pattern substitutes the letters of a root into it; an edit of one scheme leaves all others as they
are.
-/

namespace Triliteral

theorem Rule.source?_eq_some_iff {rule : Rule} {source : String} :
    rule.source? = some source ↔ ∃ pattern, rule = .compiled pattern ∧ pattern.source = source := by
  cases rule <;> simp [source?]

theorem Scheme.isDynamic_iff {scheme : Scheme} :
    scheme.isDynamic = true ↔ ∃ source, scheme.rule.source? = some source := by
  rw [isDynamic, Option.isSome_iff_exists]

theorem Registry.Sorted.find?_name {registry : Registry} (h : registry.Sorted) {scheme : Scheme}
    (hscheme : scheme ∈ registry.schemes) : registry.find? scheme.name = some scheme :=
  (find?_eq_some_iff h).mpr ⟨hscheme, rfl⟩

def Request.KeepsPlaceholders (p : Placeholders) (request : Request) : Prop :=
  ∀ q, request = .reload q → q = p

namespace Engine

variable {engine : Engine}

theorem placeholders_run {p : Placeholders} {steps : List (Occasion × Request)}
    (hsteps : ∀ step ∈ steps, step.2.KeepsPlaceholders p) (hp : engine.placeholders = p) :
    (engine.run steps).2.placeholders = p := by
  refine run_preserves (P := fun engine => engine.placeholders = p) ?_ hsteps hp
  intro request hkeeps before after hupdate hbefore
  cases hupdate with
  | reload _ q => exact hkeeps q rfl
  | _ => exact hbefore

theorem WellFormed.map_fst_generate_of_compiled (hengine : engine.WellFormed)
    (hpatterns : engine.PatternsCompile) {scheme : Scheme}
    (hscheme : scheme ∈ engine.registry.schemes) {pattern : Pattern}
    (hrule : scheme.rule = .compiled pattern) (now : Occasion) {root : Root}
    (hroot : root ∈ engine.tree.roots) :
    (engine.generate now root.text scheme.name).map Prod.fst =
      .ok (String.ofList (pattern.source.toList.map (engine.placeholders.substitute root))) := by
  obtain ⟨node, hfound, rfl⟩ := findRoot_text hengine.ordered hroot
  have hcompiled := hpatterns scheme hscheme pattern hrule
  rw [map_fst_generate (hengine.sorted.find?_name hscheme), hfound]
  have hword : scheme.word node.entry.root = pattern.render node.entry.root := by
    rw [Scheme.word, hrule, Rule.apply]
  exact congrArg Except.ok (hword.trans (Pattern.render_of_compile hcompiled node.entry.root))

theorem WellFormed.find?_perform_of_ne (hengine : engine.WellFormed) {request : Request}
    {name other : String} (hedits : request.editedScheme? = some name) (hne : other ≠ name)
    (now : Occasion) :
    (engine.perform now request).2.registry.find? other = engine.registry.find? other := by
  obtain ⟨response, change, hchange, hperform⟩ :=
    edits_of_editedScheme? hedits engine.placeholders (engine.registry.find? name)
  rw [hperform now engine rfl rfl]
  exact hchange.lookup_of_ne hengine.sorted hne

/-- A new pattern replaces the rule of a scheme and nothing else of it; a deficient one leaves the
rule as well. -/
theorem find?_perform_modifyScheme {name : String} {scheme : Scheme}
    (hfind : engine.registry.find? name = some scheme) (now : Occasion) (pattern : String) :
    (engine.perform now (.modifyScheme name pattern)).2.registry.find? name =
      some { scheme with
        rule := match Pattern.compile engine.placeholders pattern with
          | .ok compiled => .compiled compiled
          | .error _ => scheme.rule } := by
  cases hpattern : Pattern.compile engine.placeholders pattern with
  | error fault =>
      rw [perform, modifyScheme, Registry.modify, Registry.get, hfind, hpattern]
      exact hfind
  | ok compiled =>
      have hname : scheme.name = name := by simpa using List.find?_some hfind
      have hmodify := Registry.modify_eq_ok_iff.mpr ⟨⟨scheme, hfind⟩, compiled, hpattern, rfl⟩
      rw [perform, modifyScheme, hmodify]
      change (engine.registry.update name fun scheme =>
        { scheme with rule := .compiled compiled }).find? name = _
      rw [Registry.find?_update, hfind, Option.map_some, hname, if_pos (beq_self_eq_true name)]
      exact fun _ => rfl

/-- After any run from any start the names of the schemes are distinct and not blank, and each
scheme is found under its own name. A scheme is dynamic exactly if it has a pattern; the pattern
then has every placeholder symbol, and the word that is generated from a stored root is the pattern
with the letters of the root in the place of the symbols. A request to add, to modify or to remove a
scheme leaves all others as they are, and one to modify a scheme gives it at most another rule. -/
theorem schemes_in_step {p : Placeholders} {start : Engine} (hstart : Initial p start)
    (steps : List (Occasion × Request)) (now : Occasion) (request : Request) :
    let engine := (start.run steps).2
    let next := (engine.perform now request).2
    ((∀ step ∈ steps, step.2.KeepsPlaceholders p) → engine.placeholders = p) ∧
    (engine.registry.summaries.map SchemeSummary.name).Nodup ∧
    (∀ summary ∈ engine.registry.summaries, Text.isBlankText summary.name = false ∧
      (engine.registry.find? summary.name).map Scheme.summary = some summary ∧
      (summary.dynamic = true ↔ ∃ source, summary.pattern = some source) ∧
      ∀ source, summary.pattern = some source →
        (∀ symbol ∈ engine.placeholders.symbols, symbol ∈ source.toList) ∧
        ∀ root ∈ engine.tree.roots,
          (engine.generate now root.text summary.name).map Prod.fst =
            .ok (String.ofList (source.toList.map (engine.placeholders.substitute root)))) ∧
    (∀ name, request.editedScheme? = some name →
      ∀ other, other ≠ name → next.registry.find? other = engine.registry.find? other) ∧
    ∀ name pattern, request = .modifyScheme name pattern →
      ∀ scheme, engine.registry.find? name = some scheme →
        ∃ rule, next.registry.find? name = some { scheme with rule } := by
  intro engine next
  have hengine : engine.WellFormed := hstart.faithful.wellFormed.run steps
  have hpatterns : engine.PatternsCompile := hstart.patternsCompile_run steps
  refine ⟨fun hsteps => placeholders_run hsteps hstart.faithful.placeholders_eq, ?_, ?_, ?_, ?_⟩
  · rw [Registry.summaries, List.map_map]
    exact hengine.sorted.nodup_names
  · intro summary hsummary
    obtain ⟨scheme, hscheme, rfl⟩ := List.mem_map.mp hsummary
    refine ⟨hengine.named scheme hscheme, ?_, Scheme.isDynamic_iff, fun source hsource => ?_⟩
    · exact congrArg (Option.map Scheme.summary) (hengine.sorted.find?_name hscheme)
    · obtain ⟨pattern, hrule, rfl⟩ := Rule.source?_eq_some_iff.mp hsource
      have hcompiled := hpatterns scheme hscheme pattern hrule
      exact ⟨(Pattern.compile_eq_ok_iff.mp hcompiled).1, fun root hroot =>
        hengine.map_fst_generate_of_compiled hpatterns hscheme hrule now hroot⟩
  · exact fun name hedits other hne => hengine.find?_perform_of_ne hedits hne now
  · rintro name pattern rfl scheme hscheme
    exact ⟨_, find?_perform_modifyScheme hscheme now pattern⟩

/-- A scheme that is not named after its pattern, beside one that is not yet dynamic. -/
def renamed : Snapshot where
  schemes := [⟨"اسم مكان", some "مفعلة", true, .placeNoun, 4⟩, ⟨"فاعل", none, false, .verb, 2⟩]
  roots := [⟨"كتب", []⟩]

theorem schemes_in_step_renamed :
    let engine := (restore .standard renamed).1
    let next := (engine.perform (Occasion.ofEpoch 0) (.modifyScheme "فاعل" "فعول")).2
    (engine.generate (Occasion.ofEpoch 0) "كتب" "اسم مكان").map Prod.fst = .ok "مكتبة" ∧
      next.registry.find? "اسم مكان" = engine.registry.find? "اسم مكان" ∧
      ∃ rule, next.registry.find? "فاعل" = some ⟨"فاعل", .activeParticiple, rule, 2⟩ := by
  intro engine next
  obtain ⟨-, -, hsummaries, hothers, hmodified⟩ := schemes_in_step (p := .standard)
    (.restored renamed) [] (Occasion.ofEpoch 0) (.modifyScheme "فاعل" "فعول")
  refine ⟨?_, hothers "فاعل" rfl "اسم مكان" (by decide), ?_⟩
  · obtain ⟨-, -, -, hpattern⟩ := hsummaries
      ⟨"اسم مكان", true, some "مفعلة", .placeNoun, 4⟩ (by decide +kernel)
    obtain ⟨-, hgenerate⟩ := hpattern "مفعلة" rfl
    exact hgenerate ⟨'ك', 'ت', 'ب'⟩ (by decide +kernel)
  · have hsummary : (engine.registry.find? "فاعل").map Scheme.summary =
        some ⟨"فاعل", false, none, .activeParticiple, 2⟩ := by
      decide +kernel
    obtain ⟨⟨name, category, rule, usage⟩, hscheme, hsame⟩ := Option.map_eq_some_iff.mp hsummary
    obtain ⟨rfl, -, -, rfl, rfl⟩ := SchemeSummary.mk.inj hsame
    exact hmodified "فاعل" "فعول" rfl _ hscheme

end Engine

end Triliteral
