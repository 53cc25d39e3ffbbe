import Triliteral.Proofs.SchemeInvariants

/-!
Words lead back to their roots. All three letters of a root stand in every word that a pattern makes
of it, always at the same places, so that no other root has this word. Where no other scheme is
registered, a generated word therefore tells its root.
-/

namespace Triliteral

theorem Root.eq_of_letter_eq {a b : Root} (h : ∀ place, a.letter place = b.letter place) :
    a = b := by
  obtain ⟨first, second, third⟩ := a
  obtain rfl : first = b.first := h .first
  obtain rfl : second = b.second := h .second
  obtain rfl : third = b.third := h .third
  rfl

/-- Two words of a pattern differ wherever a symbol stands whose letters differ, and every symbol
stands somewhere. -/
theorem Pattern.render_injective {p : Placeholders} {source : String} {pattern : Pattern}
    (h : compile p source = .ok pattern) : Function.Injective pattern.render := by
  intro a b hword
  rw [render_of_compile h, render_of_compile h, String.ofList_inj, List.map_inj_left] at hword
  refine Root.eq_of_letter_eq fun place => ?_
  have hplace := hword (p.symbol place) (exists_compile_iff.mp ⟨pattern, h⟩ place)
  rwa [p.substitute_symbol, p.substitute_symbol] at hplace

namespace Engine

variable {engine : Engine} {scheme : Scheme} {root : Root}

/-- Holds if a word leads back to one root and one scheme: an analysis finds just these, and the
word is valid on no other stored root. -/
structure LeadsBack (engine : Engine) (word : String) (root : Root) (name : String) : Prop where
  analyze_eq : engine.analyze word = some ⟨root, [name]⟩
  verdict_eq : ∀ now, engine.verdict now root.text word = .ok [name]
  validate_eq : ∀ other ∈ engine.tree.roots, other ≠ root → ∀ now,
    engine.validate now other.text word = .ok ([], engine)

theorem validate_of_no_producers (hordered : engine.tree.Ordered) (hroot : root ∈ engine.tree.roots)
    {word : String} (hnone : engine.registry.producers root word = []) (now : Occasion) :
    engine.validate now root.text word = .ok ([], engine) := by
  obtain ⟨node, hfound, rfl⟩ := findRoot_text hordered hroot
  rw [validate, hfound, ok_bind]
  dsimp only
  rw [hnone]
  rfl

theorem leadsBack_of_sole (hordered : engine.tree.Ordered)
    (hsole : engine.registry.schemes = [scheme]) (hword : Function.Injective scheme.word)
    (hroot : root ∈ engine.tree.roots) :
    engine.LeadsBack (scheme.word root) root scheme.name := by
  have hmade : engine.registry.producers root (scheme.word root) = [scheme.name] := by
    simp [Registry.producers, hsole]
  have hothers : ∀ other, other ≠ root →
      engine.registry.producers other (scheme.word root) = [] := by
    intro other hne
    simp [Registry.producers, hsole, hword.eq_iff, hne]
  refine ⟨(analyze_eq_some_iff hordered).mpr ⟨hroot, hmade, List.cons_ne_nil _ _, ?_⟩, ?_, ?_⟩
  · intro other _ hlt
    exact hothers other (Root.ne_of_lt hlt)
  · intro now
    rw [verdict_text hordered hroot, hmade]
  · intro other hother hne
    exact validate_of_no_producers hordered hother (hothers other hne)

theorem generate_sole (hordered : engine.tree.Ordered) (hsole : engine.registry.schemes = [scheme])
    (hroot : root ∈ engine.tree.roots) {now : Occasion} {name word : String} {next : Engine}
    (h : engine.generate now root.text name = .ok (word, next)) :
    name = scheme.name ∧ word = scheme.word root ∧ next.tree.roots = engine.tree.roots ∧
      next.tree.Ordered ∧ ∃ usage, next.registry.schemes = [{ scheme with usage }] := by
  obtain ⟨node, hfound, rfl⟩ := findRoot_text hordered hroot
  obtain ⟨_, _, hrest⟩ := bind_eq_ok_iff.mp h
  obtain ⟨found, hget, -⟩ := bind_eq_ok_iff.mp hrest
  have hfind := Registry.get_eq_ok_iff.mp hget
  have hmem : found ∈ engine.registry.schemes := List.mem_of_find?_eq_some hfind
  obtain rfl : found = scheme := by simpa [hsole] using hmem
  obtain rfl : found.name = name := by simpa using List.find?_some hfind
  rw [generate_of_found hfound hget] at h
  obtain ⟨rfl, rfl⟩ := Prod.mk.inj (Except.ok.inj h)
  refine ⟨rfl, rfl, ?_⟩
  split
  · exact ⟨rfl, hordered, found.usage, hsole⟩
  · refine ⟨RootTree.roots_record .., hordered.record .., found.usage + 1, ?_⟩
    simp [Registry.countUse, Registry.update, hsole]

/-- Words that a pattern makes of different letters differ, whatever the pattern and the symbols
under which it was compiled. So if a dynamic scheme is the only one after any run from any start,
every word that it generates leads back to its root, before and after the word is recorded: an
analysis finds this root with this scheme, and the word is valid on no other stored root. -/
theorem sole_dynamic_invertible {p : Placeholders} {start : Engine} (hstart : Initial p start)
    (steps : List (Occasion × Request)) :
    let engine := (start.run steps).2
    (∀ q source pattern, Pattern.compile q source = .ok pattern →
      ∀ a b : Root, a ≠ b → pattern.render a ≠ pattern.render b) ∧
    ∀ summary, engine.registry.summaries = [summary] → summary.dynamic = true →
      ∀ root ∈ engine.tree.roots, ∀ now,
        (∃ word next, engine.generate now root.text summary.name = .ok (word, next)) ∧
        ∀ name word next, engine.generate now root.text name = .ok (word, next) →
          engine.LeadsBack word root name ∧ next.LeadsBack word root name ∧
            next.tree.roots = engine.tree.roots := by
  intro engine
  have hordered : engine.tree.Ordered := (hstart.faithful.wellFormed.run steps).ordered
  refine ⟨fun q source pattern h a b => (Pattern.render_injective h).ne, ?_⟩
  intro summary hsummaries hdynamic root hroot now
  obtain ⟨scheme, hsole, rfl⟩ := List.map_eq_singleton_iff.mp hsummaries
  have hscheme : scheme ∈ engine.registry.schemes := hsole ▸ List.mem_singleton_self scheme
  obtain ⟨source, hsource⟩ := Scheme.isDynamic_iff.mp hdynamic
  obtain ⟨pattern, hrule, -⟩ := Rule.source?_eq_some_iff.mp hsource
  have hword : Function.Injective scheme.word := by
    have hcompiled := hstart.patternsCompile_run steps scheme hscheme pattern hrule
    intro a b hab
    rw [Scheme.word, Scheme.word, hrule] at hab
    exact Pattern.render_injective hcompiled hab
  constructor
  · obtain ⟨node, hfound, rfl⟩ := findRoot_text hordered hroot
    have hget : engine.registry.get scheme.name = .ok scheme := by
      rw [Registry.get, Registry.find?, hsole]
      simp
    exact ⟨_, _, generate_of_found hfound hget⟩
  · intro name word next h
    obtain ⟨rfl, rfl, hroots, hnext, usage, husage⟩ := generate_sole hordered hsole hroot h
    have hroot' : root ∈ next.tree.roots := hroots ▸ hroot
    have hback := leadsBack_of_sole hnext husage hword hroot'
    exact ⟨leadsBack_of_sole hordered hsole hword hroot, hback, hroots⟩

/-- One pattern, and roots that consist of its symbols and of its other letters. -/
def lookalikes : List (Occasion × Request) :=
  [.addScheme "استفعال" .verbalNoun, .addRoot "فعل", .addRoot "لعف", .addRoot "ستا"].map
    (Occasion.ofEpoch 0, ·)

theorem sole_dynamic_invertible_lookalikes :
    let engine := ((empty .standard).run lookalikes).2
    let root : Root := ⟨'ل', 'ع', 'ف'⟩
    engine.registry.summaries = [⟨"استفعال", true, some "استفعال", .verbalNoun, 0⟩] ∧
      root ∈ engine.tree.roots ∧
      ∃ next, engine.generate (Occasion.ofEpoch 0) "لعف" "استفعال" = .ok ("استلعاف", next) ∧
        engine.LeadsBack "استلعاف" root "استفعال" ∧ next.LeadsBack "استلعاف" root "استفعال" ∧
        next.validate (Occasion.ofEpoch 0) "فعل" "استلعاف" = .ok ([], next) := by
  intro engine root
  obtain ⟨-, hsole⟩ := sole_dynamic_invertible (p := .standard) .empty lookalikes
  have hsummaries : engine.registry.summaries =
      [⟨"استفعال", true, some "استفعال", .verbalNoun, 0⟩] := by
    decide +kernel
  have hroot : root ∈ engine.tree.roots := by decide +kernel
  obtain ⟨⟨word, next, hgenerate⟩, hback⟩ :=
    hsole _ hsummaries rfl root hroot (Occasion.ofEpoch 0)
  have hword : (engine.generate (Occasion.ofEpoch 0) "لعف" "استفعال").map Prod.fst =
      .ok "استلعاف" := by
    decide +kernel
  obtain rfl : word = "استلعاف" := by
    have hfst := congrArg (Except.map Prod.fst) hgenerate
    exact Except.ok.inj (hfst.symm.trans hword)
  obtain ⟨hbefore, hafter, hroots⟩ := hback _ _ _ hgenerate
  refine ⟨hsummaries, hroot, next, hgenerate, hbefore, hafter, ?_⟩
  have hother : (⟨'ف', 'ع', 'ل'⟩ : Root) ∈ next.tree.roots := by
    rw [hroots]
    decide +kernel
  exact hafter.validate_eq _ hother (by decide) (Occasion.ofEpoch 0)

end Engine

end Triliteral
