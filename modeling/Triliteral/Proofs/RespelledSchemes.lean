import Triliteral.Proofs.EngineInvariants
import Triliteral.Proofs.PatternSubstitution
import Triliteral.Proofs.PlainEngines

/-!
Built-in schemes spelled by their names. Under the standard placeholders the name of a built-in
scheme, read as a pattern, makes the words of its rule. Built-in schemes can therefore be given
their names as patterns without a trace in any answer but those that list schemes.
-/

namespace Triliteral

theorem Catalog.render_name {builtIn : Scheme} (h : builtIn ∈ Catalog.schemes) :
    ∃ pattern, Pattern.compile .standard builtIn.name = .ok pattern ∧
      ∀ root, pattern.render root = builtIn.word root := by
  have hsymbols : ∀ (place : Slot), ∀ builtIn ∈ Catalog.schemes,
      Placeholders.standard.symbol place ∈ builtIn.name.toList := by
    intro place
    cases place <;> decide
  have hword : ∀ builtIn ∈ Catalog.schemes, ∀ root : Root, builtIn.word root =
      String.ofList (builtIn.name.toList.map (Placeholders.standard.substitute root)) := by
    intro builtIn hbuiltIn root
    simp only [Catalog.schemes, List.mem_cons, List.not_mem_nil, or_false] at hbuiltIn
    rcases hbuiltIn with rfl | rfl | rfl | rfl | rfl | rfl | rfl | rfl | rfl | rfl <;> rfl
  obtain ⟨pattern, hpattern⟩ := Pattern.exists_compile_iff.mpr fun place => hsymbols place builtIn h
  exact ⟨pattern, hpattern, fun root =>
    (Pattern.render_of_compile hpattern root).trans (hword builtIn h root).symm⟩

namespace Registry

variable {registry : Registry} {name : String}

/-- Holds of the names under which a built-in scheme is registered as it was, however often it was
used. -/
def HoldsBuiltIn (registry : Registry) (name : String) : Prop :=
  ∃ builtIn ∈ Catalog.schemes, builtIn.name = name ∧
    ∃ usage, registry.find? name = some { builtIn with usage }

/-- Holds of the names of built-in schemes whose words are made under them, by whatever rule. -/
def MakesBuiltIn (registry : Registry) (name : String) : Prop :=
  ∃ builtIn ∈ Catalog.schemes, builtIn.name = name ∧
    ∃ scheme, registry.find? name = some scheme ∧ scheme.word = builtIn.word

theorem HoldsBuiltIn.makesBuiltIn (h : registry.HoldsBuiltIn name) :
    registry.MakesBuiltIn name := by
  obtain ⟨builtIn, hbuiltIn, hname, usage, hfound⟩ := h
  exact ⟨builtIn, hbuiltIn, hname, _, hfound, rfl⟩

theorem MakesBuiltIn.congr {next : Registry} (h : registry.MakesBuiltIn name)
    (hplain : next.map Scheme.plain = registry.map Scheme.plain) : next.MakesBuiltIn name := by
  obtain ⟨builtIn, hbuiltIn, hname, scheme, hfound, hword⟩ := h
  have hfound' : (next.find? name).map Scheme.plain = some scheme.plain := by
    rw [← find?_map Scheme.name_plain, hplain, find?_map Scheme.name_plain, hfound, Option.map_some]
  obtain ⟨other, hother, hsame⟩ := Option.map_eq_some_iff.mp hfound'
  refine ⟨builtIn, hbuiltIn, hname, other, hother, ?_⟩
  rw [← other.word_plain, hsame, scheme.word_plain, hword]

theorem Sorted.plain_update (hsorted : registry.Sorted) {scheme : Scheme}
    (hfound : registry.find? name = some scheme) {pattern : Pattern}
    (hword : ∀ root, pattern.render root = scheme.word root) :
    (registry.update name fun scheme =>
        { scheme with rule := .compiled pattern }).map Scheme.plain =
      registry.map Scheme.plain := by
  simp only [Registry.map, Registry.update, List.map_map]
  congr 1
  refine List.map_congr_left fun other hother => ?_
  rw [Function.comp_apply]
  split
  · next heq =>
    have hfound' := (find?_eq_some_iff hsorted).mpr ⟨hother, eq_of_beq heq⟩
    obtain rfl : other = scheme := Option.some.inj (hfound'.symm.trans hfound)
    have hrender : pattern.render = other.word := funext hword
    rw [Scheme.plain, Scheme.plain, ← hrender]
    rfl
  · rfl

end Registry

/-- The summary of a scheme that is one of some schemes whose names were made their patterns. -/
def SchemeSummary.spelled (names : List String) (summary : SchemeSummary) : SchemeSummary :=
  if summary.name ∈ names then { summary with dynamic := true, pattern := some summary.name }
  else summary

theorem Registry.summaries_update_rule (registry : Registry) (pattern : Pattern) :
    (registry.update pattern.source fun scheme =>
        { scheme with rule := .compiled pattern }).summaries =
      registry.summaries.map (SchemeSummary.spelled [pattern.source]) := by
  simp only [summaries, update, List.map_map]
  refine List.map_congr_left fun scheme _ => ?_
  simp only [Function.comp_apply, SchemeSummary.spelled, List.mem_singleton]
  by_cases hname : scheme.name = pattern.source
  · have hsummary : scheme.summary.name = pattern.source := hname
    rw [if_pos (beq_iff_eq.mpr hname), if_pos hsummary]
    exact congrArg (fun source =>
      { scheme.summary with dynamic := true, pattern := some source }) hname.symm
  · have hsummary : scheme.summary.name ≠ pattern.source := hname
    rw [if_neg (mt eq_of_beq hname), if_neg hsummary]

theorem SchemeSummary.spelled_cons (name : String) (names : List String)
    (summary : SchemeSummary) :
    (summary.spelled [name]).spelled names = summary.spelled (name :: names) := by
  by_cases hname : summary.name = name
  · by_cases hmem : summary.name ∈ names <;> simp [spelled, hname]
  · simp [spelled, hname]

namespace Engine

variable {engine : Engine}

/-- Gives schemes their names as patterns, one after the other. -/
def respellings (now : Occasion) (names : List String) : List (Occasion × Request) :=
  names.map fun name => (now, .modifyScheme name name)

theorem WellFormed.respell (hengine : engine.WellFormed) (hp : engine.placeholders = .standard)
    {name : String} (hname : engine.registry.MakesBuiltIn name) (now : Occasion) :
    ∃ next, engine.perform now (.modifyScheme name name) = (.done, next) ∧
      next.plain = engine.plain ∧
      next.registry.summaries = engine.registry.summaries.map (SchemeSummary.spelled [name]) := by
  obtain ⟨builtIn, hbuiltIn, rfl, scheme, hfound, hword⟩ := hname
  obtain ⟨pattern, hpattern, hrender⟩ := Catalog.render_name hbuiltIn
  have hmodify := Registry.modify_eq_ok_iff.mpr
    ⟨⟨scheme, hfound⟩, pattern, hp ▸ hpattern, rfl⟩
  have hsource : pattern.source = builtIn.name := Pattern.source_of_compile hpattern
  refine ⟨{ engine with registry := engine.registry.update builtIn.name fun scheme =>
    { scheme with rule := .compiled pattern } }, ?_, ?_, ?_⟩
  · rw [Engine.perform, modifyScheme, hmodify]
    rfl
  · have hplain := hengine.sorted.plain_update hfound fun root =>
      (hrender root).trans (congrFun hword root).symm
    exact congrArg (fun registry => { engine.plain with registry }) hplain
  · rw [← hsource]
    exact engine.registry.summaries_update_rule pattern

theorem WellFormed.run_respellings (hengine : engine.WellFormed)
    (hp : engine.placeholders = .standard) (now : Occasion) {names : List String}
    (hnames : ∀ name ∈ names, engine.registry.MakesBuiltIn name) :
    let respelled := engine.run (respellings now names)
    (∀ response ∈ respelled.1, response = .done) ∧ respelled.2.plain = engine.plain ∧
      respelled.2.registry.summaries =
        engine.registry.summaries.map (SchemeSummary.spelled names) := by
  induction names generalizing engine with
  | nil =>
      refine ⟨List.forall_mem_nil _, rfl, ?_⟩
      exact (List.map_id _).symm
  | cons name names ih =>
      obtain ⟨next, hperform, hplain, hsummaries⟩ :=
        hengine.respell hp (hnames name List.mem_cons_self) now
      have hnext : next.WellFormed := by
        have hwellFormed := hengine.perform now (.modifyScheme name name)
        rwa [hperform] at hwellFormed
      have hp' : next.plain.placeholders = .standard := by rw [hplain]; exact hp
      have hregistry : next.plain.registry = engine.plain.registry := by rw [hplain]
      obtain ⟨hdone, hlast, hlisted⟩ := ih hnext hp' fun other hother =>
        (hnames other (List.mem_cons_of_mem name hother)).congr hregistry
      have hrun : engine.run (respellings now (name :: names)) =
          (next.run (respellings now names)).map (.done :: ·) id := by
        rw [respellings, List.map_cons, Engine.run, hperform]
        rfl
      rw [hrun]
      refine ⟨List.forall_mem_cons.mpr ⟨rfl, hdone⟩, hlast.trans hplain, ?_⟩
      refine hlisted.trans ?_
      rw [hsummaries, List.map_map]
      exact List.map_congr_left fun summary _ => summary.spelled_cons name names

/-- The name of every built-in scheme compiles under the standard placeholders and makes the words
of its rule, whatever the root. In any engine over these placeholders that a run leads to, built-in
schemes that are registered as they were can therefore be given their names as patterns: only their
flags and patterns change where schemes are listed. Every later run that does not reload is answered
as before, but for flags and patterns of listed schemes, and without any difference if it does not
ask for these. -/
theorem respelled_builtins_alike {p : Placeholders} {start : Engine} (hstart : Initial p start)
    (steps : List (Occasion × Request)) (now : Occasion) {names : List String}
    (hstandard : (start.run steps).2.placeholders = .standard)
    (hnames : ∀ name ∈ names, (start.run steps).2.registry.HoldsBuiltIn name) :
    let engine := (start.run steps).2
    let respelled := engine.run (respellings now names)
    (∀ builtIn ∈ Catalog.schemes, ∃ pattern,
      Pattern.compile .standard builtIn.name = .ok pattern ∧
        ∀ root, pattern.render root = builtIn.word root) ∧
    (∀ response ∈ respelled.1, response = .done) ∧
    respelled.2.registry.summaries = engine.registry.summaries.map (SchemeSummary.spelled names) ∧
    ∀ later : List (Occasion × Request), (∀ step ∈ later, ∀ q, step.2 ≠ .reload q) →
      (respelled.2.run later).1.map Response.plain = (engine.run later).1.map Response.plain ∧
      (respelled.2.run later).2.plain = (engine.run later).2.plain ∧
      ((∀ step ∈ later, ¬ step.2.ShowsPatterns) →
        (respelled.2.run later).1 = (engine.run later).1) := by
  intro engine respelled
  have hengine : engine.WellFormed := hstart.faithful.wellFormed.run steps
  obtain ⟨hdone, hplain, hsummaries⟩ := hengine.run_respellings hstandard now fun name hname =>
    (hnames name hname).makesBuiltIn
  refine ⟨fun builtIn => Catalog.render_name, hdone, hsummaries, fun later hreload => ?_⟩
  obtain ⟨hresponses, hlast⟩ := run_eq_of_plain hplain hreload
  refine ⟨hresponses, hlast, fun hunseen => ?_⟩
  rwa [map_plain_run hunseen, map_plain_run hunseen] at hresponses

/-- A lesson with two roots, a scheme of its own and a word of a built-in scheme. -/
def beginning : List (Occasion × Request) :=
  [.loadRoots ["كتب", "درس"], .addExplicitScheme "مطلع" .custom fun root =>
      String.ofList [root.first],
    .generate "كتب" "فاعل"].map (Occasion.ofEpoch 0, ·)

def continuation : List (Occasion × Request) :=
  [.generate "درس" "فاعل", .validate "كتب" "مكتوب", .addScheme "فاعل" .custom, .analyze "كاتب",
    .removeScheme "مفعول", .validate "درس" "مدروس", .derivations "كتب"].map (Occasion.ofEpoch 60, ·)

theorem respelled_builtins_alike_continuation :
    let engine := ((withCatalog .standard).run beginning).2
    let respelled := engine.run (respellings (Occasion.ofEpoch 30) ["فاعل", "مفعول"])
    (∀ response ∈ respelled.1, response = .done) ∧
      respelled.2.registry.summaries ≠ engine.registry.summaries ∧
      (respelled.2.run continuation).1 = (engine.run continuation).1 := by
  intro engine respelled
  have hnames : ∀ name ∈ ["فاعل", "مفعول"], engine.registry.HoldsBuiltIn name := by
    refine List.forall_mem_cons.mpr ⟨?_, List.forall_mem_singleton.mpr ?_⟩
    · exact ⟨_, .tail _ (.head _), rfl, 1, rfl⟩
    · exact ⟨_, .tail _ (.tail _ (.head _)), rfl, 0, rfl⟩
  obtain ⟨-, hdone, -, halike⟩ := respelled_builtins_alike .withCatalog beginning
    (Occasion.ofEpoch 30) rfl hnames
  have hreload : ∀ step ∈ continuation, ∀ q, step.2 ≠ .reload q := by
    simp [continuation]
  have hunseen : ∀ step ∈ continuation, ¬ step.2.ShowsPatterns := by
    simp [continuation, Request.ShowsPatterns]
  exact ⟨hdone, by decide +kernel, (halike continuation hreload).2.2 hunseen⟩

end Engine

end Triliteral
