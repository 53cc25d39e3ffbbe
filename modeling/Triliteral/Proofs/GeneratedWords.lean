import Triliteral.Proofs.JustifiedDerivations
import Triliteral.Proofs.TreeFrames

/-!
Generated words. Generating a word leaves it recorded on a root of which a registered scheme makes
it; whenever that is so, generating it again, validating it and analyzing it agree about it and
change nothing.
-/

namespace Triliteral

namespace Registry

theorem find?_countUse (registry : Registry) (name : String) :
    (registry.countUse name).find? name =
      (registry.find? name).map fun scheme => { scheme with usage := scheme.usage + 1 } := by
  have hname : ∀ scheme : Scheme, { scheme with usage := scheme.usage + 1 }.name = scheme.name :=
    fun _ => rfl
  rw [countUse, find?_update registry name hname]
  refine Option.map_congr fun scheme hscheme => if_pos ?_
  simpa using List.find?_some hscheme

end Registry

namespace Engine

variable {engine next : Engine} {node : RootTree.Node} {scheme : Scheme} {now : Occasion}
  {text name word : String}

def Records (engine : Engine) (text word : String) : Prop :=
  word ∈ (engine.history text).map Derivation.word

instance (engine : Engine) (text word : String) : Decidable (engine.Records text word) :=
  inferInstanceAs (Decidable (word ∈ (engine.history text).map Derivation.word))

theorem WellFormed.count_history (hengine : engine.WellFormed) (h : engine.Records text word) :
    ((engine.history text).map Derivation.word).count word = 1 := by
  by_cases hstored : text ∈ engine.listRoots
  · obtain ⟨entry, hentry, rfl⟩ := mem_listRoots_iff_entries.mp hstored
    rw [Records, history_of_mem hengine.ordered hentry] at h
    rw [history_of_mem hengine.ordered hentry]
    exact List.count_eq_one_of_mem (hengine.distinctWords entry hentry) h
  · rw [Records, history_of_not_mem hengine.ordered hstored] at h
    cases h

theorem records_iff_of_found (hordered : engine.tree.Ordered)
    (hfound : engine.findRoot text = .ok node) :
    engine.Records text word ↔ word ∈ node.entry.derivations.map Derivation.word := by
  obtain ⟨hnode, rfl⟩ := (findRoot_eq_ok_iff hordered).mp hfound
  rw [Records, history_of_mem hordered (List.mem_map_of_mem hnode)]

/-! ### Words that are recorded and can be made -/

/-- A word that a registered scheme makes of a stored root is recorded on that root. -/
structure HasMade (engine : Engine) (node : RootTree.Node) (scheme : Scheme) (word : String) :
    Prop where
  stored : node ∈ engine.tree.nodes
  registered : scheme ∈ engine.registry.schemes
  word_eq : scheme.word node.entry.root = word
  recorded : word ∈ node.entry.derivations.map Derivation.word

theorem HasMade.generate (h : engine.HasMade node scheme word) (hengine : engine.WellFormed)
    (now : Occasion) :
    engine.generate now node.entry.root.text scheme.name = .ok (word, engine) := by
  have hfound := (findRoot_eq_ok_iff hengine.ordered).mpr ⟨h.stored, rfl⟩
  have hscheme := Registry.get_eq_ok_iff.mpr
    ((Registry.find?_eq_some_iff hengine.sorted).mpr ⟨h.registered, rfl⟩)
  have hany : (node.entry.derivations.any fun earlier => earlier.word == word) = true := by
    simpa using h.recorded
  rw [generate_of_found hfound hscheme, h.word_eq, if_pos hany]

theorem HasMade.mem_producers (h : engine.HasMade node scheme word) :
    scheme.name ∈ engine.registry.producers node.entry.root word :=
  Registry.mem_producers_iff.mpr ⟨scheme, h.registered, h.word_eq, rfl⟩

theorem HasMade.validate (h : engine.HasMade node scheme word) (hengine : engine.WellFormed)
    (now : Occasion) :
    engine.validate now node.entry.root.text word =
      .ok (engine.registry.producers node.entry.root word, engine) :=
  validate_of_recorded hengine.ordered h.stored h.recorded
    (List.ne_nil_of_mem h.mem_producers) now

theorem HasMade.analyze (h : engine.HasMade node scheme word) (hengine : engine.WellFormed) :
    ∃ found, engine.analyze word = some found ∧ ¬ node.entry.root < found.root :=
  exists_analysis_of_produces hengine.ordered (RootTree.mem_roots_of_mem_nodes h.stored)
    ⟨scheme, h.registered, h.word_eq⟩

/-! ### Generation -/

def withNewWord (engine : Engine) (root : Root) (derivation : Derivation) : Engine :=
  { engine with
    tree := engine.tree.record root derivation
    registry := engine.registry.countUse derivation.scheme }

/-- A word that is recorded on its root already changes nothing, a new one is recorded. -/
theorem WellFormed.generate_eq_ok_iff (hengine : engine.WellFormed) :
    engine.generate now text name = .ok (word, next) ↔
      ∃ node scheme, node ∈ engine.tree.nodes ∧ node.entry.root.text = text ∧
        engine.registry.find? name = some scheme ∧ scheme.word node.entry.root = word ∧
        next = if engine.Records text word then engine
          else engine.withNewWord node.entry.root ⟨word, name, now.time⟩ := by
  have hnext : ∀ {node : RootTree.Node} {word : String}, engine.findRoot text = .ok node →
      (if node.entry.derivations.any fun earlier => earlier.word == word then engine
        else engine.withNewWord node.entry.root ⟨word, name, now.time⟩) =
      if engine.Records text word then engine
        else engine.withNewWord node.entry.root ⟨word, name, now.time⟩ := by
    intro node word hfound
    refine if_congr ?_ rfl rfl
    rw [records_iff_of_found hengine.ordered hfound]
    simp
  constructor
  · intro h
    obtain ⟨node, hfound, hrest⟩ := bind_eq_ok_iff.mp h
    obtain ⟨scheme, hscheme, -⟩ := bind_eq_ok_iff.mp hrest
    rw [generate_of_found hfound hscheme] at h
    obtain ⟨rfl, rfl⟩ := Prod.mk.inj (Except.ok.inj h)
    obtain ⟨hnode, htext⟩ := (findRoot_eq_ok_iff hengine.ordered).mp hfound
    exact ⟨node, scheme, hnode, htext, Registry.get_eq_ok_iff.mp hscheme, rfl, hnext hfound⟩
  · rintro ⟨node, scheme, hnode, htext, hscheme, rfl, rfl⟩
    have hfound := (findRoot_eq_ok_iff hengine.ordered).mpr ⟨hnode, htext⟩
    rw [generate_of_found hfound (Registry.get_eq_ok_iff.mpr hscheme), ← hnext hfound]
    rfl

theorem HasMade.withNewWord (hordered : engine.tree.Ordered) (hnode : node ∈ engine.tree.nodes)
    (hscheme : engine.registry.find? name = some scheme)
    (hnew : scheme.word node.entry.root ∉ node.entry.derivations.map Derivation.word) :
    let derivation : Derivation := ⟨scheme.word node.entry.root, name, now.time⟩
    (engine.withNewWord node.entry.root derivation).HasMade
      { node with entry.derivations := node.entry.derivations ++ [derivation] }
      { scheme with usage := scheme.usage + 1 } (scheme.word node.entry.root) := by
  intro derivation
  have hname : scheme.name = name := by simpa using List.find?_some hscheme
  refine ⟨?_, ?_, rfl, by simp [derivation]⟩
  · have hfound := (RootTree.findText?_eq_some_iff hordered).mpr ⟨hnode, rfl⟩
    have hrecorded : (engine.tree.record node.entry.root derivation).findText? _ = _ :=
      RootTree.findText?_record_text node.entry.root derivation
    rw [hfound, Option.map_some, Derivation.record_of_new hnew] at hrecorded
    exact ((RootTree.findText?_eq_some_iff (hordered.record _ _)).mp hrecorded).1
  · refine Registry.mem_update.mpr ⟨scheme, List.mem_of_find?_eq_some hscheme, ?_⟩
    rw [if_pos (beq_iff_eq.mpr hname)]

theorem exists_generate_eq_ok
    (h : (engine.generate now text name).map Prod.fst = .ok word) :
    ∃ next, engine.generate now text name = .ok (word, next) := by
  cases houtcome : engine.generate now text name with
  | error fault => rw [houtcome] at h; cases h
  | ok result =>
      rw [houtcome] at h
      obtain rfl := Except.ok.inj h
      exact ⟨result.2, rfl⟩

theorem WellFormed.generate (hengine : engine.WellFormed)
    (h : engine.generate now text name = .ok (word, next)) : next.WellFormed := by
  have hperform := hengine.perform now (.generate text name)
  rwa [Engine.perform, h] at hperform

theorem WellFormed.exists_hasMade (hengine : engine.WellFormed)
    (h : engine.generate now text name = .ok (word, next)) :
    ∃ node scheme, next.HasMade node scheme word ∧ node.entry.root.text = text ∧
      scheme.name = name := by
  obtain ⟨node, scheme, hnode, htext, hscheme, rfl, rfl⟩ := hengine.generate_eq_ok_iff.mp h
  have hname : scheme.name = name := by simpa using List.find?_some hscheme
  have hfound := (findRoot_eq_ok_iff hengine.ordered).mpr ⟨hnode, htext⟩
  have hrecords : engine.Records text (scheme.word node.entry.root) ↔ _ :=
    records_iff_of_found hengine.ordered hfound
  split
  · next hold =>
    exact ⟨node, scheme,
      ⟨hnode, List.mem_of_find?_eq_some hscheme, rfl, hrecords.mp hold⟩, htext, hname⟩
  · next hnew =>
    exact ⟨_, _, .withNewWord hengine.ordered hnode hscheme fun hold => hnew (hrecords.mpr hold),
      htext, hname⟩

/-- Two engines between which nothing differs but the history of one root and the counter of one
scheme. -/
structure AgreesBeyond (text name : String) (engine next : Engine) : Prop where
  bare_eq : next.bare = engine.bare
  node_eq : ∀ other, other ≠ text → next.tree.findText? other = engine.tree.findText? other
  scheme_eq : ∀ other, other ≠ name → next.registry.find? other = engine.registry.find? other

theorem AgreesBeyond.refl (text name : String) (engine : Engine) :
    AgreesBeyond text name engine engine :=
  ⟨rfl, fun _ _ => rfl, fun _ _ => rfl⟩

theorem WellFormed.agreesBeyond_withNewWord (hengine : engine.WellFormed) (root : Root)
    (derivation : Derivation) :
    AgreesBeyond root.text derivation.scheme engine (engine.withNewWord root derivation) where
  bare_eq := by
    simp only [withNewWord, bare, RootTree.bare_record, Registry.bare_countUse]
  node_eq _ hne := RootTree.findText?_record_of_ne hne derivation
  scheme_eq _ hne := (Registry.editsAt_countUse derivation.scheme).lookup_of_ne hengine.sorted hne

theorem WellFormed.agreesBeyond_generate (hengine : engine.WellFormed)
    (h : engine.generate now text name = .ok (word, next)) :
    AgreesBeyond text name engine next := by
  obtain ⟨node, scheme, -, rfl, -, -, rfl⟩ := hengine.generate_eq_ok_iff.mp h
  split
  · exact .refl _ _ engine
  · exact hengine.agreesBeyond_withNewWord node.entry.root ⟨word, name, now.time⟩

theorem WellFormed.history_generate (hengine : engine.WellFormed)
    (h : engine.generate now text name = .ok (word, next)) :
    next.history text = engine.history text ++
      if engine.Records text word then [] else [⟨word, name, now.time⟩] := by
  obtain ⟨node, scheme, hnode, rfl, -, -, rfl⟩ := hengine.generate_eq_ok_iff.mp h
  have hstored : node.entry.root.text ∈ engine.listRoots :=
    mem_listRoots_iff_entries.mpr ⟨_, List.mem_map_of_mem hnode, rfl⟩
  split
  · rw [List.append_nil]
  · next hnew =>
    refine (history_record hengine.ordered rfl _).trans ?_
    rw [if_pos ⟨rfl, hstored⟩]
    exact Derivation.record_of_new hnew

theorem WellFormed.usage_generate (hengine : engine.WellFormed)
    (h : engine.generate now text name = .ok (word, next)) :
    ∃ scheme usage, engine.registry.find? name = some scheme ∧
      next.registry.find? name = some { scheme with usage } ∧
      usage = scheme.usage + (if engine.Records text word then 0 else 1) ∧
      (scheme.usage.toNat + 1 < 2 ^ 64 →
        usage.toNat = scheme.usage.toNat + if engine.Records text word then 0 else 1) := by
  obtain ⟨node, scheme, -, rfl, hscheme, -, rfl⟩ := hengine.generate_eq_ok_iff.mp h
  split
  · exact ⟨scheme, scheme.usage, hscheme, hscheme, scheme.usage.add_zero.symm, fun _ => rfl⟩
  · refine ⟨scheme, scheme.usage + 1, hscheme, ?_, rfl, Registry.toNat_add_one⟩
    rw [withNewWord, Registry.find?_countUse, hscheme, Option.map_some]

/-- After any run from any start, a word that is generated is recorded exactly once on its root: at
the end of the history if it was not there before, and just then the scheme counts one use more;
nothing else differs, and nothing at all if the word was there. The counter has 64 bits: it begins
again at zero after its last value, and below that the use makes it greater by one. At any later
time, generating the word again gives it again, validating it names its scheme among those that make
it, and both leave the engine as it is; analyzing it finds a root that is not greater. -/
theorem generated_words_agree {p : Placeholders} {start : Engine} (hstart : Initial p start)
    (steps : List (Occasion × Request)) {now : Occasion} {text name word : String} {next : Engine}
    (h : (start.run steps).2.generate now text name = .ok (word, next)) :
    let engine := (start.run steps).2
    (text ∈ next.listRoots ∧ ((next.history text).map Derivation.word).count word = 1) ∧
    next.history text = engine.history text ++
      (if engine.Records text word then [] else [⟨word, name, now.time⟩]) ∧
    (∃ scheme usage, engine.registry.find? name = some scheme ∧
      next.registry.find? name = some { scheme with usage } ∧
      usage = scheme.usage + (if engine.Records text word then 0 else 1) ∧
      (scheme.usage.toNat + 1 < 2 ^ 64 →
        usage.toNat = scheme.usage.toNat + if engine.Records text word then 0 else 1)) ∧
    AgreesBeyond text name engine next ∧
    (engine.Records text word → next = engine) ∧
    ∀ later, next.generate later text name = .ok (word, next) ∧
      (∃ names, next.validate later text word = .ok (names, next) ∧ name ∈ names) ∧
      ∃ found, next.analyze word = some found ∧ found.root.text ∈ next.listRoots ∧
        ¬ text < found.root.text := by
  intro engine
  have hengine : engine.WellFormed := hstart.faithful.wellFormed.run steps
  have hnext : next.WellFormed := hengine.generate h
  obtain ⟨node, scheme, hmade, rfl, rfl⟩ := hengine.exists_hasMade h
  have hrecords : next.Records node.entry.root.text word :=
    (records_iff_of_found hnext.ordered
      ((findRoot_eq_ok_iff hnext.ordered).mpr ⟨hmade.stored, rfl⟩)).mpr hmade.recorded
  refine ⟨⟨?_, hnext.count_history hrecords⟩, hengine.history_generate h,
    hengine.usage_generate h, hengine.agreesBeyond_generate h, ?_, fun later => ⟨?_, ?_, ?_⟩⟩
  · exact mem_listRoots_iff_entries.mpr ⟨_, List.mem_map_of_mem hmade.stored, rfl⟩
  · intro hold
    obtain ⟨_, _, -, -, -, -, hsame⟩ := hengine.generate_eq_ok_iff.mp h
    rw [hsame, if_pos hold]
  · exact hmade.generate hnext later
  · exact ⟨_, hmade.validate hnext later, hmade.mem_producers⟩
  · obtain ⟨found, hfound, hle⟩ := hmade.analyze hnext
    have hstored := ((analyze_eq_some_iff hnext.ordered).mp hfound).1
    exact ⟨found, hfound, List.mem_map_of_mem hstored,
      fun hlt => hle (Root.text_lt_text_iff.mp hlt)⟩

/-- Two schemes make the first letter of a root, which two of three roots have in common; the
greater of these has it recorded by one of the schemes. -/
def firstLetters : List (Occasion × Request) :=
  [.loadRoots ["كلم", "كتب", "درس"],
    .addExplicitScheme "مطلع" .custom fun root => String.ofList [root.first],
    .addExplicitScheme "أول" .custom fun root => String.ofList [root.first],
    .generate "كلم" "أول"].map (Occasion.ofEpoch 0, ·)

theorem generated_words_agree_firstLetters :
    let engine := ((withCatalog .standard).run firstLetters).2
    engine.generate (Occasion.ofEpoch 60) "كلم" "مطلع" = .ok ("ك", engine) ∧
      (∃ names, engine.validate (Occasion.ofEpoch 90) "كلم" "ك" = .ok (names, engine) ∧
        "مطلع" ∈ names) ∧
      (∃ found, engine.analyze "ك" = some found ∧ ¬ "كلم" < found.root.text) ∧
      ∃ next, engine.generate (Occasion.ofEpoch 60) "كتب" "مطلع" = .ok ("ك", next) ∧
        next.history "كتب" = [⟨"ك", "مطلع", Instant.ofEpoch 60⟩] ∧
        next.history "كلم" = engine.history "كلم" ∧
        next.generate (Occasion.ofEpoch 90) "كتب" "مطلع" = .ok ("ك", next) := by
  intro engine
  have hold : ∃ next, engine.generate (Occasion.ofEpoch 60) "كلم" "مطلع" = .ok ("ك", next) :=
    exists_generate_eq_ok (by decide +kernel)
  have hnew : ∃ next, engine.generate (Occasion.ofEpoch 60) "كتب" "مطلع" = .ok ("ك", next) :=
    exists_generate_eq_ok (by decide +kernel)
  obtain ⟨next, hnext⟩ := hold
  obtain ⟨-, -, -, -, hsame, hagain⟩ := generated_words_agree .withCatalog firstLetters hnext
  obtain rfl := hsame (by decide +kernel)
  obtain ⟨-, hvalid, found, hfound, -, hle⟩ := hagain (Occasion.ofEpoch 90)
  obtain ⟨last, hlast⟩ := hnew
  obtain ⟨-, hhistory, -, hbeyond, -, hagain'⟩ :=
    generated_words_agree .withCatalog firstLetters hlast
  refine ⟨hnext, hvalid, ⟨found, hfound, hle⟩, last, hlast, ?_, ?_, (hagain' _).1⟩
  · rw [hhistory]
    decide +kernel
  · have hkept := hbeyond.node_eq "كلم" (by decide)
    rw [history, derivations, findRoot, hkept]
    rfl

end Engine

end Triliteral
