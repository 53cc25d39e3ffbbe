import Triliteral.Proofs.UsableRecords

/-!
Restoring schemes from records. Whatever the records are, the registry is in order and each of
its schemes is told in full by its record; the records of such a registry are all used and give
the registry back.
-/

namespace Triliteral

namespace Scheme

/-- Holds of a scheme that its record describes in full: its rule is the one that the catalog
has under its name, or was compiled from its pattern. -/
def Restorable (p : Placeholders) (scheme : Scheme) : Prop :=
  match scheme.rule with
  | .explicit _ => ∃ entry, Catalog.find? scheme.name = some entry ∧
      scheme = { entry with usage := scheme.usage }
  | .compiled pattern => Pattern.compile p pattern.source = .ok pattern

theorem restorable_of_compiled {p : Placeholders} {scheme : Scheme} {pattern : Pattern}
    {source : String} (hrule : scheme.rule = .compiled pattern)
    (hpattern : Pattern.compile p source = .ok pattern) : scheme.Restorable p := by
  simp only [Restorable, hrule]
  rw [Pattern.source_of_compile hpattern]
  exact hpattern

theorem restorable_of_mem_catalog {p : Placeholders} {entry : Scheme}
    (h : entry ∈ Catalog.schemes) (usage : UInt64) : { entry with usage }.Restorable p := by
  obtain ⟨word, hword⟩ := Catalog.exists_rule_eq_explicit h
  simp only [Restorable, hword]
  exact ⟨entry, Catalog.find?_name h, by simp [hword]⟩

theorem Restorable.withUsage {p : Placeholders} {scheme : Scheme} (h : scheme.Restorable p)
    (usage : UInt64) : { scheme with usage }.Restorable p := by
  obtain ⟨name, category, rule, old⟩ := scheme
  cases rule with
  | explicit word =>
      obtain ⟨entry, hfind, hentry⟩ := h
      refine ⟨entry, hfind, ?_⟩
      simp only [Scheme.mk.injEq] at hentry ⊢
      exact ⟨hentry.1, hentry.2.1, hentry.2.2.1, trivial⟩
  | compiled pattern => exact h

def CompilesUnder (p : Placeholders) (scheme : Scheme) : Prop :=
  ∀ pattern, scheme.rule = .compiled pattern → Pattern.compile p pattern.source = .ok pattern

/-- What a restoration makes of a scheme. A compiled one comes back as it was; any other one
gives way to the built-in scheme of its name, if there is one. -/
def carriedOver? (scheme : Scheme) : Option Scheme :=
  match scheme.rule with
  | .explicit _ =>
    (Catalog.find? scheme.name).map fun entry => { entry with usage := scheme.usage }
  | .compiled _ => some scheme

theorem compilesUnder_of_compiled {p : Placeholders} {scheme : Scheme} {pattern : Pattern}
    {source : String} (hrule : scheme.rule = .compiled pattern)
    (hpattern : Pattern.compile p source = .ok pattern) : scheme.CompilesUnder p := by
  intro other hother
  obtain rfl : other = pattern := Rule.compiled.inj (hother.symm.trans hrule)
  rw [Pattern.source_of_compile hpattern]
  exact hpattern

theorem name_of_carriedOver? {scheme kept : Scheme} (h : scheme.carriedOver? = some kept) :
    kept.name = scheme.name := by
  unfold carriedOver? at h
  split at h
  · obtain ⟨entry, hfind, rfl⟩ := Option.map_eq_some_iff.mp h
    simpa using List.find?_some hfind
  · obtain rfl := Option.some.inj h
    rfl

theorem restorable_iff {p : Placeholders} {scheme : Scheme} :
    scheme.Restorable p ↔ scheme.CompilesUnder p ∧ scheme.carriedOver? = some scheme := by
  obtain ⟨name, category, rule, usage⟩ := scheme
  cases rule with
  | explicit word =>
      constructor
      · rintro ⟨entry, hfind, hentry⟩
        exact ⟨fun pattern hrule => Rule.noConfusion hrule,
          Option.map_eq_some_iff.mpr ⟨entry, hfind, hentry.symm⟩⟩
      · rintro ⟨-, hcarried⟩
        obtain ⟨entry, hfind, hentry⟩ := Option.map_eq_some_iff.mp hcarried
        exact ⟨entry, hfind, hentry.symm⟩
  | compiled pattern => simp [Restorable, CompilesUnder, carriedOver?]

theorem ofRecord_toRecord {p : Placeholders} {scheme : Scheme}
    (hnamed : Text.isBlankText scheme.name = false) (h : scheme.CompilesUnder p) :
    ofRecord p scheme.toRecord =
      match scheme.carriedOver? with
      | some kept => .ok kept
      | none => .error (.schemeNotFound scheme.name) := by
  obtain ⟨name, category, rule, usage⟩ := scheme
  cases rule with
  | explicit word =>
      simp only [ofRecord, toRecord, Rule.source?, carriedOver?]
      cases Catalog.find? name <;> rfl
  | compiled pattern =>
      have hcompiled : compiled p name pattern.source category =
          .ok { name, category, rule := .compiled pattern } :=
        compiled_eq_ok_iff.mpr ⟨hnamed, pattern, h pattern rfl, rfl⟩
      simp only [ofRecord, toRecord, Rule.source?, isDynamic, Option.isSome_some]
      rw [hcompiled]
      rfl

theorem restorable_of_builtIn {p : Placeholders} {scheme entry : Scheme}
    (hentry : entry ∈ Catalog.schemes) (hname : scheme.name = entry.name)
    (hcategory : scheme.category = entry.category) (hrule : scheme.rule = entry.rule) :
    Text.isBlankText scheme.name = false ∧ scheme.Restorable p := by
  refine ⟨hname ▸ Catalog.isBlankText_name hentry, ?_⟩
  obtain ⟨name, category, rule, usage⟩ := scheme
  obtain ⟨rfl, rfl, rfl⟩ : name = entry.name ∧ category = entry.category ∧ rule = entry.rule :=
    ⟨hname, hcategory, hrule⟩
  exact restorable_of_mem_catalog hentry usage

/-- Any record that is usable gives a scheme of its name that is its own record's again. -/
theorem ofRecord_eq_ok {p : Placeholders} {record : SchemeRecord} {scheme : Scheme}
    (h : ofRecord p record = .ok scheme) :
    scheme.name = record.name ∧ Text.isBlankText scheme.name = false ∧ scheme.Restorable p := by
  obtain ⟨husable, hname, -, hrest⟩ := ofRecord_eq_ok_iff.mp h
  refine ⟨hname, ?_⟩
  obtain ⟨name, pattern, dynamic, category, usage⟩ := record
  rcases pattern with _ | source
  · obtain ⟨entry, hentry, hsame, hcategory, hrule⟩ := hrest
    exact restorable_of_builtIn hentry (hname.trans hsame.symm) hcategory hrule
  · cases dynamic with
    | false =>
        obtain ⟨entry, hentry, hsame, hcategory, hrule⟩ := hrest
        exact restorable_of_builtIn hentry (hname.trans hsame.symm) hcategory hrule
    | true =>
        obtain ⟨hnamed, hsymbols⟩ := husable
        have hpattern := Pattern.compile_eq_ok_iff.mpr ⟨hsymbols, rfl⟩
        exact ⟨hname ▸ hnamed, restorable_of_compiled hrest.2 hpattern⟩

theorem usage_of_ofRecord {p : Placeholders} {record : SchemeRecord} {scheme : Scheme}
    (h : ofRecord p record = .ok scheme) : scheme.usage = record.usage :=
  (ofRecord_eq_ok_iff.mp h).2.2.1

end Scheme

namespace Registry

def Named (registry : Registry) : Prop :=
  ∀ scheme ∈ registry.schemes, Text.isBlankText scheme.name = false

def Restorable (p : Placeholders) (registry : Registry) : Prop :=
  ∀ scheme ∈ registry.schemes, scheme.Restorable p

theorem Named.insertByName {registry : Registry} (hnamed : registry.Named) {scheme : Scheme}
    (h : Text.isBlankText scheme.name = false) :
    Named ⟨insertByName scheme registry.schemes⟩ :=
  forall_insertByName h hnamed

theorem Restorable.insertByName {p : Placeholders} {registry : Registry}
    (hrestorable : registry.Restorable p) {scheme : Scheme} (h : scheme.Restorable p) :
    Restorable p ⟨insertByName scheme registry.schemes⟩ :=
  forall_insertByName h hrestorable

end Registry

namespace Engine

/-- What holds of a registry that was restored from any records. -/
structure RestoredRegistry (p : Placeholders) (registry : Registry) : Prop where
  sorted : registry.Sorted
  named : registry.Named
  restorable : registry.Restorable p

theorem restoredRegistry_empty (p : Placeholders) : RestoredRegistry p .empty where
  sorted := Registry.sorted_empty
  named := by simp [Registry.Named, Registry.empty]
  restorable := by simp [Registry.Restorable, Registry.empty]

theorem RestoredRegistry.restoreScheme {p : Placeholders} {registry : Registry}
    (hregistry : RestoredRegistry p registry) (skipped : List String) (record : SchemeRecord) :
    RestoredRegistry p (restoreScheme p (registry, skipped) record).1 := by
  rw [Engine.restoreScheme]
  split
  · next next h =>
    obtain ⟨scheme, hscheme, hadd⟩ := bind_eq_ok_iff.mp h
    obtain ⟨hfree, rfl⟩ := Registry.add_eq_ok_iff.mp hadd
    obtain ⟨-, hnamed, hrestorable⟩ := Scheme.ofRecord_eq_ok hscheme
    exact ⟨hregistry.sorted.insertByName hfree, hregistry.named.insertByName hnamed,
      hregistry.restorable.insertByName hrestorable⟩
  · exact hregistry

theorem restoredRegistry_restoreSchemes (p : Placeholders) (records : List SchemeRecord) :
    RestoredRegistry p (restoreSchemes p records).1 := by
  have hfold : ∀ state : Registry × List String, RestoredRegistry p state.1 →
      RestoredRegistry p (records.foldl (restoreScheme p) state).1 := by
    induction records with
    | nil =>
        intro state hstate
        exact hstate
    | cons record records ih =>
        intro state hstate
        exact ih _ (hstate.restoreScheme state.2 record)
  exact hfold (.empty, []) (restoredRegistry_empty p)

theorem exists_record_of_mem_restoreSchemes {p : Placeholders} {records : List SchemeRecord}
    {scheme : Scheme} (h : scheme ∈ (restoreSchemes p records).1.schemes) :
    ∃ record ∈ records, Scheme.ofRecord p record = .ok scheme := by
  have hfold : ∀ (records : List SchemeRecord) (state : Registry × List String),
      scheme ∈ (records.foldl (restoreScheme p) state).1.schemes →
      scheme ∈ state.1.schemes ∨
        ∃ record ∈ records, Scheme.ofRecord p record = .ok scheme := by
    intro records
    induction records with
    | nil =>
        intro state hmem
        exact .inl hmem
    | cons record records ih =>
        intro state hmem
        rcases ih _ hmem with hstep | ⟨later, hlater, hscheme⟩
        · rw [restoreScheme] at hstep
          split at hstep
          · next next hok =>
            obtain ⟨made, hmade, hadd⟩ := bind_eq_ok_iff.mp hok
            obtain ⟨-, rfl⟩ := Registry.add_eq_ok_iff.mp hadd
            rcases Registry.mem_insertByName.mp hstep with rfl | hold
            · exact .inr ⟨record, List.mem_cons_self, hmade⟩
            · exact .inl hold
          · exact .inl hstep
        · exact .inr ⟨later, List.mem_cons_of_mem record hlater, hscheme⟩
  rcases hfold records (.empty, []) h with hempty | hrecord
  · exact absurd hempty List.not_mem_nil
  · exact hrecord

/-- Of schemes in the order of their names all that can be carried over are restored, and the
names of the others are listed. -/
theorem restoreSchemes_eq {p : Placeholders} {registry : Registry} (hsorted : registry.Sorted)
    (hnamed : registry.Named) (hcompiles : ∀ scheme ∈ registry.schemes, scheme.CompilesUnder p) :
    restoreSchemes p (registry.schemes.map Scheme.toRecord) =
      (⟨registry.schemes.filterMap Scheme.carriedOver?⟩,
        (registry.schemes.filter fun scheme => scheme.carriedOver?.isNone).map Scheme.name) := by
  have hfold : ∀ (after before : List Scheme) (skipped : List String),
      Registry.Sorted ⟨after⟩ →
      (∀ scheme ∈ after, ∀ other ∈ before, other.name < scheme.name) →
      (∀ scheme ∈ after, Text.isBlankText scheme.name = false ∧ scheme.CompilesUnder p) →
      (after.map Scheme.toRecord).foldl (restoreScheme p) (⟨before⟩, skipped) =
        (⟨before ++ after.filterMap Scheme.carriedOver?⟩,
          skipped ++
            (after.filter fun scheme => scheme.carriedOver?.isNone).map Scheme.name) := by
    intro after
    induction after with
    | nil => simp
    | cons scheme after ih =>
        intro before skipped hsorted hlast hafter
        obtain ⟨hnext, hsorted⟩ := List.pairwise_cons.mp hsorted
        obtain ⟨hnamed, hcompiles⟩ := hafter scheme List.mem_cons_self
        have hbefore := hlast scheme List.mem_cons_self
        have hlast' : ∀ other ∈ after, ∀ earlier ∈ before, earlier.name < other.name :=
          fun other hother => hlast other (List.mem_cons_of_mem scheme hother)
        have hafter' : ∀ other ∈ after,
            Text.isBlankText other.name = false ∧ other.CompilesUnder p :=
          fun other hother => hafter other (List.mem_cons_of_mem scheme hother)
        have hrecord := Scheme.ofRecord_toRecord hnamed hcompiles
        rw [List.map_cons, List.foldl_cons]
        cases hcarried : scheme.carriedOver? with
        | none =>
            rw [hcarried] at hrecord
            have hstep : restoreScheme p (⟨before⟩, skipped) scheme.toRecord =
                (⟨before⟩, skipped ++ [scheme.name]) := by
              rw [restoreScheme, hrecord]
              rfl
            rw [hstep, ih before (skipped ++ [scheme.name]) hsorted hlast' hafter']
            simp [hcarried]
        | some kept =>
            rw [hcarried] at hrecord
            have hname : kept.name = scheme.name := Scheme.name_of_carriedOver? hcarried
            have hfirst : ∀ other ∈ before, other.name < kept.name := by
              rw [hname]
              exact hbefore
            have hfree : Registry.find? ⟨before⟩ kept.name = none :=
              Registry.find?_eq_none_iff.mpr fun other hother =>
                String.ne_of_lt (hfirst other hother)
            have hadd : Registry.add ⟨before⟩ kept = .ok ⟨before ++ [kept]⟩ :=
              Registry.add_eq_ok_iff.mpr ⟨hfree, by rw [Registry.insertByName_of_last hfirst]⟩
            have hstep : restoreScheme p (⟨before⟩, skipped) scheme.toRecord =
                (⟨before ++ [kept]⟩, skipped) := by
              rw [restoreScheme, hrecord]
              simp only [bind, Except.bind, hadd]
            have hlast'' : ∀ other ∈ after, ∀ earlier ∈ before ++ [kept],
                earlier.name < other.name := by
              intro other hother earlier hearlier
              rcases List.mem_append.mp hearlier with hearlier | hearlier
              · exact hlast' other hother earlier hearlier
              · obtain rfl := List.mem_singleton.mp hearlier
                exact hname ▸ hnext other hother
            rw [hstep, ih (before ++ [kept]) skipped hsorted hlast'' hafter']
            simp [hcarried]
  exact hfold registry.schemes [] [] hsorted (by simp)
    fun scheme hscheme => ⟨hnamed scheme hscheme, hcompiles scheme hscheme⟩

theorem restoreSchemes_toRecord {p : Placeholders} {registry : Registry}
    (hregistry : RestoredRegistry p registry) :
    restoreSchemes p (registry.schemes.map Scheme.toRecord) = (registry, []) := by
  have hrestorable : ∀ scheme ∈ registry.schemes,
      scheme.CompilesUnder p ∧ scheme.carriedOver? = some scheme :=
    fun scheme hscheme => Scheme.restorable_iff.mp (hregistry.restorable scheme hscheme)
  have hkept : registry.schemes.filterMap Scheme.carriedOver? = registry.schemes := by
    rw [List.filterMap_congr fun scheme hscheme => (hrestorable scheme hscheme).2]
    exact List.filterMap_some
  have hskipped : registry.schemes.filter (fun scheme => scheme.carriedOver?.isNone) = [] := by
    apply List.filter_eq_nil_iff.mpr
    intro scheme hscheme
    rw [(hrestorable scheme hscheme).2]
    exact Bool.false_ne_true
  rw [restoreSchemes_eq hregistry.sorted hregistry.named
    fun scheme hscheme => (hrestorable scheme hscheme).1, hkept, hskipped]
  rfl

end Engine

end Triliteral
