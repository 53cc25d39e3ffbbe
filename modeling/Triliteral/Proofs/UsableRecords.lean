import Mathlib.Data.List.Nodup
import Triliteral.Engine.Restore
import Triliteral.Proofs.RegistryOrder

/-!
Which records can be restored and what they describe. A dynamic record with a pattern is compiled
again, any other one names a built-in scheme. A record gives a scheme exactly if it is usable.
-/

namespace Triliteral

namespace Pattern

theorem source_of_compile {p : Placeholders} {source : String} {pattern : Pattern}
    (h : compile p source = .ok pattern) : pattern.source = source := by
  unfold compile at h
  split at h
  · obtain rfl := Except.ok.inj h
    rfl
  · simp at h

theorem compile_eq_ok_iff {p : Placeholders} {source : String} {pattern : Pattern} :
    compile p source = .ok pattern ↔
      (∀ symbol ∈ p.symbols, symbol ∈ source.toList) ∧
        pattern = ⟨source, instructions p source.toList⟩ := by
  have hmissing : missing p source.toList = [] ↔ ∀ symbol ∈ p.symbols, symbol ∈ source.toList := by
    simp [missing, List.filter_eq_nil_iff]
  rw [← hmissing, compile]
  split
  · next hnone => simp [hnone, eq_comm]
  · next hsome =>
    have hne : missing p source.toList ≠ [] := hsome
    simp [hne]

end Pattern

namespace Catalog

theorem isBlankText_name {scheme : Scheme} (h : scheme ∈ schemes) :
    Text.isBlankText scheme.name = false := by
  have hall : ∀ name ∈ schemes.map Scheme.name, Text.isBlankText name = false := by decide
  exact hall _ (List.mem_map_of_mem h)

theorem exists_rule_eq_explicit {scheme : Scheme} (h : scheme ∈ schemes) :
    ∃ word, scheme.rule = .explicit word := by
  simp only [schemes, entry, List.mem_cons, List.not_mem_nil, or_false] at h
  rcases h with rfl | rfl | rfl | rfl | rfl | rfl | rfl | rfl | rfl | rfl <;> exact ⟨_, rfl⟩

theorem nodup_names : (schemes.map Scheme.name).Nodup := by
  decide

theorem find?_name {scheme : Scheme} (h : scheme ∈ schemes) :
    find? scheme.name = some scheme := by
  cases hfound : find? scheme.name with
  | none =>
      have := List.find?_eq_none.mp hfound scheme h
      simp at this
  | some other =>
      have hname : other.name = scheme.name := by simpa using List.find?_some hfound
      rw [List.inj_on_of_nodup_map nodup_names (List.mem_of_find?_eq_some hfound) h hname]

theorem exists_find?_iff {name : String} :
    (∃ entry, find? name = some entry) ↔ name ∈ schemes.map Scheme.name := by
  rw [← Option.isSome_iff_exists, find?, List.find?_isSome, List.mem_map]
  simp only [beq_iff_eq]

theorem find?_eq_some_iff {name : String} {entry : Scheme} :
    find? name = some entry ↔ entry ∈ schemes ∧ entry.name = name := by
  constructor
  · intro h
    exact ⟨List.mem_of_find?_eq_some h, by simpa using List.find?_some h⟩
  · rintro ⟨hentry, rfl⟩
    exact find?_name hentry

end Catalog

namespace Scheme

theorem compiled_eq_ok_iff {p : Placeholders} {name source : String} {category : Category}
    {scheme : Scheme} :
    compiled p name source category = .ok scheme ↔
      Text.isBlankText name = false ∧ ∃ pattern, Pattern.compile p source = .ok pattern ∧
        scheme = { name, category, rule := .compiled pattern } := by
  unfold compiled
  split
  · next hblank => simp [hblank]
  · next hblank =>
    rw [bind_eq_ok_iff]
    simp only [pure, Except.pure, Except.ok.injEq, hblank, eq_comm]
    simp

theorem explicit_eq_ok_iff {name : String} {category : Category} {word : Root → String}
    {scheme : Scheme} :
    explicit name category word = .ok scheme ↔
      Text.isBlankText name = false ∧ scheme = { name, category, rule := .explicit word } := by
  unfold explicit
  split
  · next hblank => simp [hblank]
  · next hblank => simp [hblank, eq_comm]

end Scheme

/-! ### Usable records -/

namespace SchemeRecord

/-- Holds of a record that can be restored. If it is dynamic and has a pattern, its name must not
be blank and the pattern must contain every placeholder; any other one must have the name of a
built-in scheme. -/
def Usable (p : Placeholders) (record : SchemeRecord) : Prop :=
  match record.pattern, record.dynamic with
  | some source, true =>
    Text.isBlankText record.name = false ∧ ∀ symbol ∈ p.symbols, symbol ∈ source.toList
  | _, _ => record.name ∈ Catalog.schemes.map Scheme.name

-- The symbols are gone through one by one. An instance for all characters would be found too.
instance (p : Placeholders) : (record : SchemeRecord) → Decidable (record.Usable p)
  | ⟨name, some source, true, _, _⟩ =>
    have : Decidable (∀ symbol ∈ p.symbols, symbol ∈ source.toList) :=
      List.decidableBAll (· ∈ source.toList) p.symbols
    inferInstanceAs (Decidable (Text.isBlankText name = false ∧ _))
  | ⟨name, some _, false, _, _⟩ | ⟨name, none, _, _, _⟩ =>
    inferInstanceAs (Decidable (name ∈ Catalog.schemes.map Scheme.name))

/-- What a scheme has of the record from which it was restored: its name and usage and, if the
record is dynamic and has a pattern, this pattern and the category. All else is as in the built-in
scheme of its name. -/
def Describes (p : Placeholders) (record : SchemeRecord) (scheme : Scheme) : Prop :=
  scheme.name = record.name ∧ scheme.usage = record.usage ∧
    match record.pattern, record.dynamic with
    | some source, true =>
      scheme.category = record.category ∧
        scheme.rule = .compiled ⟨source, Pattern.instructions p source.toList⟩
    | _, _ =>
      ∃ entry ∈ Catalog.schemes, entry.name = record.name ∧
        scheme.category = entry.category ∧ scheme.rule = entry.rule

def usableName? (p : Placeholders) (record : SchemeRecord) : Option String :=
  if record.Usable p then some record.name else none

variable {p : Placeholders} {record : SchemeRecord}

theorem usableName?_eq_some_iff {name : String} :
    record.usableName? p = some name ↔ record.name = name ∧ record.Usable p := by
  simp [usableName?, and_comm]

end SchemeRecord

theorem SchemeRecord.exists_describes {p : Placeholders} (record : SchemeRecord)
    (h : record.Usable p) : ∃ scheme, record.Describes p scheme := by
  have hbuiltIn : ∀ {name : String} {usage : UInt64}, name ∈ Catalog.schemes.map Scheme.name →
      ∃ scheme : Scheme, scheme.name = name ∧ scheme.usage = usage ∧
        ∃ entry ∈ Catalog.schemes, entry.name = name ∧
          scheme.category = entry.category ∧ scheme.rule = entry.rule := by
    intro name usage hname
    obtain ⟨entry, hentry, rfl⟩ := List.mem_map.mp hname
    exact ⟨{ entry with usage }, rfl, rfl, entry, hentry, rfl, rfl, rfl⟩
  obtain ⟨name, pattern, dynamic, category, usage⟩ := record
  rcases pattern with _ | source
  · exact hbuiltIn h
  · cases dynamic with
    | false => exact hbuiltIn h
    | true => exact ⟨⟨name, category, _, usage⟩, rfl, rfl, rfl, rfl⟩

namespace Scheme

variable {p : Placeholders} {name : String} {category : Category} {usage : UInt64} {scheme : Scheme}

theorem compiledRecord_eq_ok_iff {source : String} :
    (compiled p name source category).map (fun scheme => { scheme with usage }) = .ok scheme ↔
      (Text.isBlankText name = false ∧ ∀ symbol ∈ p.symbols, symbol ∈ source.toList) ∧
        scheme.name = name ∧ scheme.usage = usage ∧ scheme.category = category ∧
        scheme.rule = .compiled ⟨source, Pattern.instructions p source.toList⟩ := by
  constructor
  · intro h
    cases hcompiled : compiled p name source category with
    | error fault =>
        rw [hcompiled] at h
        cases h
    | ok made =>
        rw [hcompiled] at h
        obtain rfl := Except.ok.inj h
        obtain ⟨hnamed, pattern, hpattern, rfl⟩ := compiled_eq_ok_iff.mp hcompiled
        obtain ⟨hsymbols, rfl⟩ := Pattern.compile_eq_ok_iff.mp hpattern
        exact ⟨⟨hnamed, hsymbols⟩, rfl, rfl, rfl, rfl⟩
  · obtain ⟨name', category', rule, usage'⟩ := scheme
    rintro ⟨⟨hnamed, hsymbols⟩, rfl, rfl, rfl, rfl⟩
    rw [compiled_eq_ok_iff.mpr ⟨hnamed, _, Pattern.compile_eq_ok_iff.mpr ⟨hsymbols, rfl⟩, rfl⟩]
    rfl

theorem builtInRecord_eq_ok_iff :
    (match Catalog.find? name with
      | some scheme => .ok { scheme with usage }
      | none => .error (.schemeNotFound name) : Except Fault Scheme) = .ok scheme ↔
      name ∈ Catalog.schemes.map Scheme.name ∧ scheme.name = name ∧ scheme.usage = usage ∧
        ∃ entry ∈ Catalog.schemes, entry.name = name ∧
          scheme.category = entry.category ∧ scheme.rule = entry.rule := by
  constructor
  · intro h
    split at h
    · next entry hfind =>
      obtain rfl := Except.ok.inj h
      obtain ⟨hentry, rfl⟩ := Catalog.find?_eq_some_iff.mp hfind
      exact ⟨List.mem_map_of_mem hentry, rfl, rfl, entry, hentry, rfl, rfl, rfl⟩
    · cases h
  · obtain ⟨name', category', rule, usage'⟩ := scheme
    rintro ⟨-, rfl, rfl, entry, hentry, rfl, rfl, rfl⟩
    rw [Catalog.find?_name hentry]

theorem ofRecord_eq_ok_iff {record : SchemeRecord} :
    ofRecord p record = .ok scheme ↔ record.Usable p ∧ record.Describes p scheme := by
  obtain ⟨name, pattern, dynamic, category, usage⟩ := record
  rcases pattern with _ | source
  · exact builtInRecord_eq_ok_iff
  · cases dynamic with
    | false => exact builtInRecord_eq_ok_iff
    | true => exact compiledRecord_eq_ok_iff

end Scheme

theorem Scheme.exists_ofRecord_iff {p : Placeholders} {record : SchemeRecord} :
    (∃ scheme, ofRecord p record = .ok scheme) ↔ record.Usable p := by
  constructor
  · rintro ⟨scheme, h⟩
    exact (ofRecord_eq_ok_iff.mp h).1
  · intro husable
    obtain ⟨scheme, hscheme⟩ := record.exists_describes husable
    exact ⟨scheme, ofRecord_eq_ok_iff.mpr ⟨husable, hscheme⟩⟩

end Triliteral
