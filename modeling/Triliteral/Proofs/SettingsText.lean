import Triliteral.Proofs.PathExpansion
import Triliteral.Proofs.SettingsLayers
import Triliteral.Proofs.TomlDocuments
import Triliteral.Proofs.TomlTables

/-!
Settings as texts. The text of settings assigns every setting that has a value and no other, so that
a file with this text over the built-in values leads to the same settings again.
-/

namespace Triliteral

namespace Toml

/-- Holds of a value that is neither an array nor a table. -/
def Value.IsScalar : Value → Prop
  | .array .. | .table .. => False
  | _ => True

theorem Value.readMarked?_of_isScalar {value : Value} (h : value.IsScalar) :
    value.readMarked? = some value := by
  cases value with
  | array => exact h.elim
  | table => exact h.elim
  | _ => simp [readMarked?]

namespace Entries

theorem readMarkedEntries?_of_scalars {entries : Entries}
    (h : ∀ entry ∈ entries, entry.2.IsScalar) : readMarkedEntries? entries = some entries := by
  induction entries with
  | nil => rw [readMarkedEntries?]
  | cons entry entries ih =>
      obtain ⟨hentry, h⟩ := List.forall_mem_cons.mp h
      rw [readMarkedEntries?, Value.readMarked?_of_isScalar hentry, ih h]
      rfl

/-- A printed document of pairs without dots is read as its pairs. -/
theorem ofText?_opening {pairs : List Pair}
    (hprintable : ∀ p ∈ pairs, (Reader.Statement.pair p).Printable)
    (hpaths : ∀ p ∈ pairs, p.path = []) (hkeys : (pairs.map Pair.key).Nodup) :
    ofText? (Document.text ⟨pairs, []⟩) = some (pairs.map fun p => (p.key, p.value)) := by
  have hdocument : Document.Printable ⟨pairs, []⟩ := by
    intro s hs
    obtain ⟨p, hp, rfl⟩ := by simpa [Document.statements] using hs
    exact hprintable p hp
  have hentries := @addPairs_eq pairs hpaths hkeys [] fun _ _ => rfl
  rw [ofText?, Document.text, String.toList_ofList, Document.read?_chars hdocument]
  simpa [Document.entries?] using hentries

theorem ofFreeText?_of_ofText? {text : String} {entries : Entries}
    (htext : ofText? text = some entries) (hmarked : isMarked entries = false)
    (hscalars : ∀ entry ∈ entries, entry.2.IsScalar) : ofFreeText? text = some entries := by
  have hread : (Value.table .header entries).readMarked? = some (.table .header entries) := by
    rw [Value.readMarked?, hmarked, readMarkedEntries?_of_scalars hscalars]
    rfl
  rw [ofFreeText?, htext]
  simp [hread]

end Entries

end Toml

namespace Settings

open Toml

variable {settings : Settings}

/-! ### The text -/

theorem mem_opening {p : Pair} :
    p ∈ settings.document.opening ↔
      p = ⟨[], "data_dir", .string settings.dataDirectory⟩ ∨
      (∃ path, settings.stateFile = some path ∧ ⟨[], "state_file", .string path⟩ = p) ∨
      (∃ path, settings.rootsFile = some path ∧ ⟨[], "roots_file", .string path⟩ = p) ∨
      p = ⟨[], "placeholders", .string settings.placeholders⟩ ∨
      p = ⟨[], "rtl", .boolean settings.rightToLeft⟩ ∨
      p = ⟨[], "max_search_space", .integer settings.maxSearchSpace⟩ := by
  simp [document]

def names : List String :=
  ["data_dir", "state_file", "roots_file", "placeholders", "rtl", "max_search_space"]

theorem sublist_names (settings : Settings) :
    (settings.document.opening.map Pair.key).Sublist names := by
  obtain ⟨_, stateFile, rootsFile, _, _, _⟩ := settings
  cases stateFile <;> cases rootsFile <;> simp [document, names]

theorem nodup_keys (settings : Settings) : (settings.document.opening.map Pair.key).Nodup :=
  settings.sublist_names.nodup (by decide)

/-- What the text assigns are texts, a truth value and a number, to whole settings. -/
theorem pair_of_mem_opening {p : Pair} (hp : p ∈ settings.document.opening) :
    p.path = [] ∧ p.key ∈ names ∧
      ((∃ text, p.value = .string text) ∨ p.value = .boolean settings.rightToLeft ∨
        p.value = .integer settings.maxSearchSpace) := by
  refine ⟨?_, settings.sublist_names.subset (List.mem_map_of_mem hp), ?_⟩ <;>
    rcases mem_opening.mp hp with rfl | ⟨path, -, rfl⟩ | ⟨path, -, rfl⟩ | rfl | rfl | rfl <;> simp

theorem isScalar_value {p : Pair} (hp : p ∈ settings.document.opening) : p.value.IsScalar := by
  obtain ⟨-, -, ⟨text, hvalue⟩ | hvalue | hvalue⟩ := pair_of_mem_opening hp <;>
    rw [hvalue] <;> trivial

theorem printable_value (hcount : settings.maxSearchSpace ≤ maxInteger) {p : Pair}
    (hp : p ∈ settings.document.opening) : p.value.Printable := by
  obtain ⟨-, -, ⟨text, hvalue⟩ | hvalue | hvalue⟩ := pair_of_mem_opening hp
  · rw [hvalue]
    trivial
  · rw [hvalue]
    trivial
  · rw [hvalue]
    exact ⟨Int.natCast_nonneg _, Int.ofNat_le.mpr hcount⟩

def entries (settings : Settings) : Entries :=
  settings.document.opening.map fun p => (p.key, p.value)

theorem ofFreeText?_text (hcount : settings.maxSearchSpace ≤ maxInteger) :
    Entries.ofFreeText? settings.document.text = some settings.entries := by
  have hbare : ∀ name ∈ names, IsBareKey name := by decide
  have hread : Entries.ofText? settings.document.text = some settings.entries := by
    refine Entries.ofText?_opening (fun p hp => ?_) (fun p hp => (pair_of_mem_opening hp).1)
      settings.nodup_keys
    obtain ⟨hpath, hkey, -⟩ := pair_of_mem_opening hp
    have hprintable :=
      Reader.Statement.printable_pair (hbare p.key hkey) (printable_value hcount hp)
    rwa [← hpath] at hprintable
  refine Entries.ofFreeText?_of_ofText? hread ?_ ?_
  · -- The first key is that of the directory.
    simp [Entries.isMarked, entries, document, markingKey]
  · intro entry hentry
    obtain ⟨p, hp, rfl⟩ := List.mem_map.mp hentry
    exact isScalar_value hp

/-! ### The layers -/

theorem isPlain_of_scalar {name : String} {value : Value} (hname : name ∈ names)
    (hvalue : value.IsScalar) : Assignment.IsPlain ⟨name, value⟩ := by
  have hsplit : ∀ name ∈ names, Layer.splitKey name = (name, false) := by decide +kernel
  refine ⟨hsplit name hname, ?_⟩
  rintro origin rfl
  exact hvalue

/-- The values that the text leads to over the built-in ones. -/
def reloaded (env : Environment) (settings : Settings) : Values :=
  [defaults env, Layer.ofEntries settings.entries].foldl Layer.apply []

theorem isPlain_of_mem_layer {assignment : Assignment}
    (h : assignment ∈ Layer.ofEntries settings.entries) : assignment.IsPlain := by
  obtain ⟨entry, hentry, rfl⟩ := List.mem_map.mp ((Layer.ofEntries_perm _).mem_iff.mp h)
  obtain ⟨p, hp, rfl⟩ := List.mem_map.mp hentry
  exact isPlain_of_scalar (pair_of_mem_opening hp).2.1 (isScalar_value hp)

theorem layer_keys_perm (settings : Settings) :
    ((Layer.ofEntries settings.entries).map Assignment.key).Perm
      (settings.document.opening.map Pair.key) := by
  have hperm := (Layer.ofEntries_perm settings.entries).map Assignment.key
  rwa [entries, List.map_map, List.map_map] at hperm

theorem lookup_reloaded (env : Environment) (p : Pair) (hp : p ∈ settings.document.opening) :
    (reloaded env settings).lookup p.key = some p.value := by
  have hmem : ⟨p.key, p.value⟩ ∈ Layer.ofEntries settings.entries :=
    (Layer.ofEntries_perm _).mem_iff.mpr
      (List.mem_map.mpr ⟨(p.key, p.value), List.mem_map_of_mem hp, rfl⟩)
  exact Layer.lookup_apply_of_mem (fun _ => isPlain_of_mem_layer)
    (settings.layer_keys_perm.nodup_iff.mpr settings.nodup_keys) hmem _

theorem lookup_reloaded_of_not_mem (env : Environment) {key : String}
    (hkey : key ∉ settings.document.opening.map Pair.key)
    (hdefaults : key ∉ (defaults env).map Assignment.key) :
    (reloaded env settings).lookup key = none := by
  have hplain : ∀ assignment ∈ defaults env, assignment.IsPlain := by
    simp only [defaults, List.forall_mem_cons]
    refine ⟨?_, ?_, ?_, ?_, fun _ h => absurd h List.not_mem_nil⟩ <;>
      exact isPlain_of_scalar (by decide) trivial
  have hlayer : key ∉ (Layer.ofEntries settings.entries).map Assignment.key :=
    settings.layer_keys_perm.mem_iff.not.mpr hkey
  refine (Layer.lookup_apply_of_not_mem (fun _ => isPlain_of_mem_layer) hlayer _).trans ?_
  exact Layer.lookup_apply_of_not_mem hplain hdefaults []

/-- A path that need not be there is read back, or none where none was written. -/
theorem convert?_path (env : Environment) {key : String} {path : Option String}
    (hwritten : ∀ text, path = some text → ⟨[], key, .string text⟩ ∈ settings.document.opening)
    (habsent : path = none → key ∉ settings.document.opening.map Pair.key)
    (hdefaults : key ∉ (defaults env).map Assignment.key) :
    convert? (reloaded env settings) key textOf? = .ok path := by
  cases path with
  | some text => exact convert?_of_lookup (lookup_reloaded env _ (hwritten text rfl)) rfl
  | none =>
      exact convert?_of_absent (lookup_reloaded_of_not_mem env (habsent rfl) hdefaults)

theorem ofValues_reloaded (env : Environment) (settings : Settings) :
    ofValues env (reloaded env settings) = .ok settings := by
  have hlookup := @lookup_reloaded settings env
  have hdata : convert? (reloaded env settings) "data_dir" textOf? =
      .ok (some settings.dataDirectory) :=
    convert?_of_lookup (hlookup _ (mem_opening.mpr (.inl rfl))) rfl
  have hstate : convert? (reloaded env settings) "state_file" textOf? = .ok settings.stateFile := by
    refine convert?_path env (fun text htext => ?_) (fun hnone => ?_) (by simp [defaults])
    · exact mem_opening.mpr (.inr (.inl ⟨text, htext, rfl⟩))
    · simp [document, hnone]
  have hroots : convert? (reloaded env settings) "roots_file" textOf? = .ok settings.rootsFile := by
    refine convert?_path env (fun text htext => ?_) (fun hnone => ?_) (by simp [defaults])
    · exact mem_opening.mpr (.inr (.inr (.inl ⟨text, htext, rfl⟩)))
    · simp [document, hnone]
  have hplaceholders : convert? (reloaded env settings) "placeholders" textOf? =
      .ok (some settings.placeholders) :=
    convert?_of_lookup (hlookup ⟨[], _, .string _⟩ (by simp [mem_opening])) rfl
  have hrtl : convert? (reloaded env settings) "rtl" truthOf? = .ok (some settings.rightToLeft) :=
    convert?_of_lookup (hlookup ⟨[], _, .boolean _⟩ (by simp [mem_opening])) rfl
  have hspace : convert? (reloaded env settings) "max_search_space" countOf? =
      .ok (some settings.maxSearchSpace) :=
    convert?_of_lookup (hlookup ⟨[], _, .integer settings.maxSearchSpace⟩ (by simp [mem_opening]))
      (by simp [countOf?])
  rw [ofValues, hdata, hstate, hroots, hplaceholders, hrtl, hspace]
  rfl

/-! ### Loading what was written -/

def paths (settings : Settings) : List String :=
  settings.dataDirectory :: (settings.stateFile.toList ++ settings.rootsFile.toList)

theorem expandPaths_eq_self (env : Environment)
    (hpaths : ∀ path ∈ settings.paths, '$' ∉ path.toList ∧ path.toList.head? ≠ some '~') :
    settings.expandPaths env = settings := by
  have hpath : ∀ path ∈ settings.paths, PathTemplate.expand env path = path := fun path hmem =>
    PathTemplate.expand_eq_self env (hpaths path hmem).1 (hpaths path hmem).2
  have hoption : ∀ named : Option String, (∀ path ∈ named, path ∈ settings.paths) →
      named.map (PathTemplate.expand env) = named := by
    rintro (_ | path) hnamed
    · rfl
    · rw [Option.map_some, hpath path (hnamed path rfl)]
  rw [expandPaths, hpath _ List.mem_cons_self, hoption settings.stateFile (by simp_all [paths]),
    hoption settings.rootsFile (by simp_all [paths])]

theorem ofLayers_text (env : Environment) {placeholders : Placeholders}
    (hplaceholders : settings.parsedPlaceholders = .ok placeholders)
    (hpaths : ∀ path ∈ settings.paths, '$' ∉ path.toList ∧ path.toList.head? ≠ some '~') :
    ofLayers env [defaults env, Layer.ofEntries settings.entries] = .ok settings := by
  rw [ofLayers, ← reloaded, ofValues_reloaded]
  change (settings.parsedPlaceholders >>= fun _ => pure (settings.expandPaths env)) = _
  rw [hplaceholders, expandPaths_eq_self env hpaths]
  rfl

open MemoryFiles in
/-- Settings whose paths are not changed by expansion, whose placeholders can be used and whose
number is in the range of the format are written as a text, and a file that gets this text as its
content is loaded as the same settings, whatever the files and the environment are besides. -/
theorem loadFrom_toToml {settings : Settings}
    (hpaths : ∀ path ∈ settings.paths, '$' ∉ path.toList ∧ path.toList.head? ≠ some '~')
    (hplaceholders : ∃ placeholders, settings.parsedPlaceholders = .ok placeholders)
    (hcount : settings.maxSearchSpace ≤ maxInteger) :
    ∃ text, settings.toToml = .ok text ∧
      ∀ (env : Environment) (path : String) (files after : MemoryFiles),
        Path.extension? path = some "toml" →
        (Files.write path text : Run Bool) files = (true, after) →
        after.perform (loadFrom env ⟨none, some path, false⟩) = (.ok settings, after) := by
  refine ⟨settings.document.text, if_pos hcount, fun env path files after hextension hwrite => ?_⟩
  rw [write_run] at hwrite
  split at hwrite
  · cases hwrite
  · next hworks =>
    obtain ⟨-, rfl⟩ := Prod.mk.inj hwrite
    have hread : (files.put path settings.document.text).read? path =
        some settings.document.text := by
      have hfailing : ¬ (files.put path settings.document.text).failing.contains path := by
        simpa [put] using hworks
      rw [read?, if_neg hfailing, lookup_put]
    obtain ⟨placeholders, hplaceholders⟩ := hplaceholders
    rw [loadFrom_of_read hextension hread (ofFreeText?_text hcount),
      ofLayers_text env hplaceholders hpaths]

/-- Quotes, backslashes and line ends in the texts, one path that is not named, and the greatest
number that can be written. -/
theorem loadFrom_toToml_quoted :
    let settings : Settings :=
      ⟨"a\"\\\n\u0000'''\"\"\"", none, some "b~\r\n\t#", "\n'\"\\\t", true, maxInteger⟩
    let env : Environment := ⟨[("HOME", "/home/user")]⟩
    let files : MemoryFiles := ⟨[("s.toml", "rtl = 2")], [], ["t.toml"]⟩
    ∃ text, settings.toToml = .ok text ∧
      (files.put "s.toml" text).perform (loadFrom env ⟨none, some "s.toml", false⟩) =
        (.ok settings, files.put "s.toml" text) := by
  intro settings env files
  obtain ⟨text, htext, hload⟩ := @loadFrom_toToml settings (by decide)
    ⟨⟨'\'', '"', '\\', by decide, by decide, by decide⟩, by decide +kernel⟩ (Nat.le_refl _)
  exact ⟨text, htext, hload env "s.toml" files (files.put "s.toml" text) (by decide +kernel)
    (MemoryFiles.write_run ..)⟩

end Settings

end Triliteral
