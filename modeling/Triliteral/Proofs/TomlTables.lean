import Triliteral.Toml.Table

/-!
Tables made by headers of array elements. Every such header adds one table to the array of its
name, which is the last table of another array if the name is a dotted one, and leaves all
other entries as they are.
-/

namespace Triliteral.Toml.Entries

/-! ### Entries -/

theorem get?_append (entries more : Entries) (key : String) :
    (entries ++ more).get? key = (entries.get? key).or (more.get? key) :=
  List.lookup_append

theorem get?_concat_of_ne {key other : String} (h : other ≠ key) (entries : Entries)
    (value : Value) : (entries ++ [(key, value)]).get? other = entries.get? other := by
  have hnone : get? [(key, value)] other = none := by
    simp [get?, h]
  rw [get?_append, hnone, Option.or_none]

theorem get?_concat_self {entries : Entries} {key : String} (h : entries.get? key = none)
    (value : Value) : (entries ++ [(key, value)]).get? key = some value := by
  rw [get?_append, h, Option.none_or, get?, List.lookup_cons_self]

theorem get?_replace_of_ne {key other : String} (h : other ≠ key) (entries : Entries)
    (value : Value) : (entries.replace key value).get? other = entries.get? other := by
  induction entries with
  | nil => rfl
  | cons entry entries ih =>
      obtain ⟨name, old⟩ := entry
      rw [replace, get?, get?] at ih ⊢
      rw [List.map_cons, List.lookup_cons]
      by_cases hname : name = key
      · subst hname
        have hne : (other == name) = false := by simpa using h
        simp only [beq_self_eq_true, if_true, List.lookup_cons, hne]
        exact ih
      · have hkeep : (name == key) = false := by simpa using hname
        simp only [hkeep, Bool.false_eq_true, if_false, List.lookup_cons, ih]

theorem get?_replace_self {entries : Entries} {key : String} {old : Value}
    (h : entries.get? key = some old) (value : Value) :
    (entries.replace key value).get? key = some value := by
  induction entries with
  | nil => simp [get?] at h
  | cons entry entries ih =>
      obtain ⟨name, first⟩ := entry
      rw [replace, List.map_cons, get?]
      by_cases hname : name = key
      · subst hname
        simp
      · have hne : (key == name) = false := by simpa using Ne.symm hname
        have hkeep : (name == key) = false := by simpa using hname
        rw [get?, List.lookup_cons, hne] at h
        simp only [hkeep, Bool.false_eq_true, if_false, List.lookup_cons, hne]
        exact ih h

/-! ### Pairs -/

/-- Pairs without dots that have different new keys are all added as they are. -/
theorem addPairs_eq {pairs : List Pair} (hpaths : ∀ p ∈ pairs, p.path = [])
    (hkeys : (pairs.map Pair.key).Nodup) {entries : Entries}
    (hnew : ∀ p ∈ pairs, entries.get? p.key = none) :
    addPairs pairs entries = some (entries ++ pairs.map fun p => (p.key, p.value)) := by
  induction pairs generalizing entries with
  | nil => simp [addPairs]
  | cons p pairs ih =>
      obtain ⟨hpath, hpaths⟩ := List.forall_mem_cons.mp hpaths
      obtain ⟨hp, hnew⟩ := List.forall_mem_cons.mp hnew
      obtain ⟨hkey, hkeys⟩ := List.nodup_cons.mp hkeys
      have hadd : addPair p entries = some (entries ++ [(p.key, p.value)]) := by
        simp only [addPair, hpath, define, hp]
      have hfree : ∀ q ∈ pairs, get? (entries ++ [(p.key, p.value)]) q.key = none := by
        intro q hq
        have hne : q.key ≠ p.key := by
          intro heq
          exact hkey (heq ▸ List.mem_map_of_mem hq)
        rw [get?_concat_of_ne hne, hnew q hq]
      have hrest := ih hpaths hkeys hfree
      rw [addPairs] at hrest ⊢
      simp [hadd, hrest]

/-! ### Growing arrays -/

/-- What stands under the name of an array to which headers have added some items. -/
def grown : List Value → Option Value
  | [] => none
  | items => some (.array true items)

theorem grown_concat (items : List Value) (item : Value) :
    grown (items ++ [item]) = some (.array true (items ++ [item])) := by
  cases items <;> rfl

/-- A header adds one table to the array of its name. -/
theorem addBlock_element {key : String} {pairs : List Pair} {inner : Entries}
    (hpairs : addPairs pairs [] = some inner) {entries : Entries} {items : List Value}
    (hitems : entries.get? key = grown items) :
    ∃ after, addBlock ⟨.element [] key, pairs⟩ entries = some after ∧
      after.get? key = grown (items ++ [.table .header inner]) ∧
      ∀ other, other ≠ key → after.get? other = entries.get? other := by
  cases items with
  | nil =>
      have hnone : entries.get? key = none := hitems
      refine ⟨entries ++ [(key, .array true [.table .header inner])], ?_, ?_, ?_⟩
      · simp [addBlock, changeAt, hpairs, hnone]
      · exact get?_concat_self hnone _
      · intro other hother
        exact get?_concat_of_ne hother entries _
  | cons item items =>
      have hsome : entries.get? key = some (.array true (item :: items)) := hitems
      refine ⟨entries.replace key (.array true (item :: items ++ [.table .header inner])), ?_,
        ?_, ?_⟩
      · simp [addBlock, changeAt, hpairs, hsome]
      · exact get?_replace_self hsome _
      · intro other hother
        exact get?_replace_of_ne hother entries _

/-- A dotted header adds its table inside the last table of the outer array. -/
theorem addBlock_nested {list key : String} {pairs : List Pair} {entries last : Entries}
    {items : List Value} {origin : Origin}
    (hlist : entries.get? list = grown (items ++ [.table origin last])) :
    addBlock ⟨.element [list] key, pairs⟩ entries =
      (addBlock ⟨.element [] key, pairs⟩ last).map fun after =>
        entries.replace list (.array true (items ++ [.table origin after])) := by
  rw [grown_concat] at hlist
  simp only [addBlock, changeAt, hlist, List.getLast?_concat, List.dropLast_concat]
  rw [Option.map_eq_bind]
  rfl

/-! ### Blocks -/

def addBlocks (blocks : List Block) (entries : Entries) : Option Entries :=
  blocks.foldlM (fun entries block => addBlock block entries) entries

theorem addBlocks_nil (entries : Entries) : addBlocks [] entries = some entries := rfl

theorem addBlocks_cons {block : Block} {entries next : Entries}
    (h : addBlock block entries = some next) (blocks : List Block) :
    addBlocks (block :: blocks) entries = addBlocks blocks next := by
  simp [addBlocks, h]

theorem addBlocks_append {blocks : List Block} {entries next : Entries}
    (h : addBlocks blocks entries = some next) (more : List Block) :
    addBlocks (blocks ++ more) entries = addBlocks more next := by
  rw [addBlocks] at h
  simp [addBlocks, h]

end Triliteral.Toml.Entries
