import Triliteral.Scheme.Registry

/-!
The registry stays in strictly ascending order of names, so that a name stands for one scheme.
-/

namespace Triliteral

theorem bind_eq_ok_iff {ε α β : Type} {outcome : Except ε α} {next : α → Except ε β} {b : β} :
    outcome >>= next = .ok b ↔ ∃ a, outcome = .ok a ∧ next a = .ok b := by
  cases outcome with
  | error fault => simp [bind, Except.bind]
  | ok a => simp [bind, Except.bind]

theorem ok_bind {ε α β : Type} (a : α) (next : α → Except ε β) : (.ok a >>= next) = next a :=
  rfl

theorem error_bind {ε α β : Type} (fault : ε) (next : α → Except ε β) :
    (.error fault >>= next) = .error fault :=
  rfl

theorem string_eq_of_not_lt {a b : String} (h : ¬ a < b) (h' : ¬ b < a) : a = b :=
  String.le_antisymm (String.not_lt.mp h') (String.not_lt.mp h)

namespace Registry

/-- The names of the schemes are strictly ascending. -/
def Sorted (registry : Registry) : Prop :=
  registry.schemes.Pairwise fun a b => a.name < b.name

theorem sorted_empty : empty.Sorted :=
  List.Pairwise.nil

/-! ### Looking up -/

theorem find?_eq_none_iff {registry : Registry} {name : String} :
    registry.find? name = none ↔ ∀ scheme ∈ registry.schemes, scheme.name ≠ name := by
  simp [find?, List.find?_eq_none]

theorem find?_eq_some_iff {registry : Registry} (hsorted : registry.Sorted) {name : String}
    {scheme : Scheme} :
    registry.find? name = some scheme ↔ scheme ∈ registry.schemes ∧ scheme.name = name := by
  constructor
  · intro h
    have hname := List.find?_some h
    exact ⟨List.mem_of_find?_eq_some h, by simpa using hname⟩
  · rintro ⟨hmem, rfl⟩
    obtain ⟨before, after, hsplit⟩ := List.append_of_mem hmem
    refine List.find?_eq_some_iff_append.mpr ⟨by simp, before, after, hsplit, ?_⟩
    intro other hother
    have hsorted' : (before ++ scheme :: after).Pairwise fun a b => a.name < b.name :=
      hsplit ▸ hsorted
    have hlt := (List.pairwise_append.mp hsorted').2.2 other hother scheme (by simp)
    simpa using String.ne_of_lt hlt

theorem get_eq_ok_iff {registry : Registry} {name : String} {scheme : Scheme} :
    registry.get name = .ok scheme ↔ registry.find? name = some scheme := by
  unfold get
  cases registry.find? name <;> simp

/-! ### Names -/

def names (registry : Registry) : List String :=
  registry.schemes.map Scheme.name

theorem not_mem_names_iff {registry : Registry} {name : String} :
    name ∉ registry.names ↔ registry.find? name = none := by
  rw [find?_eq_none_iff, names, List.mem_map]
  constructor
  · intro hnot scheme hscheme hname
    exact hnot ⟨scheme, hscheme, hname⟩
  · rintro hall ⟨scheme, hscheme, hname⟩
    exact hall scheme hscheme hname

theorem mem_names_iff {registry : Registry} {name : String} :
    name ∈ registry.names ↔ ∃ scheme, registry.find? name = some scheme := by
  constructor
  · intro hmem
    cases hfound : registry.find? name with
    | none => exact absurd hmem (not_mem_names_iff.mpr hfound)
    | some scheme => exact ⟨scheme, rfl⟩
  · rintro ⟨scheme, hfound⟩
    have hname : scheme.name = name := by simpa using List.find?_some hfound
    exact hname ▸ List.mem_map_of_mem (List.mem_of_find?_eq_some hfound)

/-! ### Adding -/

theorem mem_insertByName {scheme other : Scheme} {schemes : List Scheme} :
    other ∈ insertByName scheme schemes ↔ other = scheme ∨ other ∈ schemes := by
  induction schemes with
  | nil => simp [insertByName]
  | cons head rest ih =>
      rw [insertByName]
      split
      · rw [List.mem_cons, ih, List.mem_cons]
        exact or_left_comm
      · rw [List.mem_cons]

theorem forall_insertByName {P : Scheme → Prop} {scheme : Scheme} {schemes : List Scheme}
    (hscheme : P scheme) (hschemes : ∀ other ∈ schemes, P other) :
    ∀ other ∈ insertByName scheme schemes, P other := by
  intro other hother
  rcases mem_insertByName.mp hother with rfl | hother
  · exact hscheme
  · exact hschemes other hother

theorem pairwise_insertByName {scheme : Scheme} {schemes : List Scheme}
    (hsorted : schemes.Pairwise fun a b => a.name < b.name)
    (hnew : ∀ other ∈ schemes, other.name ≠ scheme.name) :
    (insertByName scheme schemes).Pairwise fun a b => a.name < b.name := by
  induction schemes with
  | nil => simp [insertByName]
  | cons head rest ih =>
      obtain ⟨hhead, hrest⟩ := List.pairwise_cons.mp hsorted
      rw [insertByName]
      split
      · next hlt =>
        refine List.pairwise_cons.mpr
          ⟨?_, ih hrest fun other hother => hnew other (List.mem_cons_of_mem head hother)⟩
        intro other hother
        rcases mem_insertByName.mp hother with rfl | hother
        · exact hlt
        · exact hhead other hother
      · next hle =>
        have hgt : scheme.name < head.name := by
          by_cases hgt : scheme.name < head.name
          · exact hgt
          · exact absurd (string_eq_of_not_lt hle hgt) (hnew head List.mem_cons_self)
        refine List.pairwise_cons.mpr ⟨?_, hsorted⟩
        intro other hother
        rcases List.mem_cons.mp hother with rfl | hother
        · exact hgt
        · exact String.lt_trans hgt (hhead other hother)

/-- A scheme whose name comes after all others is put at the end. -/
theorem insertByName_of_last {scheme : Scheme} {schemes : List Scheme}
    (hlast : ∀ other ∈ schemes, other.name < scheme.name) :
    insertByName scheme schemes = schemes ++ [scheme] := by
  induction schemes with
  | nil => rfl
  | cons head rest ih =>
      rw [insertByName, if_pos (hlast head List.mem_cons_self),
        ih fun other hother => hlast other (List.mem_cons_of_mem head hother), List.cons_append]

theorem add_eq_ok_iff {registry next : Registry} {scheme : Scheme} :
    registry.add scheme = .ok next ↔
      registry.find? scheme.name = none ∧ next = ⟨insertByName scheme registry.schemes⟩ := by
  unfold add
  cases registry.find? scheme.name with
  | some other => simp
  | none => simp [eq_comm]

theorem Sorted.insertByName {registry : Registry} (hsorted : registry.Sorted) {scheme : Scheme}
    (hfree : registry.find? scheme.name = none) :
    Sorted ⟨insertByName scheme registry.schemes⟩ :=
  pairwise_insertByName hsorted (find?_eq_none_iff.mp hfree)

theorem find?_insertByName {registry : Registry} {scheme : Scheme}
    (hfree : registry.find? scheme.name = none) (name : String) :
    find? ⟨insertByName scheme registry.schemes⟩ name =
      if scheme.name = name then some scheme else registry.find? name := by
  obtain ⟨schemes⟩ := registry
  induction schemes with
  | nil => simp [insertByName, find?]
  | cons head rest ih =>
      rw [find?_eq_none_iff] at hfree
      have hhead : head.name ≠ scheme.name := hfree head List.mem_cons_self
      have hrest : find? ⟨rest⟩ scheme.name = none :=
        find?_eq_none_iff.mpr fun other hother => hfree other (List.mem_cons_of_mem head hother)
      have ih := ih hrest
      simp only [find?] at ih ⊢
      rw [insertByName]
      by_cases hname : scheme.name = name
      · rw [if_pos hname] at ih ⊢
        split
        · rw [List.find?_cons_of_neg (by simpa [← hname] using hhead), ih]
        · rw [List.find?_cons_of_pos (by simpa using hname)]
      · rw [if_neg hname] at ih ⊢
        split
        · rw [List.find?_cons, ih, List.find?_cons]
        · rw [List.find?_cons_of_neg (by simpa using hname)]

theorem size_insertByName (scheme : Scheme) (schemes : List Scheme) :
    size ⟨insertByName scheme schemes⟩ = schemes.length + 1 := by
  induction schemes with
  | nil => rfl
  | cons head rest ih =>
      rw [insertByName]
      split
      · simpa [size] using ih
      · rfl

/-! ### Changing and removing -/

theorem Sorted.update {registry : Registry} (hsorted : registry.Sorted) (name : String)
    {change : Scheme → Scheme} (hname : ∀ scheme, (change scheme).name = scheme.name) :
    (registry.update name change).Sorted := by
  refine List.pairwise_map.mpr (hsorted.imp ?_)
  intro a b hlt
  have hkeep : ∀ scheme : Scheme,
      (if scheme.name == name then change scheme else scheme).name = scheme.name := by
    intro scheme
    split
    · exact hname scheme
    · rfl
  rwa [hkeep, hkeep]

theorem mem_update {registry : Registry} {name : String} {change : Scheme → Scheme}
    {scheme : Scheme} :
    scheme ∈ (registry.update name change).schemes ↔
      ∃ old ∈ registry.schemes, (if old.name == name then change old else old) = scheme :=
  List.mem_map

theorem names_update (registry : Registry) (name : String) {change : Scheme → Scheme}
    (hname : ∀ scheme, (change scheme).name = scheme.name) :
    (registry.update name change).names = registry.names := by
  rw [names, update, List.map_map, names]
  refine List.map_congr_left fun scheme _ => ?_
  rw [Function.comp_apply]
  split
  · exact hname scheme
  · rfl

theorem find?_update (registry : Registry) (name : String) {change : Scheme → Scheme}
    (hname : ∀ scheme, (change scheme).name = scheme.name) (other : String) :
    (registry.update name change).find? other =
      (registry.find? other).map fun scheme =>
        if scheme.name == name then change scheme else scheme := by
  rw [find?, update, List.find?_map, find?]
  congr 2
  funext scheme
  rw [Function.comp_apply]
  split
  · rw [hname]
  · rfl

theorem forall_update {P : Scheme → Prop} {registry : Registry} {name : String}
    {change : Scheme → Scheme}
    (hchanged : ∀ scheme ∈ registry.schemes, scheme.name = name → P (change scheme))
    (hkept : ∀ scheme ∈ registry.schemes, scheme.name ≠ name → P scheme) :
    ∀ scheme ∈ (registry.update name change).schemes, P scheme := by
  intro scheme hscheme
  obtain ⟨old, hold, rfl⟩ := mem_update.mp hscheme
  split
  · next hname => exact hchanged old hold (eq_of_beq hname)
  · next hname => exact hkept old hold fun heq => hname (beq_iff_eq.mpr heq)

def without (registry : Registry) (name : String) : Registry :=
  ⟨registry.schemes.filter fun scheme => scheme.name != name⟩

theorem Sorted.without {registry : Registry} (hsorted : registry.Sorted) (name : String) :
    (registry.without name).Sorted :=
  List.Pairwise.filter _ hsorted

theorem without_of_find?_eq_none {registry : Registry} {name : String}
    (h : registry.find? name = none) : registry.without name = registry := by
  rw [Registry.without, List.filter_eq_self.mpr]
  intro scheme hscheme
  exact bne_iff_ne.mpr (find?_eq_none_iff.mp h scheme hscheme)

theorem mem_without {registry : Registry} {name : String} {scheme : Scheme} :
    scheme ∈ (registry.without name).schemes ↔
      scheme ∈ registry.schemes ∧ scheme.name ≠ name := by
  simp [Registry.without]

theorem remove_eq_ok_iff {registry next : Registry} {name : String} {scheme : Scheme} :
    registry.remove name = .ok (scheme, next) ↔
      registry.find? name = some scheme ∧ next = registry.without name := by
  rw [remove, bind_eq_ok_iff]
  simp only [get_eq_ok_iff, pure, Except.pure, Except.ok.injEq, Prod.mk.injEq]
  constructor
  · rintro ⟨found, hfound, rfl, rfl⟩
    exact ⟨hfound, rfl⟩
  · rintro ⟨hfound, rfl⟩
    exact ⟨scheme, hfound, rfl, rfl⟩

theorem modify_eq_ok_iff {registry next : Registry} {p : Placeholders} {name source : String} :
    registry.modify p name source = .ok next ↔
      (∃ scheme, registry.find? name = some scheme) ∧
        ∃ pattern, Pattern.compile p source = .ok pattern ∧
          next = registry.update name fun scheme =>
            { scheme with rule := .compiled pattern } := by
  rw [modify, bind_eq_ok_iff]
  simp only [get_eq_ok_iff, bind_eq_ok_iff, pure, Except.pure, Except.ok.injEq]
  constructor
  · rintro ⟨scheme, hfound, pattern, hpattern, rfl⟩
    exact ⟨⟨scheme, hfound⟩, pattern, hpattern, rfl⟩
  · rintro ⟨⟨scheme, hfound⟩, pattern, hpattern, rfl⟩
    exact ⟨scheme, hfound, pattern, hpattern, rfl⟩

end Registry

end Triliteral
