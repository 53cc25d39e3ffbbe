import Mathlib.Data.List.Induction

/-!
First occurrences in lists whose items may have keys. An item is kept if it has a key and no item
before it has the same one; the others have no key or repeat one.
-/

namespace Triliteral.FirstOccurrences

variable {α κ : Type}

/-- The items of a list that pass a test on what comes before them. -/
def pick (test : List α → α → Bool) (items : List α) : List α :=
  (items.zipIdx.filter fun (item, place) => test (items.take place) item).map Prod.fst

theorem pick_concat (test : List α → α → Bool) (items : List α) (item : α) :
    pick test (items ++ [item]) =
      pick test items ++ if test items item then [item] else [] := by
  have hbefore : ∀ entry ∈ items.zipIdx,
      test ((items ++ [item]).take entry.2) entry.1 = test (items.take entry.2) entry.1 := by
    intro entry hentry
    have hplace : entry.2 < items.length := (List.mem_zipIdx' hentry).1
    rw [List.take_append_of_le_length (Nat.le_of_lt hplace)]
  rw [pick, List.zipIdx_append, List.filter_append, List.map_append, List.filter_congr hbefore,
    ← pick]
  congr 1
  cases h : test items item <;> simp [h]

theorem length_pick_add (test : List α → α → Bool) (items : List α) :
    (pick test items).length + (pick (fun before item => !test before item) items).length =
      items.length := by
  induction items using List.reverseRecOn with
  | nil => rfl
  | append_singleton items item ih =>
      rw [pick_concat, pick_concat]
      cases test items item <;> simp <;> omega

section Keys

variable [DecidableEq κ] {key? : α → Option κ} {items : List α} {item : α}

/-- Whether an item has a key that none of the items before it has. -/
def isFirst (key? : α → Option κ) (before : List α) (item : α) : Bool :=
  (key? item).isSome && before.all fun earlier => key? earlier != key? item

def firsts (key? : α → Option κ) (items : List α) : List α :=
  pick (isFirst key?) items

/-- The items that are not the first with their key, or have none. -/
def others (key? : α → Option κ) (items : List α) : List α :=
  pick (fun before item => !isFirst key? before item) items

/-- The items that have a key, but are not the first with it. -/
def repeats (key? : α → Option κ) (items : List α) : List α :=
  pick (fun before item => (key? item).isSome && !isFirst key? before item) items

def firstWith? (key? : α → Option κ) (key : κ) (items : List α) : Option α :=
  items.find? fun item => key? item == some key

theorem isFirst_iff_of_key {key : κ} (hkey : key? item = some key) :
    isFirst key? items item = true ↔ firstWith? key? key items = none := by
  simp [isFirst, firstWith?, hkey]

theorem isFirst_of_no_key (hkey : key? item = none) : isFirst key? items item = false := by
  simp [isFirst, hkey]

theorem firstWith?_concat (key : κ) :
    firstWith? key? key (items ++ [item]) =
      (firstWith? key? key items).or (if key? item = some key then some item else none) := by
  rw [firstWith?, List.find?_append, ← firstWith?]
  by_cases hkey : key? item = some key <;> simp [hkey]

theorem key_of_firstWith? {key : κ} (h : firstWith? key? key items = some item) :
    item ∈ items ∧ key? item = some key := by
  refine ⟨List.mem_of_find?_eq_some h, ?_⟩
  simpa using List.find?_some h

theorem exists_firstWith?_iff {key : κ} :
    (∃ item, firstWith? key? key items = some item) ↔ ∃ item ∈ items, key? item = some key := by
  rw [← Option.isSome_iff_exists, firstWith?, List.find?_isSome]
  simp only [beq_iff_eq]

theorem firsts_concat_of_first (h : isFirst key? items item = true) :
    firsts key? (items ++ [item]) = firsts key? items ++ [item] ∧
      others key? (items ++ [item]) = others key? items ∧
      repeats key? (items ++ [item]) = repeats key? items := by
  simp [firsts, others, repeats, pick_concat, h]

theorem others_concat (h : isFirst key? items item = false) :
    firsts key? (items ++ [item]) = firsts key? items ∧
      others key? (items ++ [item]) = others key? items ++ [item] := by
  simp [firsts, others, pick_concat, h]

theorem isFirst_iff : isFirst key? items item = true ↔
    ∃ key, key? item = some key ∧ firstWith? key? key items = none := by
  cases hkey : key? item with
  | none => simp [isFirst_of_no_key hkey]
  | some key => simp [isFirst_iff_of_key hkey]

theorem repeats_concat_of_key {key : κ} (hkey : key? item = some key)
    (h : isFirst key? items item = false) :
    repeats key? (items ++ [item]) = repeats key? items ++ [item] := by
  simp [repeats, pick_concat, hkey, h]

theorem repeats_concat_of_no_key (hkey : key? item = none) :
    repeats key? (items ++ [item]) = repeats key? items := by
  simp [repeats, pick_concat, hkey]

/-- An item that is not a first changes no first item. -/
theorem firstWith?_concat_of_not_first (h : isFirst key? items item = false) (key : κ) :
    firstWith? key? key (items ++ [item]) = firstWith? key? key items := by
  rw [firstWith?_concat]
  split
  · next hkey =>
    cases hfound : firstWith? key? key items with
    | none => exact absurd (h.symm.trans ((isFirst_iff_of_key hkey).mpr hfound)) Bool.false_ne_true
    | some found => rfl
  · exact Option.or_none

theorem exists_mem_firsts_iff {key : κ} :
    (∃ item ∈ firsts key? items, key? item = some key) ↔ ∃ item ∈ items, key? item = some key := by
  induction items using List.reverseRecOn with
  | nil => simp [firsts, pick]
  | append_singleton items item ih =>
      cases hfirst : isFirst key? items item with
      | true =>
          rw [(firsts_concat_of_first hfirst).1]
          simp only [List.mem_append, or_and_right, exists_or, ih]
      | false =>
          rw [(others_concat hfirst).1, ih]
          constructor
          · rintro ⟨other, hother, hkey⟩
            exact ⟨other, List.mem_append_left _ hother, hkey⟩
          · rintro ⟨other, hother, hkey⟩
            rcases List.mem_append.mp hother with hother | hother
            · exact ⟨other, hother, hkey⟩
            · -- the last item repeats a key, as it has one and is not the first with it
              obtain rfl := List.mem_singleton.mp hother
              apply exists_firstWith?_iff.mp
              rw [← Option.ne_none_iff_exists', ne_eq, ← isFirst_iff_of_key hkey, hfirst]
              exact Bool.false_ne_true

/-- If no key is repeated, only the items without keys are left out. -/
theorem others_of_nodup (h : (items.filterMap key?).Nodup) :
    others key? items = items.filter fun item => (key? item).isNone := by
  induction items using List.reverseRecOn with
  | nil => rfl
  | append_singleton items item ih =>
      rw [List.filterMap_append, List.nodup_append] at h
      obtain ⟨hitems, -, hdisjoint⟩ := h
      rw [List.filter_append]
      cases hkey : key? item with
      | none =>
          rw [(others_concat (isFirst_of_no_key hkey)).2, ih hitems]
          simp [hkey]
      | some key =>
          have hnew : firstWith? key? key items = none := by
            by_contra hold
            obtain ⟨earlier, hearlier, hsame⟩ :=
              exists_firstWith?_iff.mp (Option.ne_none_iff_exists'.mp hold)
            exact hdisjoint key (List.mem_filterMap.mpr ⟨earlier, hearlier, hsame⟩) key
              (by simp [hkey]) rfl
          rw [(firsts_concat_of_first ((isFirst_iff_of_key hkey).mpr hnew)).2.1, ih hitems]
          simp [hkey]

theorem length_firsts_add_others (key? : α → Option κ) (items : List α) :
    (firsts key? items).length + (others key? items).length = items.length :=
  length_pick_add (isFirst key?) items

theorem length_others (key? : α → Option κ) (items : List α) :
    (others key? items).length =
      (items.filter fun item => (key? item).isNone).length + (repeats key? items).length := by
  induction items using List.reverseRecOn with
  | nil => rfl
  | append_singleton items item ih =>
      rw [List.filter_append, List.length_append]
      cases hfirst : isFirst key? items item with
      | true =>
          obtain ⟨key, hkey, -⟩ := isFirst_iff.mp hfirst
          obtain ⟨-, hothers, hrepeats⟩ := firsts_concat_of_first hfirst
          rw [hothers, hrepeats, ih]
          simp [hkey]
      | false =>
          rw [(others_concat hfirst).2, List.length_append, ih]
          cases hkey : key? item with
          | none =>
              rw [repeats_concat_of_no_key hkey]
              simp [hkey]
              omega
          | some key =>
              rw [repeats_concat_of_key hkey hfirst]
              simp [hkey]
              omega

end Keys

end Triliteral.FirstOccurrences
