import Triliteral.Proofs.HistoryGrowth

/-!
Edits of one place. Registries are looked up by names and trees by the texts of roots; a change that
concerns one name or one text only can be exchanged with every change that concerns another one.
-/

namespace Triliteral

/-- Changes that keep what is valid valid and change at most what one key stands for, and that by
what it stood for. -/
structure EditsAt {σ α : Type} (valid : σ → Prop) (lookup : σ → String → Option α) (key : String)
    (change : σ → σ) : Prop where
  keeps : ∀ {store}, valid store → valid (change store)
  lookup_eq : ∃ edit : Option α → Option α, ∀ {store}, valid store → ∀ other,
    lookup (change store) other =
      if other = key then edit (lookup store key) else lookup store other

namespace EditsAt

variable {σ α : Type} {valid : σ → Prop} {lookup : σ → String → Option α} {key other : String}
  {f g : σ → σ} {store : σ}

theorem refl (key : String) : EditsAt valid lookup key id where
  keeps := id
  lookup_eq := by
    refine ⟨id, fun _ other => ?_⟩
    split
    · next heq => rw [heq, id, id]
    · rfl

theorem lookup_of_ne (hf : EditsAt valid lookup key f) (hvalid : valid store) (hne : other ≠ key) :
    lookup (f store) other = lookup store other := by
  obtain ⟨edit, hedit⟩ := hf.lookup_eq
  rw [hedit hvalid, if_neg hne]

theorem lookup_comm (hf : EditsAt valid lookup key f) (hg : EditsAt valid lookup other g)
    (hne : key ≠ other) (hvalid : valid store) (third : String) :
    lookup (f (g store)) third = lookup (g (f store)) third := by
  obtain ⟨edit, hedit⟩ := hf.lookup_eq
  by_cases hthird : third = key
  · rw [hthird, hg.lookup_of_ne (hf.keeps hvalid) hne, hedit (hg.keeps hvalid), hedit hvalid,
      if_pos rfl, if_pos rfl, hg.lookup_of_ne hvalid hne]
  · obtain ⟨edit', hedit'⟩ := hg.lookup_eq
    rw [hf.lookup_of_ne (hg.keeps hvalid) hthird, hedit' hvalid, hedit' (hf.keeps hvalid),
      hf.lookup_of_ne hvalid hthird, hf.lookup_of_ne hvalid hne.symm]

end EditsAt

/-- What is kept in a strict order is known by looking up keys. -/
theorem eq_of_lookup_eq {α : Type} {key : α → String} {r : α → α → Prop} [Std.Antisymm r]
    [Std.Irrefl r] {items items' : List α} {look look' : String → Option α}
    (hitems : items.Pairwise r) (hitems' : items'.Pairwise r)
    (hlook : ∀ item name, look name = some item ↔ item ∈ items ∧ key item = name)
    (hlook' : ∀ item name, look' name = some item ↔ item ∈ items' ∧ key item = name)
    (h : ∀ name, look name = look' name) : items = items' := by
  refine hitems.eq_of_mem_iff hitems' fun item => ?_
  constructor
  · intro hmem
    have hfound := (hlook item _).mpr ⟨hmem, rfl⟩
    exact ((hlook' item _).mp ((h _).symm.trans hfound)).1
  · intro hmem
    have hfound := (hlook' item _).mpr ⟨hmem, rfl⟩
    exact ((hlook item _).mp ((h _).trans hfound)).1

/-! ### Registries -/

namespace Registry

variable {registry : Registry} {name other : String}

instance : Std.Asymm fun a b : Scheme => a.name < b.name where
  asymm _ _ hlt hgt := String.lt_irrefl _ (String.lt_trans hlt hgt)

theorem Sorted.eq_of_find?_eq {a b : Registry} (ha : a.Sorted) (hb : b.Sorted)
    (h : ∀ name, a.find? name = b.find? name) : a = b :=
  congrArg Registry.mk <| eq_of_lookup_eq ha hb (fun _ _ => find?_eq_some_iff ha)
    (fun _ _ => find?_eq_some_iff hb) h

theorem find?_without (registry : Registry) (name other : String) :
    (registry.without name).find? other = if other = name then none else registry.find? other := by
  rw [without, find?, List.find?_filter]
  split
  · next heq =>
    refine List.find?_eq_none.mpr fun scheme _ => ?_
    simp [heq]
  · next hne =>
    rw [find?]
    congr 1
    funext scheme
    by_cases hname : scheme.name = other <;> simp [hname, hne]

def put (scheme : Scheme) (registry : Registry) : Registry :=
  ⟨insertByName scheme (registry.without scheme.name).schemes⟩

theorem put_of_free {scheme : Scheme} (hfree : registry.find? scheme.name = none) :
    registry.put scheme = ⟨insertByName scheme registry.schemes⟩ := by
  rw [put, without_of_find?_eq_none hfree]

theorem editsAt_put (scheme : Scheme) : EditsAt Sorted find? scheme.name (put scheme) := by
  have hfree : ∀ registry : Registry,
      (registry.without scheme.name).find? scheme.name = none := fun registry => by
    rw [find?_without, if_pos rfl]
  refine ⟨fun hsorted => (hsorted.without _).insertByName (hfree _),
    fun _ => some scheme, fun {registry} _ other => ?_⟩
  rw [put, find?_insertByName (hfree registry), find?_without]
  by_cases hname : other = scheme.name
  · rw [if_pos hname.symm, if_pos hname]
  · rw [if_neg (Ne.symm hname), if_neg hname, if_neg hname]

theorem editsAt_without (name : String) : EditsAt Sorted find? name (·.without name) :=
  ⟨fun hsorted => hsorted.without name, fun _ => none,
    fun {registry} _ => registry.find?_without name⟩

theorem editsAt_update (name : String) {change : Scheme → Scheme}
    (hname : ∀ scheme, (change scheme).name = scheme.name) :
    EditsAt Sorted find? name (·.update name change) := by
  refine ⟨fun hsorted => hsorted.update name hname, Option.map change,
    fun {registry} _ other => ?_⟩
  rw [find?_update registry name hname]
  cases hfound : registry.find? other with
  | none =>
      split
      · next heq => rw [← heq, hfound, Option.map_none, Option.map_none]
      · rfl
  | some scheme =>
      have hscheme : scheme.name = other := by simpa using List.find?_some hfound
      by_cases heq : other = name
      · rw [if_pos heq, ← heq, hfound, Option.map_some, Option.map_some, hscheme,
          if_pos (beq_self_eq_true other)]
      · rw [if_neg heq, Option.map_some, hscheme, if_neg (by simpa using heq)]

theorem editsAt_countUse (name : String) : EditsAt Sorted find? name (·.countUse name) :=
  editsAt_update name fun _ => rfl

theorem editsAt_comm {f g : Registry → Registry} (hf : EditsAt Sorted find? name f)
    (hg : EditsAt Sorted find? other g) (hne : name ≠ other) (hsorted : registry.Sorted) :
    f (g registry) = g (f registry) :=
  (hf.keeps (hg.keeps hsorted)).eq_of_find?_eq (hg.keeps (hf.keeps hsorted))
    (hf.lookup_comm hg hne hsorted)

/-- Uses can be counted in any order, also those of one scheme. -/
theorem countUse_comm (hsorted : registry.Sorted) (name other : String) :
    (registry.countUse name).countUse other = (registry.countUse other).countUse name := by
  by_cases heq : name = other
  · rw [heq]
  · exact editsAt_comm (editsAt_countUse other) (editsAt_countUse name) (Ne.symm heq) hsorted

end Registry

/-! ### Trees -/

namespace RootTree

variable {tree : RootTree} {text other : String}

def stored? (tree : RootTree) (text : String) : Option RootEntry :=
  (tree.findText? text).map Node.entry

theorem stored?_eq_some_iff (hordered : tree.Ordered) {entry : RootEntry} :
    tree.stored? text = some entry ↔ entry ∈ tree.entries ∧ entry.root.text = text := by
  rw [stored?, Option.map_eq_some_iff]
  constructor
  · rintro ⟨node, hfound, rfl⟩
    obtain ⟨hnode, htext⟩ := (findText?_eq_some_iff hordered).mp hfound
    exact ⟨List.mem_map_of_mem hnode, htext⟩
  · rintro ⟨hentry, htext⟩
    obtain ⟨node, hnode, rfl⟩ := List.mem_map.mp hentry
    exact ⟨node, (findText?_eq_some_iff hordered).mpr ⟨hnode, htext⟩, rfl⟩

theorem stored?_text_eq_none_iff (hordered : tree.Ordered) {root : Root} :
    tree.stored? root.text = none ↔ root ∉ tree.roots := by
  rw [Option.eq_none_iff_forall_ne_some, roots, List.mem_map]
  constructor
  · rintro hnone ⟨entry, hentry, rfl⟩
    exact hnone entry ((stored?_eq_some_iff hordered).mpr ⟨hentry, rfl⟩)
  · intro hnot entry hsome
    obtain ⟨hentry, htext⟩ := (stored?_eq_some_iff hordered).mp hsome
    exact hnot ⟨entry, hentry, Root.text_injective htext⟩

theorem Ordered.entries_eq_of_entry?_eq {a b : RootTree} (ha : a.Ordered) (hb : b.Ordered)
    (h : ∀ text, a.stored? text = b.stored? text) : a.entries = b.entries :=
  eq_of_lookup_eq (ordered_iff_entries.mp ha) (ordered_iff_entries.mp hb)
    (fun _ _ => stored?_eq_some_iff ha) (fun _ _ => stored?_eq_some_iff hb) h

theorem mem_entries_insert_iff (hordered : tree.Ordered) {root : Root} {entry : RootEntry} :
    entry ∈ (tree.insert root).2.entries ↔
      entry ∈ tree.entries ∨ root ∉ tree.roots ∧ entry = ⟨root, []⟩ := by
  rw [insert_eq hordered]
  by_cases hroot : root ∈ tree.roots
  · simp [hroot]
  · rw [if_neg hroot, entries_grow hordered hroot, List.mem_orderedInsert, or_comm]
    simp [hroot]

theorem editsAt_insert (root : Root) :
    EditsAt Ordered stored? root.text fun tree => (tree.insert root).2 := by
  refine ⟨fun hordered => hordered.insert root, fun found => some (found.getD ⟨root, []⟩),
    fun {tree} hordered other => ?_⟩
  have hinserted := hordered.insert root
  by_cases hother : other = root.text
  · rw [if_pos hother, hother, stored?_eq_some_iff hinserted, mem_entries_insert_iff hordered]
    cases hfound : tree.stored? root.text with
    | none => exact ⟨.inr ⟨(stored?_text_eq_none_iff hordered).mp hfound, rfl⟩, rfl⟩
    | some entry =>
        obtain ⟨hentry, htext⟩ := (stored?_eq_some_iff hordered).mp hfound
        exact ⟨.inl hentry, htext⟩
  · rw [if_neg hother]
    ext entry
    rw [stored?_eq_some_iff hinserted, stored?_eq_some_iff hordered,
      mem_entries_insert_iff hordered]
    refine and_congr_left fun htext => or_iff_left ?_
    rintro ⟨-, rfl⟩
    exact hother htext.symm

theorem editsAt_record (root : Root) (derivation : Derivation) :
    EditsAt Ordered stored? root.text (record root derivation) := by
  refine ⟨fun hordered => hordered.record root derivation,
    Option.map (RootEntry.recordAt root derivation), fun {tree} hordered other => ?_⟩
  have hlookup : (record root derivation tree).stored? other =
      (tree.stored? other).map (RootEntry.recordAt root derivation) := by
    ext entry
    rw [stored?_eq_some_iff (hordered.record root derivation), entries_record hordered,
      Option.map_eq_some_iff, List.mem_map]
    simp only [stored?_eq_some_iff hordered]
    constructor
    · rintro ⟨⟨old, hold, rfl⟩, htext⟩
      rw [RootEntry.root_recordAt] at htext
      exact ⟨old, ⟨hold, htext⟩, rfl⟩
    · rintro ⟨old, ⟨hold, rfl⟩, rfl⟩
      exact ⟨⟨old, hold, rfl⟩, by rw [RootEntry.root_recordAt]⟩
  rw [hlookup]
  split
  · next heq => rw [heq]
  · next hne =>
    -- what is found under another text is the entry of another root
    cases hfound : tree.stored? other with
    | none => rfl
    | some entry =>
        obtain ⟨-, rfl⟩ := (stored?_eq_some_iff hordered).mp hfound
        rw [Option.map_some, RootEntry.recordAt_of_ne derivation]
        exact fun heq => hne (congrArg Root.text heq)

theorem editsAt_comm {f g : RootTree → RootTree} (hf : EditsAt Ordered stored? text f)
    (hg : EditsAt Ordered stored? other g) (hne : text ≠ other) (hordered : tree.Ordered) :
    (f (g tree)).entries = (g (f tree)).entries :=
  (hf.keeps (hg.keeps hordered)).entries_eq_of_entry?_eq (hg.keeps (hf.keeps hordered))
    (hf.lookup_comm hg hne hordered)

end RootTree

end Triliteral
