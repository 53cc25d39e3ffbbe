import Triliteral.Instant.Epoch
import Triliteral.Proofs.ArenaRuns
import Triliteral.Proofs.BareEngines
import Triliteral.Proofs.LocalEdits

/-!
What an edit of a tree leaves as it is. An insertion may turn the tree around but takes no history
away from its root, and recording a word moves no node. In an arena that represents the tree every
cell stays at its place, an insertion changes links and heights only, and a record changes one
history only.
-/

namespace Triliteral

inductive Edit where
  | insert (root : Root)
  | record (root : Root) (derivation : Derivation)

namespace RootTree

def apply (tree : RootTree) : Edit → RootTree
  | .insert root => (tree.insert root).2
  | .record root derivation => tree.record root derivation

def applyAll (tree : RootTree) (edits : List Edit) : RootTree :=
  edits.foldl apply tree

variable {tree : RootTree} {root : Root} {text : String}

theorem Ordered.applyAll (hordered : tree.Ordered) (edits : List Edit) :
    (tree.applyAll edits).Ordered := by
  induction edits generalizing tree with
  | nil => exact hordered
  | cons edit edits ih =>
      cases edit with
      | insert root => exact ih (hordered.insert root)
      | record root derivation => exact ih (hordered.record root derivation)

theorem stored?_insert_of_new (hordered : tree.Ordered) (hnew : root ∉ tree.roots) :
    (tree.insert root).2.stored? root.text = some ⟨root, []⟩ := by
  rw [stored?_eq_some_iff (hordered.insert root), mem_entries_insert_iff hordered]
  exact ⟨.inr ⟨hnew, rfl⟩, rfl⟩

theorem stored?_insert_of_ne (hordered : tree.Ordered) (hne : text ≠ root.text) :
    (tree.insert root).2.stored? text = tree.stored? text :=
  (editsAt_insert root).lookup_of_ne hordered hne

theorem find?_record_of_ne {other : Root} (hne : other ≠ root) (derivation : Derivation) :
    (tree.record root derivation).find? other = tree.find? other := by
  induction tree with
  | leaf => rfl
  | node left entry height right ihLeft ihRight =>
      rw [record]
      split
      · simp only [find?, ihLeft]
      · split
        · simp only [find?, ihRight]
        · next hle hge =>
          -- the node that changes is that of `root`, at which the descent to `other` does not stop
          obtain rfl := Root.eq_of_not_lt hle hge
          simp only [find?]
          split
          · rfl
          · split
            · rfl
            · next hle' hge' => exact absurd (Root.eq_of_not_lt hle' hge') hne

theorem findText?_record_of_ne (hne : text ≠ root.text) (derivation : Derivation) :
    (tree.record root derivation).findText? text = tree.findText? text := by
  rw [findText?_eq, findText?_eq]
  cases htext : Root.ofText? text with
  | none => rfl
  | some other =>
      obtain rfl := Root.ofText?_eq_some_iff.mp htext
      exact find?_record_of_ne (fun heq => hne (congrArg Root.text heq)) derivation

theorem findText?_record_text (root : Root) (derivation : Derivation) :
    (tree.record root derivation).findText? root.text =
      (tree.findText? root.text).map fun node =>
        { node with entry.derivations := derivation.record node.entry.derivations } := by
  rw [findText?_eq, findText?_eq, Root.ofText?_text, Option.bind_some, Option.bind_some]
  induction tree with
  | leaf => rfl
  | node left entry height right ihLeft ihRight =>
      rw [record, find?]
      split
      · next hlt => rw [find?, if_pos hlt, ihLeft]
      · next hge =>
        split
        · next hgt => rw [find?, if_neg hge, if_pos hgt, ihRight]
        · next hle =>
          rw [find?, if_neg hge, if_neg hle]
          rfl

end RootTree

def Cell.bare (cell : Cell) : Cell :=
  { cell with entry.derivations := [] }

namespace Arena

def apply (arena : Arena) : Edit → Arena
  | .insert root => (arena.insert root).2
  | .record root derivation => arena.record root.text derivation

def applyAll (arena : Arena) (edits : List Edit) : Arena :=
  edits.foldl apply arena

variable {arena : Arena} {tree : RootTree}

theorem Represents.applyAll (h : arena.Represents tree) (hordered : tree.Ordered)
    (edits : List Edit) : (arena.applyAll edits).Represents (tree.applyAll edits) := by
  induction edits generalizing arena tree with
  | nil => exact h
  | cons edit edits ih =>
      cases edit with
      | insert root => exact ih (h.insert hordered root).2.1 (hordered.insert root)
      | record root derivation =>
          exact ih (h.record root derivation) (hordered.record root derivation)

/-- A record changes no link, no height and no root. -/
theorem bare_record (arena : Arena) (text : String) (derivation : Derivation) :
    (arena.record text derivation).top = arena.top ∧
      (arena.record text derivation).cells.map Cell.bare = arena.cells.map Cell.bare := by
  have hbare : ∀ cell : Cell, (cell.record derivation).bare = cell.bare := fun _ => rfl
  refine ⟨rfl, ?_⟩
  rw [record]
  cases arena.place? text with
  | none => rfl
  | some place => exact map_modify_eq hbare place arena.cells

end Arena

namespace RootTree

/-- After any edits of the empty tree, in a tree as in the arena whose cells are its nodes. An
insertion of a new root gives it an empty history and leaves the entry of every other text as it
was, however the tree is turned around: in the arena the new cell comes last and each other cell
keeps its entry. An insertion of a stored root changes nothing at all. A record on a root keeps the
shape, the heights and every other node, and adds the derivation to the history of the root unless
its word is there. -/
theorem edits_disturb_nothing_else (edits : List Edit) (root : Root) (derivation : Derivation) :
    let tree := leaf.applyAll edits
    let inserted := tree.insert root
    let recorded := tree.record root derivation
    let arena := Arena.empty.applyAll edits
    let arenaInserted := arena.insert root
    let arenaRecorded := arena.record root.text derivation
    (arena.Represents tree ∧ arenaInserted.2.Represents inserted.2 ∧
      arenaRecorded.Represents recorded ∧
      ∀ text, (arena.find? text).map Cell.node = tree.findText? text) ∧
    (root ∉ tree.roots → inserted.1 = .added ∧ arenaInserted.1 = .added ∧
      inserted.2.stored? root.text = some ⟨root, []⟩ ∧
      (∀ text, text ≠ root.text → inserted.2.stored? text = tree.stored? text) ∧
      arenaInserted.2.cells.map Cell.entry = arena.cells.map Cell.entry ++ [⟨root, []⟩]) ∧
    (root ∈ tree.roots →
      inserted = (.alreadyPresent, tree) ∧ arenaInserted = (.alreadyPresent, arena)) ∧
    (recorded.bare = tree.bare ∧
      (∀ text, text ≠ root.text → recorded.findText? text = tree.findText? text) ∧
      (recorded.findText? root.text = (tree.findText? root.text).map fun node =>
        { node with entry.derivations := derivation.record node.entry.derivations }) ∧
      arenaRecorded.top = arena.top ∧
      arenaRecorded.cells.map Cell.bare = arena.cells.map Cell.bare) := by
  intro tree inserted recorded arena arenaInserted arenaRecorded
  have hordered : tree.Ordered := ordered_leaf.applyAll edits
  have harena : arena.Represents tree := Arena.represents_empty.applyAll ordered_leaf edits
  obtain ⟨houtcome, hinserted, hcells⟩ := harena.insert hordered root
  refine ⟨⟨harena, hinserted, harena.record root derivation, harena.find?_eq⟩, fun hnew => ?_,
    fun hold => ?_,
    bare_record root derivation tree, fun text hne => findText?_record_of_ne hne derivation,
    findText?_record_text root derivation, arena.bare_record root.text derivation⟩
  · rw [if_neg hnew] at hcells
    have hadded : inserted.1 = .added := by
      rw [insert_outcome hordered, if_neg hnew]
    exact ⟨hadded, houtcome.trans hadded, stored?_insert_of_new hordered hnew,
      fun text hne => stored?_insert_of_ne hordered hne, hcells⟩
  · rw [if_pos hold] at hcells
    have hpresent : inserted = (.alreadyPresent, tree) := by
      change tree.insert root = _
      rw [insert_eq hordered, if_pos hold]
    exact ⟨hpresent, Prod.ext (houtcome.trans (congrArg Prod.fst hpresent)) hcells⟩

/-- Two roots with a word each, between which a third one belongs, so that inserting it takes a
double rotation. -/
def apart : List Edit :=
  [.insert ⟨'ك', 'ت', 'ب'⟩, .record ⟨'ك', 'ت', 'ب'⟩ ⟨"كاتب", "فاعل", Instant.ofEpoch 0⟩,
    .insert ⟨'د', 'ر', 'س'⟩, .record ⟨'د', 'ر', 'س'⟩ ⟨"دارس", "فاعل", Instant.ofEpoch 1⟩]

theorem edits_disturb_nothing_else_apart :
    let tree := leaf.applyAll apart
    let inserted := (tree.insert ⟨'ع', 'ل', 'م'⟩).2
    (⟨'ع', 'ل', 'م'⟩ : Root) ∉ tree.roots ∧ tree.height = 2 ∧ inserted.height = 2 ∧
      inserted.stored? "علم" = some ⟨⟨'ع', 'ل', 'م'⟩, []⟩ ∧
      inserted.stored? "كتب" = tree.stored? "كتب" ∧ inserted.stored? "درس" = tree.stored? "درس" ∧
      (⟨'ك', 'ت', 'ب'⟩ : Root) ∈ tree.roots ∧
      tree.insert ⟨'ك', 'ت', 'ب'⟩ = (.alreadyPresent, tree) := by
  intro tree inserted
  let anything : Derivation := ⟨"", "", Instant.ofEpoch 0⟩
  have hnew : (⟨'ع', 'ل', 'م'⟩ : Root) ∉ tree.roots := by decide
  have hold : (⟨'ك', 'ت', 'ب'⟩ : Root) ∈ tree.roots := by decide
  obtain ⟨-, hinsert, -⟩ := edits_disturb_nothing_else apart ⟨'ع', 'ل', 'م'⟩ anything
  obtain ⟨-, -, hpresent, -⟩ := edits_disturb_nothing_else apart ⟨'ك', 'ت', 'ب'⟩ anything
  obtain ⟨-, -, hstored, hothers, -⟩ := hinsert hnew
  exact ⟨hnew, by decide, by decide, hstored, hothers "كتب" (by decide), hothers "درس" (by decide),
    hold, (hpresent hold).1⟩

end RootTree

end Triliteral
