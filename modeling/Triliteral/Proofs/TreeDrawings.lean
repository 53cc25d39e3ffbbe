import Mathlib.Data.List.DropRight
import Triliteral.Proofs.LogarithmicHeight
import Triliteral.Proofs.RootsFileLayouts
import Triliteral.RootTree.Drawing

/-!
Drawings of trees can be read back. A line of a drawing tells the depth, the root and the height of
one node, whatever characters the root is made of. The nodes come in preorder, and the order of the
roots tells which of them are on the left side of the first one, so that two trees with the same
drawing have the same shape.
-/

namespace Triliteral

open RootsFile (splitLines splitLines_append)

namespace RootTree

/-! ### Lines -/

/-- A line of a drawing. On the path from the top down to its node, each child either has a sibling
below it in the drawing or is the last one. -/
structure Spot where
  continued : List Bool
  root : Root
  height : Nat
  deriving DecidableEq

/-- What stands before the line of a child. -/
def connector (continued : Bool) : String :=
  if continued then "├── " else "└── "

/-- What stands before the lines below that of a child. -/
def rail (continued : Bool) : String :=
  if continued then "│   " else "    "

def indent : List Bool → String
  | [] => ""
  | [last] => connector last
  | continued :: next :: below => rail continued ++ indent (next :: below)

namespace Spot

def depth (spot : Spot) : Nat :=
  spot.continued.length

def line (spot : Spot) : String :=
  indent spot.continued ++
    (spot.root.text ++ " (h=" ++ Text.Decimal.text spot.height ++ ")")

def below (continued : Bool) (spot : Spot) : Spot :=
  { spot with continued := continued :: spot.continued }

theorem line_below_of_top {spot : Spot} (htop : spot.continued = []) (continued : Bool) :
    (spot.below continued).line = connector continued ++ spot.line := by
  rw [line, line, below, htop, indent, indent, String.empty_append]

theorem line_below_of_ne {spot : Spot} (hbelow : spot.continued ≠ []) (continued : Bool) :
    (spot.below continued).line = rail continued ++ spot.line := by
  obtain ⟨next, more, hcontinued⟩ := List.exists_cons_of_ne_nil hbelow
  rw [line, line, below, hcontinued, indent, String.append_assoc]

theorem continued_ne_nil_of_mem_below {spots : List Spot} {continued : Bool} {spot : Spot}
    (h : spot ∈ spots.map (below continued)) : spot.continued ≠ [] := by
  obtain ⟨inner, -, rfl⟩ := List.mem_map.mp h
  exact List.cons_ne_nil continued inner.continued

end Spot

/-- The nodes in preorder with their true heights: the top, those on the left, those on the
right. -/
def outline : RootTree → List Spot
  | leaf => []
  | node left entry height right =>
    ⟨[], entry.root, (node left entry height right).trueHeight⟩ ::
      (left.outline.map (Spot.below (right ≠ leaf)) ++ right.outline.map (Spot.below false))

theorem length_outline (tree : RootTree) : tree.outline.length = tree.size := by
  induction tree with
  | leaf => rfl
  | node left entry height right ihLeft ihRight =>
      rw [outline, List.length_cons, List.length_append, List.length_map, List.length_map, ihLeft,
        ihRight, size]

theorem mem_roots_of_mem_outline {tree : RootTree} {spot : Spot} (h : spot ∈ tree.outline) :
    spot.root ∈ tree.roots := by
  induction tree generalizing spot with
  | leaf => exact absurd h List.not_mem_nil
  | node left entry height right ihLeft ihRight =>
      rw [roots_node, List.mem_append, List.mem_cons]
      rw [outline, List.mem_cons, List.mem_append, List.mem_map, List.mem_map] at h
      rcases h with rfl | ⟨inner, hinner, rfl⟩ | ⟨inner, hinner, rfl⟩
      · exact .inr (.inl rfl)
      · exact .inl (@ihLeft inner hinner)
      · exact .inr (.inr (@ihRight inner hinner))

theorem hang_lines {tree : RootTree} (hlines : tree.lines = tree.outline.map Spot.line)
    (continued : Bool) :
    hang (connector continued) (rail continued) tree.lines =
      (tree.outline.map (Spot.below continued)).map Spot.line := by
  cases tree with
  | leaf => rfl
  | node left entry height right =>
      rw [hlines, outline, List.map_cons, List.map_cons, List.map_cons, hang,
        Spot.line_below_of_top rfl, List.map_map, List.map_map]
      refine congrArg (List.cons _) (List.map_congr_left fun spot hspot => ?_)
      -- Below the first line all lines have indents already.
      have hbelow : spot.continued ≠ [] :=
        (List.mem_append.mp hspot).elim Spot.continued_ne_nil_of_mem_below
          Spot.continued_ne_nil_of_mem_below
      exact (Spot.line_below_of_ne hbelow continued).symm

theorem lines_eq {tree : RootTree} (hbalanced : tree.Balanced) :
    tree.lines = tree.outline.map Spot.line := by
  induction tree with
  | leaf => rfl
  | node left entry height right ihLeft ihRight =>
      obtain ⟨hleft, hright, -, -, hheight⟩ := hbalanced
      have hlabel : label entry height =
          Spot.line ⟨[], entry.root, (node left entry height right).trueHeight⟩ := by
        rw [hheight, Spot.line, indent, String.empty_append]
        rfl
      rw [outline, List.map_cons, List.map_append, ← hang_lines (ihLeft hleft),
        ← hang_lines (ihRight hright), ← hlabel]
      cases right with
      | leaf => simp [lines, hang, hangLast, connector, rail]
      | node => simp [lines, hangLast, hangUpper, connector, rail]

/-! ### Reading lines -/

theorem length_indent (continued : List Bool) :
    (indent continued).toList.length = 4 * continued.length := by
  induction continued with
  | nil => rfl
  | cons first more ih =>
      cases more with
      | nil => cases first <;> rfl
      | cons next more =>
          have hrail : (rail first).toList.length = 4 := by cases first <;> rfl
          rw [indent, String.toList_append, List.length_append, ih, hrail, List.length_cons,
            List.length_cons, List.length_cons]
          omega

theorem indent_injective : Function.Injective indent := by
  intro continued other h
  have hlength : continued.length = other.length := by
    have hchars := congrArg (fun text : String => text.toList.length) h
    simp only [length_indent] at hchars
    omega
  induction continued generalizing other with
  | nil => exact (List.length_eq_zero_iff.mp hlength.symm).symm
  | cons first more ih =>
      obtain ⟨first', more', rfl⟩ := List.exists_cons_of_length_eq_add_one hlength.symm
      have hmore : more.length = more'.length := Nat.succ.inj hlength
      cases more with
      | nil =>
          obtain rfl := List.length_eq_zero_iff.mp hmore.symm
          rw [indent, indent] at h
          revert h
          cases first <;> cases first' <;> decide
      | cons next more =>
          obtain ⟨next', more', rfl⟩ := List.exists_cons_of_length_eq_add_one hmore.symm
          rw [indent, indent, ← String.toList_inj, String.toList_append, String.toList_append] at h
          obtain ⟨hrail, hindent⟩ := List.append_inj h (by cases first <;> cases first' <;> rfl)
          obtain rfl : first = first' := by
            revert hrail
            cases first <;> cases first' <;> decide
          rw [ih (String.toList_inj.mp hindent) hmore]

namespace Spot

theorem toList_line (spot : Spot) :
    spot.line.toList = (indent spot.continued).toList ++ spot.root.letters ++ " (h=".toList ++
      Text.Decimal.digits spot.height ++ [')'] := by
  simp [line, Root.text, Text.Decimal.text]

/-- The height is read from the end of a line up to a character that is not a digit. -/
theorem height_of_line (spot : Spot) :
    Text.Decimal.value (spot.line.toList.dropLast.rtakeWhile Text.Decimal.isDigit) =
      spot.height := by
  have hdigits : ∀ c ∈ (Text.Decimal.digits spot.height).reverse, Text.Decimal.isDigit c = true :=
    fun c hc => Text.Decimal.isDigit_of_mem_digits (List.mem_reverse.mp hc)
  rw [toList_line, List.dropLast_concat, List.rtakeWhile, List.reverse_append,
    List.takeWhile_append_of_pos hdigits]
  have hend : (((indent spot.continued).toList ++ spot.root.letters ++
      " (h=".toList).reverse.takeWhile Text.Decimal.isDigit) = [] := by
    rw [List.reverse_append]
    exact List.takeWhile_cons_of_neg (by decide)
  rw [hend, List.append_nil, List.reverse_reverse, Text.Decimal.value_digits]

/-- A line belongs to one node only, whatever the letters of its root are. -/
theorem line_injective : Function.Injective line := by
  intro spot other h
  have hheight : spot.height = other.height := by
    rw [← height_of_line spot, ← height_of_line other, h]
  have hchars := congrArg String.toList h
  rw [toList_line, toList_line, hheight, List.append_left_inj, List.append_left_inj,
    List.append_left_inj] at hchars
  obtain ⟨hindent, hletters⟩ := List.append_inj' hchars rfl
  have hcontinued := indent_injective (String.toList_inj.mp hindent)
  have hroot := Root.letters_injective hletters
  obtain ⟨continued, root, height⟩ := spot
  obtain ⟨continued', root', height'⟩ := other
  obtain rfl : continued = continued' := hcontinued
  obtain rfl : root = root' := hroot
  obtain rfl : height = height' := hheight
  rfl

theorem newline_not_mem_line {spot : Spot} (hroot : '\n' ∉ spot.root.letters) :
    '\n' ∉ spot.line.toList := by
  have hindent : ∀ continued, '\n' ∉ (indent continued).toList := by
    intro continued
    induction continued with
    | nil => decide
    | cons first more ih =>
        cases more with
        | nil => cases first <;> decide
        | cons next more =>
            have hrail : '\n' ∉ (rail first).toList := by cases first <;> decide
            rw [indent, String.toList_append, List.mem_append, not_or]
            exact ⟨hrail, ih⟩
  have hdigits : '\n' ∉ Text.Decimal.digits spot.height := fun h =>
    absurd (Text.Decimal.isDigit_of_mem_digits h) (by decide)
  rw [toList_line]
  simp only [List.mem_append, not_or]
  exact ⟨⟨⟨⟨hindent _, hroot⟩, by decide⟩, hdigits⟩, by decide⟩

end Spot

/-! ### Texts -/

theorem splitLines_join {lines : List String} (h : ∀ line ∈ lines, '\n' ∉ line.toList) :
    splitLines (String.join (lines.map (· ++ "\n"))).toList = lines.map String.toList ++ [[]] := by
  induction lines with
  | nil => rfl
  | cons line lines ih =>
      obtain ⟨hline, h⟩ := List.forall_mem_cons.mp h
      rw [List.map_cons, String.join_cons, String.toList_append, String.toList_append,
        List.append_assoc]
      exact (splitLines_append hline _).trans (congrArg (List.cons line.toList) (ih h))

/-- A text that is drawn consists of the lines of the nodes, and each of them is ended. -/
theorem splitLines_draw {tree : RootTree} (hnode : tree ≠ leaf) (hbalanced : tree.Balanced)
    (hroots : ∀ root ∈ tree.roots, '\n' ∉ root.letters) :
    splitLines tree.draw.toList = (tree.outline.map fun spot => spot.line.toList) ++ [[]] := by
  have hdraw : tree.draw = String.join (tree.lines.map (· ++ "\n")) := by
    cases tree with
    | leaf => exact absurd rfl hnode
    | node => rfl
  rw [hdraw, lines_eq hbalanced, splitLines_join, List.map_map]
  · rfl
  · intro line hline
    obtain ⟨spot, hspot, rfl⟩ := List.mem_map.mp hline
    exact Spot.newline_not_mem_line (hroots _ (mem_roots_of_mem_outline hspot))

/-! ### Shapes -/

/-- Where a list is parted by a property, the parts can be told from the whole. -/
theorem append_inj_of_parted {α : Type} {P : α → Prop} {before after before' after' : List α}
    (hbefore : ∀ a ∈ before, P a) (hafter : ∀ a ∈ after, ¬ P a) (hbefore' : ∀ a ∈ before', P a)
    (hafter' : ∀ a ∈ after', ¬ P a) (h : before ++ after = before' ++ after') :
    before = before' ∧ after = after' := by
  have hnil : ∀ between : List α, (∀ a ∈ between, P a) → (∀ a ∈ between, ¬ P a) → between = [] :=
    fun between hyes hno =>
      List.eq_nil_iff_forall_not_mem.mpr fun a ha => hno a ha (hyes a ha)
  rcases List.append_eq_append_iff.mp h with ⟨between, rfl, rfl⟩ | ⟨between, rfl, rfl⟩
  · obtain rfl := hnil between (fun a ha => hbefore' a (List.mem_append_right _ ha))
      fun a ha => hafter a (List.mem_append_left _ ha)
    simp
  · obtain rfl := hnil between (fun a ha => hbefore a (List.mem_append_right _ ha))
      fun a ha => hafter' a (List.mem_append_left _ ha)
    simp

theorem mem_roots_of_mem_below {tree : RootTree} {spot : Spot} {continued : Bool}
    (h : spot ∈ tree.outline.map (Spot.below continued)) : spot.root ∈ tree.roots := by
  obtain ⟨inner, hinner, rfl⟩ := List.mem_map.mp h
  exact @mem_roots_of_mem_outline tree inner hinner

theorem outline_eq_of_map_below {tree tree' : RootTree} {continued continued' : Bool}
    (h : tree.outline.map (Spot.below continued) = tree'.outline.map (Spot.below continued')) :
    tree.outline = tree'.outline := by
  let inner : Spot → Spot := fun spot => { spot with continued := spot.continued.tail }
  have hinner : ∀ continued, inner ∘ Spot.below continued = id := fun _ => rfl
  have hmap := congrArg (List.map inner) h
  rwa [List.map_map, List.map_map, hinner, hinner, List.map_id, List.map_id] at hmap

/-- Balanced search trees with the same nodes in preorder differ in derivations only. -/
theorem bare_eq_of_outline_eq {tree tree' : RootTree} (hordered : tree.Ordered)
    (hbalanced : tree.Balanced) (hordered' : tree'.Ordered) (hbalanced' : tree'.Balanced)
    (houtline : tree.outline = tree'.outline) : tree.bare = tree'.bare := by
  induction tree generalizing tree' with
  | leaf =>
      cases tree' with
      | leaf => rfl
      | node => cases houtline
  | node left entry height right ihLeft ihRight =>
      cases tree' with
      | leaf => cases houtline
      | node left' entry' height' right' =>
          rw [outline, outline, List.cons.injEq, Spot.mk.injEq] at houtline
          obtain ⟨⟨-, hroot, hheight⟩, houtline⟩ := houtline
          obtain ⟨hleft, hright, habove, hbelow⟩ := ordered_node_iff.mp hordered
          obtain ⟨hleft', hright', habove', hbelow'⟩ := ordered_node_iff.mp hordered'
          obtain rfl : height = height' :=
            hbalanced.height_eq.trans (hheight.trans hbalanced'.height_eq.symm)
          rw [← hroot] at habove' hbelow'
          -- The order of the roots, not the indents, tells a left child from a right one.
          obtain ⟨hleftBelow, hrightBelow⟩ := append_inj_of_parted
            (fun spot h => habove _ (mem_roots_of_mem_below h))
            (fun spot h => Root.not_lt_of_lt (hbelow _ (mem_roots_of_mem_below h)))
            (fun spot h => habove' _ (mem_roots_of_mem_below h))
            (fun spot h => Root.not_lt_of_lt (hbelow' _ (mem_roots_of_mem_below h))) houtline
          rw [bare_node, bare_node, hroot,
            ihLeft hleft hbalanced.1 hleft' hbalanced'.1 (outline_eq_of_map_below hleftBelow),
            ihRight hright hbalanced.2.1 hright' hbalanced'.2.1
              (outline_eq_of_map_below hrightBelow)]

theorem draw_ne_draw_leaf {tree : RootTree} (hnode : tree ≠ leaf) (hbalanced : tree.Balanced)
    (hroots : ∀ root ∈ tree.roots, '\n' ∉ root.letters) : tree.draw ≠ leaf.draw := by
  intro hdraw
  have hlines := splitLines_draw hnode hbalanced hroots
  have hleaf : splitLines leaf.draw.toList = ["Empty tree".toList] ++ [[]] := by decide
  rw [hdraw, hleaf, List.append_left_inj] at hlines
  obtain ⟨spot, -, hspot⟩ := List.map_eq_singleton_iff.mp hlines.symm
  have hlast := congrArg List.getLast? hspot
  rw [Spot.toList_line, List.getLast?_concat] at hlast
  exact absurd hlast (by decide)

theorem bare_eq_of_draw_eq {tree tree' : RootTree} (hordered : tree.Ordered)
    (hbalanced : tree.Balanced) (hroots : ∀ root ∈ tree.roots, '\n' ∉ root.letters)
    (hordered' : tree'.Ordered) (hbalanced' : tree'.Balanced)
    (hroots' : ∀ root ∈ tree'.roots, '\n' ∉ root.letters) (hdraw : tree.draw = tree'.draw) :
    tree.bare = tree'.bare := by
  by_cases hleaf : tree = leaf
  · by_cases hleaf' : tree' = leaf
    · rw [hleaf, hleaf']
    · exact absurd (hleaf ▸ hdraw.symm) (draw_ne_draw_leaf hleaf' hbalanced' hroots')
  · by_cases hleaf' : tree' = leaf
    · exact absurd (hleaf' ▸ hdraw) (draw_ne_draw_leaf hleaf hbalanced hroots)
    · have hlines := congrArg (fun text : String => splitLines text.toList) hdraw
      rw [splitLines_draw hleaf hbalanced hroots, splitLines_draw hleaf' hbalanced' hroots',
        List.append_left_inj] at hlines
      have hinjective : Function.Injective fun spot : Spot => spot.line.toList :=
        fun spot other h => Spot.line_injective (String.toList_injective h)
      exact bare_eq_of_outline_eq hordered hbalanced hordered' hbalanced'
        (hinjective.list_map hlines)

end RootTree

/-! ### Drawings of arenas -/

namespace Arena

open RootTree

theorem Holds.linesAt_eq {cells : List Cell} {top : Option Nat} {tree : RootTree}
    {places : List Nat} (h : Holds cells top tree places) {depth : Nat}
    (hdepth : tree.trueHeight ≤ depth) : linesAt cells depth top = tree.lines := by
  induction h generalizing depth with
  | leaf => cases depth <;> rfl
  | @node _ cell _ _ _ _ hcell hleft hright ihLeft ihRight =>
      rw [trueHeight] at hdepth
      obtain ⟨depth, rfl⟩ : ∃ rest, depth = rest + 1 := ⟨depth - 1, by omega⟩
      have hrightLines := @ihRight depth (by omega)
      simp only [linesAt, hcell, @ihLeft depth (by omega)]
      generalize cell.right = below at hright hrightLines
      cases hright with
      | leaf => rfl
      | node => exact congrArg _ (congrArg₂ _ rfl (congrArg hangLast hrightLines))

theorem Represents.draw_eq {arena : Arena} {tree : RootTree} (h : arena.Represents tree) :
    arena.draw = tree.draw := by
  have hdepth := h.trueHeight_le
  obtain ⟨places, hholds, -⟩ := h
  have hlines := hholds.linesAt_eq hdepth
  rw [draw]
  generalize arena.top = top at hholds hlines
  cases hholds with
  | leaf => rfl
  | node => exact congrArg (fun lines => String.join (lines.map (· ++ "\n"))) hlines

end Arena

namespace RootTree

/-- The drawing of a tree determines its shape. After any edits the drawing of the arena is that of
the tree. Where something is stored and no root has a line feed in it, there is one line for each
root: the nodes come in preorder, each with its true height and indented by four columns for each
step down to it. And where two such drawings are the same, the trees have the same root, height and
children at every position, whatever the roots look like, although the side of a lone child is not
drawn. -/
theorem draw_determines_shape :
    (∀ edits : List Edit,
      let tree := leaf.applyAll edits
      let arena := Arena.empty.applyAll edits
      (arena.Represents tree ∧ arena.draw = tree.draw) ∧
      (tree ≠ leaf → (∀ root ∈ tree.roots, '\n' ∉ root.letters) →
        splitLines arena.draw.toList = (tree.outline.map fun spot => spot.line.toList) ++ [[]] ∧
        tree.outline.length = arena.cells.length ∧
        ∀ spot ∈ tree.outline, (indent spot.continued).length = 4 * spot.depth)) ∧
    ∀ edits edits' : List Edit,
      let tree := leaf.applyAll edits
      let tree' := leaf.applyAll edits'
      (∀ root ∈ tree.roots, '\n' ∉ root.letters) → (∀ root ∈ tree'.roots, '\n' ∉ root.letters) →
      (Arena.empty.applyAll edits).draw = (Arena.empty.applyAll edits').draw →
      tree.bare = tree'.bare := by
  have harena : ∀ edits, (Arena.empty.applyAll edits).Represents (leaf.applyAll edits) :=
    Arena.represents_empty.applyAll ordered_leaf
  constructor
  · intro edits tree arena
    have hdraw := (harena edits).draw_eq
    refine ⟨⟨harena edits, hdraw⟩, fun hnode hroots => ⟨?_, ?_, fun spot _ => ?_⟩⟩
    · rw [hdraw]
      exact splitLines_draw hnode (balanced_leaf.applyAll edits) hroots
    · rw [length_outline, (harena edits).length_cells]
    · rw [← String.length_toList, length_indent, Spot.depth]
  · intro edits edits' tree tree' hroots hroots' hdraw
    rw [(harena edits).draw_eq, (harena edits').draw_eq] at hdraw
    exact bare_eq_of_draw_eq (ordered_leaf.applyAll edits) (balanced_leaf.applyAll edits) hroots
      (ordered_leaf.applyAll edits') (balanced_leaf.applyAll edits') hroots' hdraw

/-- Roots that look like labels and like the characters that join them. -/
def disguised : List Root :=
  [⟨'│', ')', '1'⟩, ⟨'(', 'h', '='⟩, ⟨'├', ' ', ' '⟩, ⟨' ', ' ', '│'⟩, ⟨'├', '─', '─'⟩]

/-- One lone child is on the left side and one on the right. In the other order the first three
roots take a double rotation. -/
theorem draw_determines_shape_disguised :
    let edits := disguised.map Edit.insert
    let edits' := ((disguised.take 3).reverse ++ (disguised.drop 3).reverse).map Edit.insert ++
      [.record ⟨'│', ')', '1'⟩ ⟨"", "", Instant.ofEpoch 0⟩]
    let tree := leaf.applyAll edits
    let drawing :=
      "│)1 (h=3)\n├── (h= (h=2)\n│   └──   │ (h=1)\n└── ├   (h=2)\n    └── ├── (h=1)\n"
    tree ≠ leaf ∧ (∀ root ∈ tree.roots, '\n' ∉ root.letters) ∧
      (Arena.empty.applyAll edits).draw = drawing ∧
      (Arena.empty.applyAll edits').draw = drawing ∧
      splitLines drawing.toList = (tree.outline.map fun spot => spot.line.toList) ++ [[]] ∧
      tree.bare = (leaf.applyAll edits').bare := by
  intro edits edits' tree drawing
  have hnode : tree ≠ leaf := by decide
  have hroots : ∀ root ∈ tree.roots, '\n' ∉ root.letters := by decide
  have hroots' : ∀ root ∈ (leaf.applyAll edits').roots, '\n' ∉ root.letters := by decide
  have hdraw : (Arena.empty.applyAll edits).draw = drawing := by decide +kernel
  have hdraw' : (Arena.empty.applyAll edits').draw = drawing := by decide +kernel
  obtain ⟨hlines, -, -⟩ := (draw_determines_shape.1 edits).2 hnode hroots
  have hshape := draw_determines_shape.2 edits edits' hroots hroots' (hdraw.trans hdraw'.symm)
  rw [hdraw] at hlines
  exact ⟨hnode, hroots, hdraw, hdraw', hlines, hshape⟩

end RootTree

end Triliteral
