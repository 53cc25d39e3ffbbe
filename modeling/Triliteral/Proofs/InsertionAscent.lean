import Triliteral.Proofs.LogarithmicHeight
import Triliteral.Proofs.NodeReliefs

/-!
The way back up of an insertion. Every node on the path of the new root is visited, the lowest
first. Once a node had to be relieved, no node further up changes its height, so that at most one
has to be.
-/

namespace Triliteral

namespace Arena

open RootTree

variable {cells : List Cell} {top : Option Nat} {tree near far : RootTree} {places : List Nat}
  {place i new depth : Nat} {side : Side} {root : Root}

/-- The visit of a node after an insertion on a side of it, its height up to date. -/
def visitAfter (place : Nat) (side : Side) (grown : Nat × List Cell) : Visit where
  place := place
  cells := updateHeight place (setChild place side (some grown.1) grown.2)

/-- The visits of an insertion on its way back up, the lowest first. -/
def ascent (new : Nat) : Nat → Option Nat → List Cell → List Visit
  | depth + 1, some place, cells =>
    match sideAt? cells new place with
    | none => []
    | some side =>
      ascent new depth (childAt cells place side) cells ++
        [visitAfter place side (insertAt new depth (childAt cells place side) cells)]
  | _, _, _ => []

/-! ### One step up -/

theorem Route.holds (h : Route new root cells depth top tree places) :
    Holds cells top tree places := by
  induction h with
  | leaf => exact .leaf
  | node hcell hturn hside hnear hfar hnodup ih =>
      exact holds_toward_iff.mpr ⟨_, _, _, _, rfl, hcell, rfl, rfl, ih, hfar, rfl⟩

section Node

variable {cell : Cell}

theorem ascent_node (hcell : cells[place]? = some cell)
    (hside : sideAt? cells new place = some side) (depth : Nat) :
    ascent new (depth + 1) (some place) cells =
      ascent new depth (cell.child side) cells ++
        [visitAfter place side (insertAt new depth (cell.child side) cells)] := by
  rw [ascent, hside]
  dsimp only
  rw [childAt_eq hcell]

theorem insertAt_node (hcell : cells[place]? = some cell)
    (hside : sideAt? cells new place = some side) (depth : Nat) :
    insertAt new (depth + 1) (some place) cells =
      (visitAfter place side (insertAt new depth (cell.child side) cells)).result new := by
  rw [insertAt, hside]
  dsimp only
  rw [childAt_eq hcell]
  rfl

theorem pathAt_node (hcell : cells[place]? = some cell)
    (hturn : root.side? cell.entry.root = some side) (steps : Nat) :
    pathAt cells root.text (steps + 1) (some place) =
      place :: pathAt cells root.text steps (cell.child side) := by
  rw [pathAt, hcell]
  dsimp only
  simp only [Root.text_lt_text_iff]
  cases side with
  | left => rw [if_pos (Root.side?_eq_left_iff.mp hturn)]; rfl
  | right =>
      have hgt := Root.side?_eq_right_iff.mp hturn
      rw [if_neg (Root.not_lt_of_lt hgt), if_pos hgt]
      rfl

theorem heightAt_congr {cells' : List Cell} (h : cells'[i]? = cells[i]?) :
    heightAt cells' (some i) = heightAt cells (some i) := by
  rw [heightAt, heightAt, Option.bind_some, Option.bind_some, h]

theorem heightAt_visitAfter_of_ne (h : i ≠ place) (side : Side) (grown : Nat × List Cell) :
    heightAt (visitAfter place side grown).cells (some i) = heightAt grown.2 (some i) :=
  heightAt_congr
    ((List.getElem?_modify_ne _ _ h.symm).trans (List.getElem?_modify_ne _ _ h.symm))

theorem finds_visitAfter {nearPlaces farPlaces : List Nat}
    (hnew : cells[new]? = some (.ofRoot root)) (hcell : cells[place]? = some cell)
    (hturn : root.side? cell.entry.root = some side)
    (hnear : Route new root cells depth (cell.child side) near nearPlaces)
    (hfar : Holds cells (cell.child side.other) far farPlaces)
    (hnodup : (new :: side.arrange nearPlaces place farPlaces).Nodup)
    (hlacks : (toward side near cell.entry cell.height far).Lacks root) :
    ∃ places, (visitAfter place side (insertAt new depth (cell.child side) cells)).Finds new root
      cells side near cell.entry cell.height far (side.arrange nearPlaces place farPlaces)
      places := by
  obtain ⟨nearPlaces', hperm, hgrown⟩ := hnear.relinked hnew
  have hpermAll := Side.arrange_perm_cons side place farPlaces hperm
  have hnodup' := hpermAll.nodup_iff.mpr hnodup
  have hattached := hgrown.attach hcell hfar hnodup'
  refine ⟨_, ?_, hlacks, hturn, hattached.holds, hnodup', ?_, hpermAll.mem_iff.mpr
    List.mem_cons_self⟩
  · exact holds_toward_iff.mpr ⟨place, cell, _, _, rfl, hcell, rfl, rfl, hnear.holds, hfar, rfl⟩
  · exact hattached.entries ▸ map_entry_getElem? hnew

end Node

/-! ### The way back up -/

namespace Route

theorem insertAt_eq_getLast? (h : Route new root cells depth top tree places) :
    insertAt new depth top cells =
      ((ascent new depth top cells).getLast?.map (Visit.result new)).getD (new, cells) := by
  cases h with
  | leaf => cases depth <;> rfl
  | node hcell hturn hside hnear hfar hnodup =>
      rw [insertAt_node hcell hside, ascent_node hcell hside, List.getLast?_append]
      rfl

theorem map_place_ascent (h : Route new root cells depth top tree places) :
    (ascent new depth top cells).map Visit.place =
      (pathAt cells root.text depth top).reverse := by
  induction h with
  | leaf depth => cases depth <;> rfl
  | node hcell hturn hside hnear hfar hnodup ih =>
      rw [ascent_node hcell hside, pathAt_node hcell hturn, List.map_append, ih, List.reverse_cons]
      rfl

theorem place_mem (h : Route new root cells depth top tree places) {visit : Visit}
    (hvisit : visit ∈ ascent new depth top cells) : visit.place ∈ places := by
  induction h with
  | leaf depth => cases depth <;> cases hvisit
  | node hcell hturn hside hnear hfar hnodup ih =>
      rw [ascent_node hcell hside, List.mem_append, List.mem_singleton] at hvisit
      rcases hvisit with hvisit | rfl
      · exact Side.mem_arrange.mpr (.inr (.inl (ih hvisit)))
      · exact Side.mem_arrange.mpr (.inl rfl)

theorem exists_finds (h : Route new root cells depth top tree places)
    (hnew : cells[new]? = some (.ofRoot root)) (hlacks : tree.Lacks root) {visit : Visit}
    (hvisit : visit ∈ ascent new depth top cells) :
    ∃ side near entry height far placesBefore places,
      visit.Finds new root cells side near entry height far placesBefore places ∧
        (visit.IsHigh → (grow root tree).trueHeight = tree.trueHeight) := by
  induction h with
  | leaf depth => cases depth <;> cases hvisit
  | node hcell hturn hside hnear hfar hnodup ih =>
      obtain ⟨placesAfter, hfinds⟩ :=
        finds_visitAfter hnew hcell hturn hnear hfar hnodup hlacks
      rw [ascent_node hcell hside, List.mem_append, List.mem_singleton] at hvisit
      rcases hvisit with hvisit | rfl
      · obtain ⟨side, near, entry, height, far, before, after, hbelow, hsame⟩ :=
          ih hlacks.of_toward hvisit
        exact ⟨side, near, entry, height, far, before, after, hbelow,
          fun hhigh => (hfinds.trueHeight_of_eq (hsame hhigh)).2⟩
      · exact ⟨_, _, _, _, _, _, _, hfinds, hfinds.trueHeight_of_isHigh⟩

/-- Every node is visited when its child on a side was exchanged for what the visit below gave. -/
theorem visit_eq (h : Route new root cells depth top tree places) {below above : List Visit}
    {visit : Visit} (hsplit : ascent new depth top cells = below ++ visit :: above) :
    ∃ side, sideAt? cells new visit.place = some side ∧
      visit = visitAfter visit.place side
        ((below.getLast?.map (Visit.result new)).getD (new, cells)) := by
  induction h generalizing above with
  | leaf depth => cases depth <;> simp [ascent] at hsplit
  | node hcell hturn hside hnear hfar hnodup ih =>
      rw [ascent_node hcell hside] at hsplit
      rcases List.eq_nil_or_concat above with rfl | ⟨rest, top, rfl⟩
      · obtain ⟨rfl, hlast⟩ := List.append_inj' hsplit rfl
        obtain rfl := List.singleton_inj.mp hlast
        rw [← hnear.insertAt_eq_getLast?]
        exact ⟨_, hside, rfl⟩
      · rw [List.concat_eq_append, ← List.cons_append, ← List.append_assoc] at hsplit
        exact ih (List.append_inj' hsplit rfl).1

/-- Above a node that is too high no node is, and each keeps its height. -/
theorem pairwise_ascent (h : Route new root cells depth top tree places)
    (hnew : cells[new]? = some (.ofRoot root)) (hlacks : tree.Lacks root) :
    (ascent new depth top cells).Pairwise fun below above =>
      below.IsHigh → ¬ above.IsHigh ∧
        heightAt (insertAt new depth top cells).2 (some above.place) =
          heightAt cells (some above.place) := by
  induction h with
  | leaf depth => cases depth <;> exact .nil
  | @node depth place cell side near far nearPlaces farPlaces hcell hturn hside hnear hfar hnodup
      ih =>
      obtain ⟨placesAfter, hfinds⟩ :=
        finds_visitAfter hnew hcell hturn hnear hfar hnodup hlacks
      have hsame : ∀ below ∈ ascent new depth (cell.child side) cells, below.IsHigh →
          (grow root near).trueHeight = near.trueHeight := by
        intro below hbelow hhigh
        obtain ⟨_, _, _, _, _, _, _, -, hsame⟩ := hnear.exists_finds hnew hlacks.of_toward hbelow
        exact hsame hhigh
      rw [ascent_node hcell hside, insertAt_node hcell hside]
      refine List.pairwise_append.mpr ⟨?_, List.pairwise_singleton .., ?_⟩
      · refine (ih hlacks.of_toward).imp_of_mem fun {below above} hbelow habove hkept hhigh => ?_
        obtain ⟨hlevel, hheight⟩ := hkept hhigh
        have hne : above.place ≠ place := by
          intro heq
          obtain ⟨hplace, -⟩ := Side.nodup_arrange.mp (List.nodup_cons.mp hnodup).2
          exact hplace (heq ▸ hnear.place_mem habove)
        refine ⟨hlevel, ?_⟩
        rw [Visit.result_of_not_isHigh (hfinds.trueHeight_of_eq (hsame below hbelow hhigh)).1,
          heightAt_visitAfter_of_ne hne, hheight]
      · intro below hbelow above habove hhigh
        obtain rfl := List.mem_singleton.mp habove
        obtain ⟨hlevel, hheight⟩ := hfinds.trueHeight_of_eq (hsame below hbelow hhigh)
        have hkept := (hfinds.hasHeight_result hheight).heightAt_eq
        rw [Visit.result_of_not_isHigh hlevel] at hkept ⊢
        exact ⟨hlevel, hkept⟩

/-- A node that is too high is the only one. Its relief gives it back the height that it had, and
every node above it keeps its own. -/
theorem relieved_once (h : Route new root cells depth top tree places)
    (hnew : cells[new]? = some (.ofRoot root)) (hlacks : tree.Lacks root)
    {below above : List Visit} {visit : Visit}
    (hsplit : ascent new depth top cells = below ++ visit :: above) (hhigh : visit.IsHigh) :
    (∀ other ∈ below ++ above, ¬ other.IsHigh) ∧
      HasHeight (visit.result new).2 (some (visit.result new).1)
        (heightAt cells (some visit.place)) ∧
      ∀ other ∈ above, HasHeight (insertAt new depth top cells).2 (some other.place)
        (heightAt cells (some other.place)) := by
  have hvisit : visit ∈ ascent new depth top cells :=
    hsplit ▸ List.mem_append_right _ List.mem_cons_self
  obtain ⟨places', hperm, hlinked⟩ := h.relinked hnew
  obtain ⟨_, _, _, _, _, _, _, hfinds, -⟩ := h.exists_finds hnew hlacks hvisit
  have hpairs := h.pairwise_ascent hnew hlacks
  rw [hsplit, List.pairwise_append, List.pairwise_cons] at hpairs
  obtain ⟨-, ⟨habove, -⟩, hbelow⟩ := hpairs
  refine ⟨fun other hother => ?_, hfinds.hasHeight_result (hfinds.trueHeight_of_isHigh hhigh),
    fun other hother => ?_⟩
  · rcases List.mem_append.mp hother with hother | hother
    · intro hotherHigh
      exact (hbelow other hother visit List.mem_cons_self hotherHigh).1 hhigh
    · exact (habove other hother hhigh).1
  · have hother' : other ∈ ascent new depth top cells :=
      hsplit ▸ List.mem_append_right _ (List.mem_cons_of_mem _ hother)
    have hmem : other.place ∈ places' :=
      hperm.mem_iff.mpr (List.mem_cons_of_mem _ (h.place_mem hother'))
    rw [← (habove other hother hhigh).2]
    exact hlinked.holds.hasHeight_of_mem (grown_grow root hlacks.balanced).balanced hmem

end Route

theorem Holds.pathAt_frame {cells' : List Cell} (h : Holds cells top tree places)
    (hsame : ∀ i ∈ places, cells'[i]? = cells[i]?) (text : String) (steps : Nat) :
    pathAt cells' text steps top = pathAt cells text steps top := by
  induction h generalizing steps with
  | leaf => cases steps <;> rfl
  | @node place cell left right before after hcell hleft hright ihLeft ihRight =>
      cases steps with
      | zero => rfl
      | succ steps =>
          have hcell' := (hsame place (by simp)).trans hcell
          rw [pathAt, pathAt, hcell, hcell']
          dsimp only
          rw [ihLeft (fun i hi => hsame i (by simp [hi])) steps,
            ihRight (fun i hi => hsame i (by simp [hi])) steps]

/-- An insertion of a new root needs relief at one node at most. After any insertions and records
the nodes on the path of the new root are visited from the lowest to the top, each when its child
has been exchanged for what rebalancing the node below gave, and what rebalancing the last one gives
is the arena after the insertion. At every visit the sides differ in height by two levels at most.
If they do so by two, then the child and the grandchild that a relief needs are there, the new cell
is in the higher tree of the child, and the node is relieved; just those nodes that need no relief
are left as they are. After a relief the tree is as high as it was before the insertion, so that no
node above it needs any and each of them keeps its height. -/
theorem insertion_relieves_once (edits : List Edit) (root : Root)
    (habsent : (empty.applyAll edits).place? root.text = none) :
    let arena := empty.applyAll edits
    let new := arena.cells.length
    let linked := arena.cells ++ [.ofRoot root]
    let visits := ascent new new arena.top linked
    let resultOf (below : List Visit) :=
      (below.getLast?.map (Visit.result new)).getD (new, linked)
    arena.insert root = (.added, ⟨(resultOf visits).2, some (resultOf visits).1⟩) ∧
      visits.map Visit.place = (pathAt arena.cells root.text new arena.top).reverse ∧
      (∀ below visit above, visits = below ++ visit :: above →
        (∃ side, sideAt? linked new visit.place = some side ∧
          visit = visitAfter visit.place side (resultOf below)) ∧
        (∀ side, -2 ≤ visit.excess side ∧ visit.excess side ≤ 2) ∧
        (∀ side, visit.excess side = 2 →
          ∃ turn child grandchild, Relief new visit side turn child grandchild) ∧
        (visit.result new = (visit.place, visit.cells) ↔ ∀ side, visit.excess side ≤ 1)) ∧
      ∀ below visit above, visits = below ++ visit :: above → visit.IsHigh →
        (∀ other ∈ below ++ above, ¬ other.IsHigh) ∧
        (∃ height, HasHeight arena.cells (some visit.place) height ∧
          HasHeight (visit.result new).2 (some (visit.result new).1) height) ∧
        ∀ other ∈ above, ∃ height, HasHeight arena.cells (some other.place) height ∧
          HasHeight (arena.insert root).2.cells (some other.place) height := by
  intro arena new linked visits resultOf
  have hordered : (leaf.applyAll edits).Ordered := ordered_leaf.applyAll edits
  have hbalanced : (leaf.applyAll edits).Balanced := balanced_leaf.applyAll edits
  have harena : arena.Represents (leaf.applyAll edits) :=
    represents_empty.applyAll ordered_leaf edits
  have hroot := (harena.place?_text_eq_none_iff hordered).mp habsent
  have hlacks : (leaf.applyAll edits).Lacks root := ⟨hbalanced, hordered, hroot⟩
  have hnew : linked[new]? = some (.ofRoot root) := getElem?_append_ofRoot arena.cells root
  obtain ⟨places, hholds, hperm, hroute⟩ := harena.route hroot
  have hkept : ∀ i ∈ places, linked[i]? = arena.cells[i]? := fun i hi =>
    List.getElem?_append_left (List.mem_range.mp (hperm.mem_iff.mp hi))
  have hlast : insertAt new new arena.top linked = resultOf visits :=
    hroute.insertAt_eq_getLast?
  have hinsert : arena.insert root =
      (.added, ⟨(resultOf visits).2, some (resultOf visits).1⟩) := by
    rw [Arena.insert, habsent, ← hlast]
  refine ⟨hinsert, ?_, ?_, ?_⟩
  · rw [hroute.map_place_ascent, hholds.pathAt_frame hkept]
  · intro below visit above hsplit
    have hvisit : visit ∈ visits := hsplit ▸ List.mem_append_right _ List.mem_cons_self
    obtain ⟨side, near, entry, height, far, before, after, hfinds, -⟩ :=
      hroute.exists_finds hnew hlacks hvisit
    exact ⟨hroute.visit_eq hsplit, hfinds.excess_bounds, hfinds.exists_relief,
      hfinds.result_eq_iff⟩
  · intro below visit above hsplit hhigh
    obtain ⟨halone, hrelieved, hsame⟩ := hroute.relieved_once hnew hlacks hsplit hhigh
    have hstood : ∀ other ∈ visits,
        HasHeight arena.cells (some other.place) (heightAt linked (some other.place)) := by
      intro other hother
      have hmem := hroute.place_mem hother
      rw [heightAt_congr (hkept _ hmem)]
      exact hholds.hasHeight_of_mem hbalanced hmem
    have hvisit : visit ∈ visits := hsplit ▸ List.mem_append_right _ List.mem_cons_self
    refine ⟨halone, ⟨_, hstood visit hvisit, hrelieved⟩, fun other hother => ?_⟩
    have hother' : other ∈ visits :=
      hsplit ▸ List.mem_append_right _ (List.mem_cons_of_mem _ hother)
    rw [hinsert, ← hlast]
    exact ⟨_, hstood other hother', hsame other hother⟩

/-- Four roots such that a fifth one needs a double rotation below the top. -/
def leaning : List Edit :=
  ['ح', 'ث', 'د', 'ب'].map fun first => .insert ⟨first, 'ر', 'س'⟩

theorem insertion_relieves_once_leaning :
    let arena := empty.applyAll leaning
    let root : Root := ⟨'ت', 'ر', 'س'⟩
    arena.place? root.text = none ∧
      ∃ lowest middle highest,
        ascent 4 4 arena.top (arena.cells ++ [.ofRoot root]) = [lowest, middle, highest] ∧
        middle.excess .left = 2 ∧ highest.excess .left = 1 ∧
        (∃ turn child grandchild, Relief 4 middle .left turn child grandchild) ∧
        ¬ lowest.IsHigh ∧ ¬ highest.IsHigh ∧
        ∃ height, HasHeight arena.cells (some highest.place) height ∧
          HasHeight (arena.insert root).2.cells (some highest.place) height := by
  intro arena root
  have habsent : arena.place? root.text = none := by decide
  obtain ⟨-, -, hvisits, honce⟩ := insertion_relieves_once leaning root habsent
  have hexcess : (ascent 4 4 arena.top (arena.cells ++ [.ofRoot root])).map
      (fun visit => visit.excess .left) = [-1, 2, 1] := by
    decide
  obtain ⟨lowest, middle, highest, hsplit⟩ :=
    List.length_eq_three.mp ((List.length_map _).symm.trans (congrArg List.length hexcess))
  rw [hsplit] at hexcess
  simp only [List.map_cons, List.map_nil, List.cons.injEq, and_true] at hexcess
  obtain ⟨-, hmiddle, hhighest⟩ := hexcess
  obtain ⟨-, -, hrelief, -⟩ := hvisits [lowest] middle [highest] hsplit
  obtain ⟨halone, -, hkept⟩ :=
    honce [lowest] middle [highest] hsplit ⟨.left, by rw [hmiddle]; decide⟩
  exact ⟨habsent, lowest, middle, highest, hsplit, hmiddle, hhighest, hrelief .left hmiddle,
    halone lowest (by simp), halone highest (by simp), hkept highest (by simp)⟩

end Arena

end Triliteral
