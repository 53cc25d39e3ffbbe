import Triliteral.Engine.Restore
import Triliteral.Proofs.EngineViews
import Triliteral.Proofs.RootRestoration

/-!
Engines without what was recorded. Histories stand in the nodes of the tree and usage counters in
the schemes; taking all of them away commutes with every operation that does not ask for them.
-/

namespace Triliteral

namespace RootTree

def bare : RootTree → RootTree
  | leaf => leaf
  | node left entry height right => node left.bare ⟨entry.root, []⟩ height right.bare

def Node.bare (node : Node) : Node :=
  ⟨⟨node.entry.root, []⟩, node.height⟩

@[simp] theorem bare_leaf : leaf.bare = leaf := rfl

@[simp] theorem bare_node (left right : RootTree) (entry : RootEntry) (height : Nat) :
    (node left entry height right).bare = node left.bare ⟨entry.root, []⟩ height right.bare :=
  rfl

@[simp] theorem height_bare (tree : RootTree) : tree.bare.height = tree.height := by
  cases tree <;> rfl

@[simp] theorem balance_bare (tree : RootTree) : tree.bare.balance = tree.balance := by
  cases tree <;> simp [balance]

theorem entries_bare (tree : RootTree) :
    tree.bare.entries = tree.entries.map fun entry => ⟨entry.root, []⟩ := by
  induction tree with
  | leaf => rfl
  | node left entry height right ihLeft ihRight => simp [ihLeft, ihRight]

@[simp] theorem roots_bare (tree : RootTree) : tree.bare.roots = tree.roots := by
  rw [roots_eq_map_entries, entries_bare, List.map_map]
  rfl

/-! ### Looking up -/

theorem find?_bare (tree : RootTree) (root : Root) :
    tree.bare.find? root = (tree.find? root).map Node.bare := by
  induction tree with
  | leaf => rfl
  | node left entry height right ihLeft ihRight =>
      simp only [bare_node, find?, ihLeft, ihRight]
      split
      · rfl
      · split <;> rfl

@[simp] theorem contains_bare (tree : RootTree) (root : Root) :
    tree.bare.contains root = tree.contains root := by
  rw [contains, find?_bare, Option.isSome_map, contains]

theorem findText?_bare (tree : RootTree) (text : String) :
    tree.bare.findText? text = (tree.findText? text).map Node.bare := by
  rw [findText?_eq, findText?_eq]
  cases Root.ofText? text with
  | none => rfl
  | some root => exact find?_bare tree root

/-! ### Insertion -/

@[simp] theorem bare_join (left right : RootTree) (entry : RootEntry) :
    (join left entry right).bare = join left.bare ⟨entry.root, []⟩ right.bare := by
  simp [join]

@[simp] theorem bare_rotateRight (tree : RootTree) :
    tree.rotateRight.bare = tree.bare.rotateRight := by
  cases tree with
  | leaf => rfl
  | node left entry height right => cases left <;> simp [rotateRight]

@[simp] theorem bare_rotateLeft (tree : RootTree) :
    tree.rotateLeft.bare = tree.bare.rotateLeft := by
  cases tree with
  | leaf => rfl
  | node left entry height right => cases right <;> simp [rotateLeft]

theorem bare_rebalance (root : Root) (tree : RootTree) :
    (rebalance root tree).bare = rebalance root tree.bare := by
  cases tree with
  | leaf => rfl
  | node left entry height right =>
      have hbalance := balance_bare (node left entry height right)
      rw [bare_node] at hbalance
      simp only [rebalance, bare_node, hbalance]
      split
      · cases left with
        | leaf => rfl
        | node =>
            dsimp only [bare_node]
            split_ifs <;> simp
      · split
        · cases right with
          | leaf => rfl
          | node =>
              dsimp only [bare_node]
              split_ifs <;> simp
        · rfl

theorem bare_grow (root : Root) (tree : RootTree) :
    (grow root tree).bare = grow root tree.bare := by
  induction tree with
  | leaf => rfl
  | node left entry height right ihLeft ihRight =>
      simp only [grow, bare_node]
      split
      · rw [bare_rebalance, bare_join, ihLeft]
      · split
        · rw [bare_rebalance, bare_join, ihRight]
        · rfl

theorem insert_bare (tree : RootTree) (root : Root) :
    tree.bare.insert root = ((tree.insert root).1, (tree.insert root).2.bare) := by
  rw [insert, insert, contains_bare]
  split
  · rfl
  · rw [bare_grow]

/-! ### Recording -/

@[simp] theorem bare_record (root : Root) (derivation : Derivation) (tree : RootTree) :
    (record root derivation tree).bare = tree.bare := by
  induction tree with
  | leaf => rfl
  | node left entry height right ihLeft ihRight =>
      simp only [record]
      split
      · simp [ihLeft]
      · split
        · simp [ihRight]
        · rfl

@[simp] theorem bare_recordAll (root : Root) (derivations : List Derivation) (tree : RootTree) :
    (recordAll root derivations tree).bare = tree.bare := by
  induction derivations generalizing tree with
  | nil => rfl
  | cons derivation derivations ih => exact (ih _).trans (bare_record root derivation tree)

end RootTree

namespace Scheme

def bare (scheme : Scheme) : Scheme :=
  { scheme with usage := 0 }

@[simp] theorem name_bare (scheme : Scheme) : scheme.bare.name = scheme.name := rfl

@[simp] theorem word_bare (scheme : Scheme) : scheme.bare.word = scheme.word := rfl

theorem map_bare_dynamic (p : Placeholders) (name : String) (category : Category) :
    (dynamic p name category).map bare = dynamic p name category := by
  rw [dynamic, compiled]
  split
  · rfl
  · cases Pattern.compile p name <;> rfl

theorem map_bare_explicit (name : String) (category : Category) (word : Root → String) :
    (explicit name category word).map bare = explicit name category word := by
  rw [explicit]
  split <;> rfl

end Scheme

namespace Registry

def bare (registry : Registry) : Registry :=
  ⟨registry.schemes.map Scheme.bare⟩

theorem find?_bare (registry : Registry) (name : String) :
    registry.bare.find? name = (registry.find? name).map Scheme.bare :=
  find?_map Scheme.name_bare registry name

theorem get_bare (registry : Registry) (name : String) :
    registry.bare.get name = (registry.get name).map Scheme.bare :=
  get_map Scheme.name_bare registry name

theorem add_bare (registry : Registry) (scheme : Scheme) :
    registry.bare.add scheme.bare = (registry.add scheme).map bare :=
  add_map Scheme.name_bare registry scheme

/-- What is done to counters cannot be told once they are set back. -/
@[simp] theorem bare_countUse (registry : Registry) (name : String) :
    (registry.countUse name).bare = registry.bare := by
  simp only [countUse, update, bare, List.map_map]
  congr 1
  refine List.map_congr_left fun scheme _ => ?_
  simp only [Function.comp_apply]
  split <;> rfl

theorem modify_bare (registry : Registry) (p : Placeholders) (name pattern : String) :
    registry.bare.modify p name pattern = (registry.modify p name pattern).map bare := by
  rw [modify, get_bare, modify]
  cases registry.get name with
  | error fault => rfl
  | ok scheme =>
      cases Pattern.compile p pattern with
      | error fault => rfl
      | ok compiled =>
          exact congrArg Except.ok (update_map Scheme.name_bare registry name fun _ => rfl)

@[simp] theorem producers_bare (registry : Registry) (root : Root) (word : String) :
    registry.bare.producers root word = registry.producers root word :=
  producers_map Scheme.name_bare Scheme.word_bare registry root word

end Registry

namespace Engine

/-- The engine without what was recorded: its histories are empty and its counters set back. -/
def bare (engine : Engine) : Engine where
  tree := engine.tree.bare
  registry := engine.registry.bare
  placeholders := engine.placeholders

/-! ### Operations without a record -/

theorem listRoots_bare (engine : Engine) : engine.bare.listRoots = engine.listRoots := by
  rw [listRoots, bare, RootTree.roots_bare, listRoots]

theorem analyze_bare (engine : Engine) (word : String) :
    engine.bare.analyze word = engine.analyze word := by
  rw [analyze, bare, RootTree.roots_bare, analyze]
  simp only [Registry.producers_bare]

theorem findRoot_bare (engine : Engine) (text : String) :
    engine.bare.findRoot text = (engine.findRoot text).map RootTree.Node.bare := by
  rw [findRoot, bare, RootTree.findText?_bare, findRoot]
  cases engine.tree.findText? text <;> rfl

theorem addRoot_bare (engine : Engine) (text : String) :
    engine.bare.addRoot text = (engine.addRoot text).map bare :=
  addRoot_view RootTree.insert_bare engine text

theorem loadRoots_bare (engine : Engine) (texts : List String) :
    engine.bare.loadRoots texts = (engine.loadRoots texts).map id bare :=
  loadRoots_view RootTree.insert_bare engine texts

theorem addScheme_bare (engine : Engine) (name : String) (category : Category) :
    engine.bare.addScheme name category = (engine.addScheme name category).map bare := by
  rw [addScheme, ← Scheme.map_bare_dynamic]
  exact (map_view_register Scheme.name_bare engine _).symm

theorem addExplicitScheme_bare (engine : Engine) (name : String) (category : Category)
    (word : Root → String) :
    engine.bare.addExplicitScheme name category word =
      (engine.addExplicitScheme name category word).map bare := by
  rw [addExplicitScheme, ← Scheme.map_bare_explicit]
  exact (map_view_register Scheme.name_bare engine _).symm

theorem modifyScheme_bare (engine : Engine) (name pattern : String) :
    engine.bare.modifyScheme name pattern = (engine.modifyScheme name pattern).map bare := by
  simp only [modifyScheme, bare, Registry.modify_bare]
  cases engine.registry.modify engine.placeholders name pattern <;> rfl

theorem removeScheme_bare (engine : Engine) (name : String) :
    engine.bare.removeScheme name = (engine.removeScheme name).map bare :=
  removeScheme_view Scheme.name_bare engine name

/-- The word that is generated does not depend on what was recorded, and generating it changes
nothing else. -/
theorem map_bare_generate (now : Occasion) (engine : Engine) (text name : String) :
    (engine.generate now text name).map (Prod.map id bare) = (do
      let node ← engine.bare.findRoot text
      let scheme ← engine.bare.registry.get name
      return (scheme.word node.entry.root, engine.bare)) := by
  have hget := Registry.get_bare engine.registry name
  rw [generate, findRoot_bare]
  simp only [bare, hget]
  cases engine.findRoot text with
  | error fault => rfl
  | ok node =>
      cases engine.registry.get name with
      | error fault => rfl
      | ok scheme =>
          simp only [ok_bind]
          split
          · rfl
          · refine congrArg Except.ok (Prod.ext rfl ?_)
            simp only [Prod.map, bare, RootTree.bare_record, Registry.bare_countUse]

theorem map_bare_validate (now : Occasion) (engine : Engine) (text word : String) :
    (engine.validate now text word).map (Prod.map id bare) =
      (engine.bare.findRoot text).map fun node =>
        (engine.bare.registry.producers node.entry.root word, engine.bare) := by
  rw [validate, findRoot_bare]
  simp only [bare, Registry.producers_bare]
  cases engine.findRoot text with
  | error fault => rfl
  | ok node =>
      simp only [ok_bind, Except.map, RootTree.Node.bare]
      cases engine.registry.producers node.entry.root word with
      | nil => rfl
      | cons name names =>
          refine congrArg Except.ok (Prod.ext rfl ?_)
          simp only [Prod.map, bare, RootTree.bare_record]

/-! ### Restoration without a record -/

end Engine

def SchemeRecord.bare (record : SchemeRecord) : SchemeRecord :=
  { record with usage := 0 }

def RootRecord.bare (record : RootRecord) : RootRecord :=
  { record with derivations := [] }

theorem Scheme.ofRecord_bare (p : Placeholders) (record : SchemeRecord) :
    Scheme.ofRecord p record.bare = (Scheme.ofRecord p record).map Scheme.bare := by
  obtain ⟨name, pattern, dynamic, category, usage⟩ := record
  rcases pattern with _ | source
  · simp only [Scheme.ofRecord, SchemeRecord.bare]
    cases Catalog.find? name <;> rfl
  · cases dynamic with
    | false =>
        simp only [Scheme.ofRecord, SchemeRecord.bare]
        cases Catalog.find? name <;> rfl
    | true =>
        simp only [Scheme.ofRecord, SchemeRecord.bare]
        cases Scheme.compiled p name source category <;> rfl

namespace Engine

theorem restoreScheme_bare (p : Placeholders) (registry : Registry) (skipped : List String)
    (record : SchemeRecord) :
    restoreScheme p (registry.bare, skipped) record.bare =
      (restoreScheme p (registry, skipped) record).map Registry.bare id := by
  have hadd : (Scheme.ofRecord p record.bare >>= registry.bare.add) =
      (Scheme.ofRecord p record >>= registry.add).map Registry.bare := by
    rw [Scheme.ofRecord_bare]
    cases Scheme.ofRecord p record with
    | error fault => rfl
    | ok scheme => exact Registry.add_bare registry scheme
  rw [restoreScheme, hadd, restoreScheme]
  cases Scheme.ofRecord p record >>= registry.add <;> rfl

theorem restoreSchemes_bare (p : Placeholders) (records : List SchemeRecord) :
    restoreSchemes p (records.map SchemeRecord.bare) =
      (restoreSchemes p records).map Registry.bare id := by
  have hfold : ∀ (registry : Registry) (skipped : List String),
      (records.map SchemeRecord.bare).foldl (restoreScheme p) (registry.bare, skipped) =
        (records.foldl (restoreScheme p) (registry, skipped)).map Registry.bare id := by
    induction records with
    | nil => exact fun _ _ => rfl
    | cons record records ih =>
        intro registry skipped
        rw [List.map_cons, List.foldl_cons, List.foldl_cons, restoreScheme_bare]
        exact ih _ _
  exact hfold .empty []

def RestoredRoots.bare (restored : RestoredRoots) : RestoredRoots :=
  { restored with tree := restored.tree.bare }

theorem restoreRoot_bare (restored : RestoredRoots) (record : RootRecord) :
    restoreRoot restored.bare record.bare = (restoreRoot restored record).bare := by
  simp only [restoreRoot, RootRecord.bare, RestoredRoots.bare]
  cases Root.ofText? record.root with
  | none => rfl
  | some root =>
      simp only [RootTree.insert_bare]
      rcases restored.tree.insert root with ⟨outcome, tree⟩
      cases outcome with
      | alreadyPresent => rfl
      | added =>
          have hrecords := RootTree.bare_recordAll root record.derivations tree
          rw [RootTree.recordAll] at hrecords
          simp only [hrecords, List.foldl_nil]

theorem restoreRoots_bare (records : List RootRecord) :
    restoreRoots (records.map RootRecord.bare) = (restoreRoots records).bare := by
  have hfold : ∀ restored : RestoredRoots,
      (records.map RootRecord.bare).foldl restoreRoot restored.bare =
        (records.foldl restoreRoot restored).bare := by
    induction records with
    | nil => exact fun _ => rfl
    | cons record records ih =>
        intro restored
        rw [List.map_cons, List.foldl_cons, List.foldl_cons, restoreRoot_bare]
        exact ih _
  exact hfold ⟨.leaf, [], []⟩

theorem snapshot_bare (engine : Engine) :
    engine.bare.snapshot = ⟨engine.snapshot.schemes.map SchemeRecord.bare,
      engine.snapshot.roots.map RootRecord.bare⟩ := by
  simp only [snapshot, bare, Registry.bare, RootTree.entries_bare, List.map_map]
  rfl

theorem restore_snapshot_bare (p : Placeholders) (engine : Engine) :
    restore p engine.bare.snapshot = (restore p engine.snapshot).map bare id := by
  rw [snapshot_bare]
  simp only [restore, restoreSchemes_bare, restoreRoots_bare]
  rfl

end Engine

end Triliteral
