import Mathlib.Algebra.GroupWithZero.Nat
import Triliteral.Proofs.EngineInvariants
import Triliteral.Proofs.TreeDerivations

/-!
Usage counters and the derivations that they count. The counter of a scheme never exceeds the
number of derivations recorded under its name, and equals it as long as words are generated
only and no scheme is taken away. Where the number has more than 64 bits, the counter has the last
64 of them.
-/

namespace Triliteral

namespace RootTree

/-- The number of derivations, over all roots, that were recorded under a scheme's name. -/
def recordedUnder (tree : RootTree) (name : String) : Nat :=
  tree.derivations.countP fun derivation => derivation.scheme == name

variable {tree : RootTree}

theorem recordedUnder_of_entries_eq {other : RootTree} (h : other.entries = tree.entries)
    (name : String) : other.recordedUnder name = tree.recordedUnder name := by
  rw [recordedUnder, recordedUnder, derivations, derivations, h]

theorem recordedUnder_insert (hordered : tree.Ordered) (root : Root) (name : String) :
    (tree.insert root).2.recordedUnder name = tree.recordedUnder name :=
  (derivations_insert hordered root).countP_eq _

theorem recordedUnder_record_of_new (hordered : tree.Ordered) {entry : RootEntry}
    (hentry : entry ∈ tree.entries) {derivation : Derivation}
    (hnew : derivation.word ∉ entry.derivations.map Derivation.word) (name : String) :
    (tree.record entry.root derivation).recordedUnder name =
      tree.recordedUnder name + if derivation.scheme = name then 1 else 0 := by
  rw [recordedUnder, (derivations_record_of_new hordered hentry hnew).countP_eq,
    List.countP_cons, ← recordedUnder]
  simp only [beq_iff_eq]

theorem recordedUnder_le_record (hordered : tree.Ordered) {entry : RootEntry}
    (hentry : entry ∈ tree.entries) (derivation : Derivation) (name : String) :
    tree.recordedUnder name ≤ (tree.record entry.root derivation).recordedUnder name := by
  by_cases hold : derivation.word ∈ entry.derivations.map Derivation.word
  · rw [recordedUnder_of_entries_eq (entries_record_of_old hordered hentry hold)]
  · rw [recordedUnder_record_of_new hordered hentry hold]
    exact Nat.le_add_right _ _

theorem recordedUnder_eq_zero {name : String}
    (h : ∀ derivation ∈ tree.derivations, derivation.scheme ≠ name) :
    tree.recordedUnder name = 0 := by
  apply List.countP_eq_zero.mpr
  intro derivation hderivation
  simpa using h derivation hderivation

end RootTree

namespace Registry

theorem toNat_add_one_le (usage : UInt64) : (usage + 1).toNat ≤ usage.toNat + 1 := by
  rw [UInt64.toNat_add]
  exact Nat.mod_le _ _

theorem toNat_add_one {usage : UInt64} (h : usage.toNat + 1 < 2 ^ 64) :
    (usage + 1).toNat = usage.toNat + 1 := by
  rw [UInt64.toNat_add]
  exact Nat.mod_eq_of_lt h

def totalUsage (registry : Registry) : Nat :=
  (registry.schemes.map fun scheme => scheme.usage.toNat).sum

variable {registry : Registry} {name : String}

theorem totalUsage_countUse
    (hfits : ∀ scheme ∈ registry.schemes, scheme.name = name → scheme.usage.toNat + 1 < 2 ^ 64) :
    (registry.countUse name).totalUsage = registry.totalUsage + registry.names.count name := by
  obtain ⟨schemes⟩ := registry
  simp only [countUse, update, totalUsage, names]
  induction schemes with
  | nil => rfl
  | cons scheme schemes ih =>
      obtain ⟨hfirst, hrest⟩ := List.forall_mem_cons.mp hfits
      simp only [List.map_cons, List.sum_cons, List.count_cons, ih hrest]
      by_cases hname : scheme.name = name
      · simp only [hname, beq_self_eq_true, if_true, toNat_add_one (hfirst hname)]
        omega
      · simp only [beq_iff_eq, hname, if_false]
        omega

theorem Sorted.nodup_names (h : registry.Sorted) : registry.names.Nodup :=
  List.pairwise_map.mpr (h.imp String.ne_of_lt)

/-- Uses of registered schemes are counted once each, as long as no counter is full. -/
theorem Sorted.totalUsage_countUses (h : registry.Sorted) {uses : List String}
    (hnames : ∀ name ∈ uses, name ∈ registry.names)
    (hfits : ∀ scheme ∈ registry.schemes,
      scheme.usage.toNat + uses.count scheme.name < 2 ^ 64) :
    (uses.foldl countUse registry).totalUsage = registry.totalUsage + uses.length := by
  induction uses generalizing registry with
  | nil => rfl
  | cons name uses ih =>
      obtain ⟨hname, hnames⟩ := List.forall_mem_cons.mp hnames
      have hkept : (registry.countUse name).names = registry.names :=
        names_update _ _ fun _ => rfl
      have hfirst : (registry.countUse name).totalUsage = registry.totalUsage + 1 := by
        rw [totalUsage_countUse, List.count_eq_one_of_mem h.nodup_names hname]
        rintro scheme hscheme rfl
        have hfit := hfits scheme hscheme
        rw [List.count_cons_self] at hfit
        omega
      have hfits' : ∀ scheme ∈ (registry.countUse name).schemes,
          scheme.usage.toNat + uses.count scheme.name < 2 ^ 64 := by
        refine forall_update ?_ ?_
        · rintro scheme hscheme rfl
          have hfit := hfits scheme hscheme
          have hle : (scheme.usage + 1).toNat ≤ scheme.usage.toNat + 1 := toNat_add_one_le _
          rw [List.count_cons_self] at hfit
          dsimp only
          omega
        · intro scheme hscheme hne
          have hfit := hfits scheme hscheme
          rwa [List.count_cons_of_ne (Ne.symm hne)] at hfit
      have hsorted : (registry.countUse name).Sorted := h.update name fun _ => rfl
      have hnames' : ∀ other ∈ uses, other ∈ (registry.countUse name).names := by
        rwa [hkept]
      rw [List.foldl_cons, ih hsorted hnames' hfits', hfirst, List.length_cons]
      omega

end Registry

namespace Engine

theorem Fresh.usage_eq_zero {p : Placeholders} {engine : Engine} (h : Fresh p engine) :
    ∀ scheme ∈ engine.registry.schemes, scheme.usage = 0 := by
  have hfold : ∀ schemes : List Scheme, (∀ scheme ∈ schemes, scheme.usage = 0) →
      ∀ scheme ∈ schemes.foldr Registry.insertByName [], scheme.usage = 0 := by
    intro schemes
    induction schemes with
    | nil => simp
    | cons scheme schemes ih =>
        intro hzero
        exact Registry.forall_insertByName (P := fun scheme => scheme.usage = 0)
          (hzero scheme List.mem_cons_self)
          (ih fun other hother => hzero other (List.mem_cons_of_mem scheme hother))
  cases h with
  | empty =>
      intro scheme hscheme
      exact absurd hscheme List.not_mem_nil
  | withCatalog => exact hfold Catalog.schemes (by decide)

theorem Fresh.derivations_eq_nil {p : Placeholders} {engine : Engine} (h : Fresh p engine) :
    engine.tree.derivations = [] := by
  cases h <;> rfl

/-! ### Counters that stay below -/

def UsageCovered (engine : Engine) : Prop :=
  ∀ scheme ∈ engine.registry.schemes,
    scheme.usage.toNat ≤ engine.tree.recordedUnder scheme.name

theorem UsageCovered.generate {engine : Engine} (hordered : engine.tree.Ordered)
    (h : engine.UsageCovered) {node : RootTree.Node} (hnode : node ∈ engine.tree.nodes)
    {derivation : Derivation}
    (hnew : derivation.word ∉ node.entry.derivations.map Derivation.word) :
    UsageCovered { engine with
      tree := engine.tree.record node.entry.root derivation
      registry := engine.registry.countUse derivation.scheme } := by
  have hrecord := RootTree.recordedUnder_record_of_new hordered (List.mem_map_of_mem hnode) hnew
  apply Registry.forall_update
  · intro scheme hscheme hname
    have hcovered := h scheme hscheme
    simp only [hrecord, hname, if_true] at hcovered ⊢
    exact (Registry.toNat_add_one_le _).trans (Nat.add_le_add_right hcovered 1)
  · intro scheme hscheme hname
    have hcovered := h scheme hscheme
    simp only [hrecord, if_neg (Ne.symm hname)]
    exact hcovered

theorem UsageCovered.reload {engine : Engine} (hengine : engine.WellFormed)
    (h : engine.UsageCovered) (p : Placeholders) :
    (restore p engine.snapshot).1.UsageCovered := by
  have hentries := hengine.entries_restore p
  intro scheme hscheme
  obtain ⟨record, hrecord, hmade⟩ := exists_record_of_mem_restoreSchemes hscheme
  obtain ⟨old, hold, rfl⟩ := List.mem_map.mp hrecord
  have hname : scheme.name = old.name := (Scheme.ofRecord_eq_ok hmade).1
  have husage : scheme.usage = old.usage := Scheme.usage_of_ofRecord hmade
  rw [RootTree.recordedUnder_of_entries_eq hentries, hname, husage]
  exact h old hold

theorem UsageCovered.update {request : Request} {before after : Engine}
    (hbefore : before.WellFormed) (h : Update request before after)
    (hcovered : before.UsageCovered) : after.UsageCovered := by
  have hordered := hbefore.ordered
  cases h with
  | insertRoot _ _ root =>
      intro scheme hscheme
      rw [RootTree.recordedUnder_insert hordered]
      exact hcovered scheme hscheme
  | addDynamic hscheme hadd =>
      obtain ⟨-, rfl⟩ := Registry.add_eq_ok_iff.mp hadd
      obtain ⟨-, pattern, -, rfl⟩ := Scheme.compiled_eq_ok_iff.mp hscheme
      exact Registry.forall_insertByName (Nat.zero_le _) hcovered
  | addExplicit hscheme hadd =>
      obtain ⟨-, rfl⟩ := Registry.add_eq_ok_iff.mp hadd
      obtain ⟨-, rfl⟩ := Scheme.explicit_eq_ok_iff.mp hscheme
      exact Registry.forall_insertByName (Nat.zero_le _) hcovered
  | modifyScheme hmodify =>
      obtain ⟨-, pattern, -, rfl⟩ := Registry.modify_eq_ok_iff.mp hmodify
      exact Registry.forall_update (fun scheme hscheme _ => hcovered scheme hscheme)
        fun scheme hscheme _ => hcovered scheme hscheme
  | removeScheme hremove =>
      obtain ⟨-, rfl⟩ := Registry.remove_eq_ok_iff.mp hremove
      intro scheme hscheme
      exact hcovered scheme (Registry.mem_without.mp hscheme).1
  | generate now hfound hscheme hnew =>
      obtain ⟨hnode, -⟩ := (findRoot_eq_ok_iff hordered).mp hfound
      apply hcovered.generate hordered hnode
      rw [← Derivation.any_word_iff, hnew]
      exact Bool.false_ne_true
  | validate now hfound hproducers =>
      obtain ⟨hnode, -⟩ := (findRoot_eq_ok_iff hordered).mp hfound
      intro scheme hscheme
      exact (hcovered scheme hscheme).trans
        (RootTree.recordedUnder_le_record hordered (List.mem_map_of_mem hnode) _ _)
  | reload _ p => exact hcovered.reload hbefore p

/-! ### Counters that are exact -/

end Engine

namespace Request

/-- Holds of the requests that record a derivation only by generating a word and keep the
schemes that are registered. -/
def CountsDerivations : Request → Prop
  | .validate .. | .removeScheme _ | .reload _ => False
  | _ => True

end Request

namespace Engine

/-- Every counter has counted the derivations under the scheme's name, and no derivation is under a
name that is free. -/
structure UsageExact (engine : Engine) : Prop where
  usage_eq : ∀ scheme ∈ engine.registry.schemes,
    scheme.usage = .ofNat (engine.tree.recordedUnder scheme.name)
  registered : ∀ derivation ∈ engine.tree.derivations,
    derivation.scheme ∈ engine.registry.names

theorem UsageExact.insertByName {engine : Engine} (h : engine.UsageExact) {scheme : Scheme}
    (hfree : engine.registry.find? scheme.name = none) (husage : scheme.usage = 0) :
    UsageExact { engine with
      registry := ⟨Registry.insertByName scheme engine.registry.schemes⟩ } := by
  constructor
  · refine Registry.forall_insertByName ?_ h.usage_eq
    rw [husage, RootTree.recordedUnder_eq_zero]
    · rfl
    rintro derivation hderivation hname
    exact Registry.not_mem_names_iff.mpr hfree (hname ▸ h.registered derivation hderivation)
  · intro derivation hderivation
    obtain ⟨other, hother, hname⟩ := List.mem_map.mp (h.registered derivation hderivation)
    exact List.mem_map.mpr ⟨other, Registry.mem_insertByName.mpr (.inr hother), hname⟩

theorem UsageExact.generate {engine : Engine} (hordered : engine.tree.Ordered)
    (h : engine.UsageExact) {node : RootTree.Node} (hnode : node ∈ engine.tree.nodes)
    {derivation : Derivation} (hregistered : derivation.scheme ∈ engine.registry.names)
    (hnew : derivation.word ∉ node.entry.derivations.map Derivation.word) :
    UsageExact { engine with
      tree := engine.tree.record node.entry.root derivation
      registry := engine.registry.countUse derivation.scheme } := by
  have hentry : node.entry ∈ engine.tree.entries := List.mem_map_of_mem hnode
  have hrecord := RootTree.recordedUnder_record_of_new hordered hentry hnew
  constructor
  · apply Registry.forall_update
    · intro scheme hscheme hname
      have husage := h.usage_eq scheme hscheme
      simp only [hrecord, hname, if_true] at husage ⊢
      rw [husage, UInt64.ofNat_add]
      rfl
    · intro scheme hscheme hname
      simp only [hrecord, if_neg (Ne.symm hname)]
      exact h.usage_eq scheme hscheme
  · intro other hother
    have hperm := RootTree.derivations_record_of_new hordered hentry hnew
    have hnames : (engine.registry.countUse derivation.scheme).names = engine.registry.names :=
      Registry.names_update _ _ fun _ => rfl
    rw [hnames]
    rcases List.mem_cons.mp (hperm.mem_iff.mp hother) with rfl | hother
    · exact hregistered
    · exact h.registered other hother

theorem UsageExact.update {request : Request} (hcounts : request.CountsDerivations)
    {before after : Engine} (hbefore : before.WellFormed) (h : Update request before after)
    (hexact : before.UsageExact) : after.UsageExact := by
  have hordered := hbefore.ordered
  cases h with
  | insertRoot _ _ root =>
      constructor
      · intro scheme hscheme
        rw [RootTree.recordedUnder_insert hordered]
        exact hexact.usage_eq scheme hscheme
      · intro derivation hderivation
        have hperm := RootTree.derivations_insert hordered root
        exact hexact.registered derivation (hperm.mem_iff.mp hderivation)
  | addDynamic hscheme hadd =>
      obtain ⟨hfree, rfl⟩ := Registry.add_eq_ok_iff.mp hadd
      obtain ⟨-, pattern, -, rfl⟩ := Scheme.compiled_eq_ok_iff.mp hscheme
      exact hexact.insertByName hfree rfl
  | addExplicit hscheme hadd =>
      obtain ⟨hfree, rfl⟩ := Registry.add_eq_ok_iff.mp hadd
      obtain ⟨-, rfl⟩ := Scheme.explicit_eq_ok_iff.mp hscheme
      exact hexact.insertByName hfree rfl
  | modifyScheme hmodify =>
      obtain ⟨-, pattern, -, rfl⟩ := Registry.modify_eq_ok_iff.mp hmodify
      constructor
      · exact Registry.forall_update (fun scheme hscheme _ => hexact.usage_eq scheme hscheme)
          fun scheme hscheme _ => hexact.usage_eq scheme hscheme
      · intro derivation hderivation
        rw [Registry.names_update]
        · exact hexact.registered derivation hderivation
        · intro scheme
          rfl
  | generate now hfound hscheme hnew =>
      obtain ⟨hnode, -⟩ := (findRoot_eq_ok_iff hordered).mp hfound
      apply hexact.generate hordered hnode
      · exact Registry.mem_names_iff.mpr ⟨_, Registry.get_eq_ok_iff.mp hscheme⟩
      · rw [← Derivation.any_word_iff, hnew]
        exact Bool.false_ne_true
  | removeScheme | validate | reload => exact hcounts.elim

/-- Usage accounting. After any run from a start without derivations, reloads under any
placeholders included, the counter of a scheme is at most the number of derivations under its
name. If the run validates no word, removes no scheme and never reloads, the two have their last
64 bits in common, and are equal unless the number has more. -/
theorem usage_accounting {p : Placeholders} {start : Engine} (hstart : Fresh p start)
    (steps : List (Occasion × Request)) :
    let engine := (start.run steps).2
    (∀ scheme ∈ engine.registry.schemes,
      scheme.usage.toNat ≤ engine.tree.recordedUnder scheme.name) ∧
    ((∀ step ∈ steps, step.2.CountsDerivations) → ∀ scheme ∈ engine.registry.schemes,
      scheme.usage.toNat = engine.tree.recordedUnder scheme.name % 2 ^ 64 ∧
        (engine.tree.recordedUnder scheme.name < 2 ^ 64 →
          scheme.usage.toNat = engine.tree.recordedUnder scheme.name)) := by
  have hwellFormed : start.WellFormed := hstart.initial.faithful.wellFormed
  have hzero := hstart.usage_eq_zero
  constructor
  · have hupdate : ∀ request : Request, True → ∀ before after, Update request before after →
        before.WellFormed ∧ before.UsageCovered → after.WellFormed ∧ after.UsageCovered := by
      rintro request - before after hupdate ⟨hbefore, hcovered⟩
      exact ⟨hbefore.update hupdate, hcovered.update hbefore hupdate⟩
    have hcovered : start.UsageCovered := by
      intro scheme hscheme
      rw [hzero scheme hscheme]
      exact Nat.zero_le _
    exact (run_preserves hupdate (fun _ _ => trivial) ⟨hwellFormed, hcovered⟩).2
  · intro hsteps
    have hupdate : ∀ request : Request, request.CountsDerivations → ∀ before after,
        Update request before after →
        before.WellFormed ∧ before.UsageExact → after.WellFormed ∧ after.UsageExact := by
      rintro request hcounts before after hupdate ⟨hbefore, hexact⟩
      exact ⟨hbefore.update hupdate, hexact.update hcounts hbefore hupdate⟩
    have hexact : start.UsageExact := by
      constructor
      · intro scheme hscheme
        rw [hzero scheme hscheme, RootTree.recordedUnder, hstart.derivations_eq_nil]
        rfl
      · rw [hstart.derivations_eq_nil]
        intro derivation hderivation
        exact absurd hderivation List.not_mem_nil
    have hlast := (run_preserves hupdate hsteps ⟨hwellFormed, hexact⟩).2.usage_eq
    intro scheme hscheme
    rw [hlast scheme hscheme, UInt64.toNat_ofNat']
    exact ⟨rfl, Nat.mod_eq_of_lt⟩

/-- Words generated on two roots, one of them twice. -/
def practice : List (Occasion × Request) :=
  [.addRoot "كتب", .addRoot "درس", .generate "كتب" "فاعل", .generate "كتب" "فاعل",
    .generate "درس" "فاعل", .addScheme "مفعلة" .placeNoun, .generate "درس" "مفعلة",
    .modifyScheme "فاعل" "فاعول"].map (Occasion.ofEpoch 0, ·)

theorem usage_accounting_practice :
    let engine := ((withCatalog .standard).run practice).2
    (engine.registry.find? "فاعل").map Scheme.usage = some 2 ∧
      engine.tree.recordedUnder "فاعل" = 2 ∧
      ∀ scheme ∈ engine.registry.schemes,
        scheme.usage.toNat = engine.tree.recordedUnder scheme.name % 2 ^ 64 := by
  have hsteps : ∀ step ∈ practice, step.2.CountsDerivations := by
    simp [practice, Request.CountsDerivations]
  exact ⟨by decide +kernel, by decide +kernel, fun scheme hscheme =>
    ((usage_accounting .withCatalog practice).2 hsteps scheme hscheme).1⟩

end Engine

end Triliteral
