import Mathlib.Data.List.Basic
import Triliteral.Proofs.RegistryOrder

/-!
The ranking of schemes. No two schemes of a registry rank alike, as their names differ, so that the
ranking depends neither on the order in which the registry keeps its schemes nor on the one in which
they came to it. The most used schemes are the first ones of the ranking.
-/

namespace Triliteral

namespace SchemeSummary

/-- Holds of a scheme that was used more often than another one, or as often while its name comes
first. -/
def Outranks (a b : SchemeSummary) : Prop :=
  b.usage < a.usage ∨ a.usage = b.usage ∧ a.name < b.name

instance : DecidableRel Outranks :=
  fun a b => inferInstanceAs (Decidable (b.usage < a.usage ∨ a.usage = b.usage ∧ a.name < b.name))

theorem not_outranks_self (summary : SchemeSummary) : ¬ summary.Outranks summary := by
  rintro (husage | ⟨-, hname⟩)
  · exact UInt64.lt_irrefl _ husage
  · exact String.lt_irrefl _ hname

theorem Outranks.trans {a b c : SchemeSummary} (hab : a.Outranks b) (hbc : b.Outranks c) :
    a.Outranks c := by
  rcases hab with hab | ⟨hab, hname⟩
  · rcases hbc with hbc | ⟨hbc, -⟩
    · exact .inl (UInt64.lt_trans hbc hab)
    · exact .inl (hbc ▸ hab)
  · rcases hbc with hbc | ⟨hbc, hname'⟩
    · exact .inl (hab ▸ hbc)
    · exact .inr ⟨hab.trans hbc, String.lt_trans hname hname'⟩

theorem Outranks.asymm {a b : SchemeSummary} (h : a.Outranks b) : ¬ b.Outranks a :=
  fun h' => a.not_outranks_self (h.trans h')

end SchemeSummary

namespace Registry

open SchemeSummary

variable {registry other : Registry}

/-! ### Comparing two schemes -/

section Comparing

variable {a b : Scheme}

theorem ranksBefore_iff :
    ranksBefore a b = true ↔ b.usage < a.usage ∨ a.usage = b.usage ∧ a.name ≤ b.name := by
  simp only [ranksBefore, Bool.or_eq_true, Bool.and_eq_true, decide_eq_true_eq, beq_iff_eq,
    Bool.not_eq_true', decide_eq_false_iff_not, String.not_lt]

theorem ranksBefore_trans (a b c : Scheme) (hab : ranksBefore a b = true)
    (hbc : ranksBefore b c = true) : ranksBefore a c = true := by
  rw [ranksBefore_iff] at hab hbc ⊢
  rcases hab with hab | ⟨hab, hname⟩
  · rcases hbc with hbc | ⟨hbc, -⟩
    · exact .inl (UInt64.lt_trans hbc hab)
    · exact .inl (hbc ▸ hab)
  · rcases hbc with hbc | ⟨hbc, hname'⟩
    · exact .inl (hab ▸ hbc)
    · exact .inr ⟨hab.trans hbc, String.le_trans hname hname'⟩

theorem ranksBefore_total (a b : Scheme) : (ranksBefore a b || ranksBefore b a) = true := by
  rw [Bool.or_eq_true, ranksBefore_iff, ranksBefore_iff]
  by_cases heq : a.usage = b.usage
  · rcases String.le_total a.name b.name with hname | hname
    · exact .inl (.inr ⟨heq, hname⟩)
    · exact .inr (.inr ⟨heq.symm, hname⟩)
  · rcases UInt64.lt_or_lt_of_ne heq with hlt | hgt
    · exact .inr (.inl hlt)
    · exact .inl (.inl hgt)

theorem outranks_of_ranksBefore (h : ranksBefore a b = true) (hne : a.name ≠ b.name) :
    a.summary.Outranks b.summary := by
  rcases ranksBefore_iff.mp h with husage | ⟨husage, hname⟩
  · exact .inl husage
  · refine .inr ⟨husage, ?_⟩
    by_contra hge
    exact hne (String.le_antisymm hname (String.not_lt.mp hge))

end Comparing

/-! ### The whole ranking -/

def ranking (registry : Registry) : List SchemeSummary :=
  (registry.schemes.mergeSort ranksBefore).map Scheme.summary

theorem mostUsed_eq_take (registry : Registry) (limit : Nat) :
    registry.mostUsed limit = registry.ranking.take limit := by
  rw [mostUsed, ranking, List.map_take]

theorem ranking_perm (registry : Registry) : registry.ranking.Perm registry.summaries :=
  (List.mergeSort_perm registry.schemes ranksBefore).map Scheme.summary

theorem length_ranking (registry : Registry) : registry.ranking.length = registry.size := by
  rw [registry.ranking_perm.length_eq, summaries, List.length_map, size]

theorem pairwise_ranking (hnames : registry.names.Nodup) : registry.ranking.Pairwise Outranks := by
  have hsorted : (registry.schemes.mergeSort ranksBefore).Pairwise
      fun a b => ranksBefore a b = true :=
    List.pairwise_mergeSort ranksBefore_trans ranksBefore_total registry.schemes
  have hdistinct : (registry.schemes.mergeSort ranksBefore).Pairwise
      fun a b => a.name ≠ b.name := by
    have hperm := (List.mergeSort_perm registry.schemes ranksBefore).map Scheme.name
    exact List.pairwise_map.mp (hperm.nodup_iff.mpr hnames)
  refine List.pairwise_map.mpr ?_
  exact (hsorted.and hdistinct).imp fun ⟨hbefore, hne⟩ => outranks_of_ranksBefore hbefore hne

theorem nodup_names_ranking (hnames : registry.names.Nodup) :
    (registry.ranking.map SchemeSummary.name).Nodup := by
  have hsummaries : registry.summaries.map SchemeSummary.name = registry.names := by
    rw [summaries, List.map_map]
    rfl
  rw [(registry.ranking_perm.map SchemeSummary.name).nodup_iff, hsummaries]
  exact hnames

/-- There is one ranking only: it is the one list of all schemes in which each of them outranks
those that come later. -/
theorem eq_ranking_of_pairwise (hnames : registry.names.Nodup) {order : List SchemeSummary}
    (hperm : order.Perm registry.summaries) (hranked : order.Pairwise Outranks) :
    order = registry.ranking :=
  (hperm.trans registry.ranking_perm.symm).eq_of_pairwise
    (fun _ _ _ _ hab hba => absurd hba hab.asymm) hranked (pairwise_ranking hnames)

theorem ranking_eq_of_perm (hnames : registry.names.Nodup)
    (hperm : other.schemes.Perm registry.schemes) : other.ranking = registry.ranking := by
  have hnames' : other.names.Nodup := (hperm.map Scheme.name).nodup_iff.mpr hnames
  exact eq_ranking_of_pairwise hnames (other.ranking_perm.trans (hperm.map Scheme.summary))
    (pairwise_ranking hnames')

/-! ### Adding schemes one after the other -/

theorem insertByName_perm (scheme : Scheme) (schemes : List Scheme) :
    (insertByName scheme schemes).Perm (scheme :: schemes) := by
  induction schemes with
  | nil => exact .refl _
  | cons head rest ih =>
      rw [insertByName]
      split
      · exact (ih.cons head).trans (.swap scheme head rest)
      · exact .refl _

def addAll (registry : Registry) (schemes : List Scheme) : Except Fault Registry :=
  schemes.foldlM add registry

/-- Schemes with different names that are all free can be added in any order. -/
theorem exists_addAll {schemes : List Scheme}
    (hnames : ((registry.schemes ++ schemes).map Scheme.name).Nodup) :
    ∃ next, registry.addAll schemes = .ok next ∧
      next.schemes.Perm (registry.schemes ++ schemes) := by
  induction schemes generalizing registry with
  | nil => exact ⟨registry, rfl, by rw [List.append_nil]⟩
  | cons scheme schemes ih =>
      have hfree : registry.find? scheme.name = none := by
        rw [List.map_append, List.nodup_append] at hnames
        refine find?_eq_none_iff.mpr fun earlier hearlier => ?_
        exact hnames.2.2 _ (List.mem_map_of_mem hearlier) _ (List.mem_map_of_mem List.mem_cons_self)
      have hperm : (insertByName scheme registry.schemes ++ schemes).Perm
          (registry.schemes ++ scheme :: schemes) :=
        ((insertByName_perm scheme registry.schemes).append_right schemes).trans
          List.perm_middle.symm
      let grown : Registry := ⟨insertByName scheme registry.schemes⟩
      have hgrown : ((grown.schemes ++ schemes).map Scheme.name).Nodup :=
        (hperm.map Scheme.name).nodup_iff.mpr hnames
      obtain ⟨next, hadded, hnext⟩ := ih hgrown
      refine ⟨next, ?_, hnext.trans hperm⟩
      rw [addAll, List.foldlM_cons, add_eq_ok_iff.mpr ⟨hfree, rfl⟩]
      exact hadded

/-! ### The most used schemes -/

/-- The most used schemes are the first ones of a ranking in which more uses come first and equal
ones are told apart by their names. They are as many as the limit allows, each is registered and has
a name of its own, and they outrank all that are left out. A higher limit only goes on with the
list. It is the same in whatever order the registry keeps its schemes, and in whatever order they
were added to it. -/
theorem mostUsed_leads_ranking (hnames : registry.names.Nodup) (limit : Nat) :
    (registry.mostUsed limit).length = min limit registry.size ∧
    (registry.mostUsed limit ⊆ registry.summaries ∧
      ((registry.mostUsed limit).map SchemeSummary.name).Nodup) ∧
    (registry.mostUsed limit).Pairwise Outranks ∧
    (∀ listed ∈ registry.mostUsed limit, ∀ left ∈ registry.summaries,
      left ∉ registry.mostUsed limit → listed.Outranks left) ∧
    (∀ higher, limit ≤ higher → registry.mostUsed limit <+: registry.mostUsed higher) ∧
    (∀ other : Registry, other.schemes.Perm registry.schemes →
      other.mostUsed limit = registry.mostUsed limit) ∧
    ∀ order : List Scheme, order.Perm registry.schemes →
      ∃ built, empty.addAll order = .ok built ∧
        built.mostUsed limit = registry.mostUsed limit := by
  have hranked := pairwise_ranking hnames
  have hsame : ∀ other : Registry, other.schemes.Perm registry.schemes →
      other.mostUsed limit = registry.mostUsed limit := by
    intro other hperm
    rw [mostUsed_eq_take, mostUsed_eq_take, ranking_eq_of_perm hnames hperm]
  have hmem : ∀ summary ∈ registry.summaries, summary ∉ registry.ranking.take limit →
      summary ∈ registry.ranking.drop limit := by
    intro summary hsummary hleft
    have hranking := registry.ranking_perm.mem_iff.mpr hsummary
    rw [← List.take_append_drop limit registry.ranking, List.mem_append] at hranking
    exact hranking.resolve_left hleft
  refine ⟨?_, ⟨?_, ?_⟩, ?_, ?_, ?_, hsame, ?_⟩
  · rw [mostUsed_eq_take, List.length_take, length_ranking]
  · rw [mostUsed_eq_take]
    exact List.Subset.trans (List.take_subset _ _) registry.ranking_perm.subset
  · rw [mostUsed_eq_take]
    exact (nodup_names_ranking hnames).sublist ((List.take_sublist _ _).map _)
  · rw [mostUsed_eq_take]
    exact hranked.sublist (List.take_sublist _ _)
  · intro listed hlisted left hregistered hleft
    rw [mostUsed_eq_take] at hlisted hleft
    rw [← List.take_append_drop limit registry.ranking] at hranked
    exact (List.pairwise_append.mp hranked).2.2 listed hlisted left (hmem left hregistered hleft)
  · intro higher hle
    rw [mostUsed_eq_take, mostUsed_eq_take]
    exact List.take_prefix_take_left hle
  · intro order hperm
    have hnames' : ((empty.schemes ++ order).map Scheme.name).Nodup :=
      (hperm.map Scheme.name).nodup_iff.mpr hnames
    obtain ⟨built, hbuilt, hschemes⟩ := exists_addAll hnames'
    exact ⟨built, hbuilt, hsame built (hschemes.trans hperm)⟩

/-- Three schemes that are not kept in the order of their names, two of them used equally often. -/
def tiedSchemes : Registry where
  schemes :=
    [⟨"مفعل", .placeNoun, .explicit Root.text, 2⟩, ⟨"فعيل", .intensive, .explicit Root.text, 5⟩,
      ⟨"فعال", .verbalNoun, .explicit Root.text, 2⟩]

theorem mostUsed_leads_ranking_tied :
    tiedSchemes.names.Nodup ∧ (tiedSchemes.mostUsed 2).length = 2 ∧
      (tiedSchemes.mostUsed 2).map SchemeSummary.name = ["فعيل", "فعال"] ∧
      tiedSchemes.mostUsed 2 <+: tiedSchemes.mostUsed 3 ∧
      ∃ built, empty.addAll tiedSchemes.schemes.reverse = .ok built ∧
        built.mostUsed 2 = tiedSchemes.mostUsed 2 := by
  have hnames : tiedSchemes.names.Nodup := by decide
  have hranking :
      [⟨"فعيل", false, none, .intensive, 5⟩, ⟨"فعال", false, none, .verbalNoun, 2⟩,
        ⟨"مفعل", false, none, .placeNoun, 2⟩] = tiedSchemes.ranking :=
    eq_ranking_of_pairwise hnames (by decide) (by decide)
  obtain ⟨hlength, -, -, -, hhigher, -, horders⟩ := mostUsed_leads_ranking hnames 2
  refine ⟨hnames, hlength, ?_, hhigher 3 (by decide), horders _ (List.reverse_perm _)⟩
  rw [mostUsed_eq_take, ← hranking]
  rfl

end Registry

end Triliteral
