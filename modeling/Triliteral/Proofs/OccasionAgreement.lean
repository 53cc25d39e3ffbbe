import Triliteral.Engine.Request
import Triliteral.Proofs.RootRestoration

/-!
Agreement up to the occasions. Two runs that make the same steps on different occasions may record
derivations at different times, and under different schemes where several make the word; what they
record and answer agrees when this is all that differs. Trees agree whatever their shapes are.
-/

namespace Triliteral

/-! ### Agreement up to the occasions -/

/-- A step of two runs, each on its own occasion, and the schemes of which either chooses one. -/
structure Tick where
  left : Occasion
  right : Occasion
  names : List String

abbrev Ticks := Set Tick

/-- Holds of two derivations that were recorded at the step, under the same scheme or under those
that were chosen. -/
def Tick.Records (tick : Tick) (a b : Derivation) : Prop :=
  a.recordedAt = tick.left.time ∧ b.recordedAt = tick.right.time ∧
    (a.scheme = b.scheme ∨ tick.names ≠ [] ∧ a.scheme = tick.left.choose tick.names ∧
      b.scheme = tick.right.choose tick.names)

variable {ticks : Ticks}

/-- Holds of two derivations of the same word that can differ only by the occasions of one step. -/
def Derivation.Agrees (ticks : Ticks) (a b : Derivation) : Prop :=
  a.word = b.word ∧ (a = b ∨ ∃ tick ∈ ticks, tick.Records a b)

def RootEntry.Agrees (ticks : Ticks) (a b : RootEntry) : Prop :=
  a.root = b.root ∧ List.Forall₂ (Derivation.Agrees ticks) a.derivations b.derivations

def RootRecord.Agrees (ticks : Ticks) (a b : RootRecord) : Prop :=
  a.root = b.root ∧ List.Forall₂ (Derivation.Agrees ticks) a.derivations b.derivations

def Snapshot.Agrees (ticks : Ticks) (a b : Snapshot) : Prop :=
  a.schemes = b.schemes ∧ List.Forall₂ (RootRecord.Agrees ticks) a.roots b.roots

/-- Holds of two responses that are equal up to the times of derivations and the schemes chosen. -/
def Response.Agrees (ticks : Ticks) : Response → Response → Prop
  | .derivations a, .derivations b => List.Forall₂ (Derivation.Agrees ticks) a b
  | .snapshot a, .snapshot b => a.Agrees ticks b
  | a, b => a = b

/-- The schemes of which one is chosen when a request is answered. -/
def Response.named : Response → List String
  | .verdict names => names
  | _ => []

/-- The steps of two runs with the same requests, of which one gave these responses. -/
def ticksOf (steps : List (Occasion × Occasion × Request)) (responses : List Response) : Ticks :=
  {tick | tick ∈ List.zipWith (fun step response => ⟨step.1, step.2.1, response.named⟩) steps
    responses}

theorem Derivation.agrees_refl (a : Derivation) : a.Agrees ticks a :=
  ⟨rfl, .inl rfl⟩

theorem Derivation.agrees_of_tick {left right : Occasion} {names : List String}
    (htick : ⟨left, right, names⟩ ∈ ticks) (word scheme : String) :
    Derivation.Agrees ticks ⟨word, scheme, left.time⟩ ⟨word, scheme, right.time⟩ :=
  ⟨rfl, .inr ⟨_, htick, rfl, rfl, .inl rfl⟩⟩

theorem Derivation.agrees_of_choice {left right : Occasion} {names : List String}
    (htick : ⟨left, right, names⟩ ∈ ticks) (hnames : names ≠ []) (word : String) :
    Derivation.Agrees ticks ⟨word, left.choose names, left.time⟩
      ⟨word, right.choose names, right.time⟩ :=
  ⟨rfl, .inr ⟨_, htick, rfl, rfl, .inr ⟨hnames, rfl, rfl⟩⟩⟩

theorem agrees_derivations_refl (history : List Derivation) :
    List.Forall₂ (Derivation.Agrees ticks) history history :=
  List.forall₂_same.mpr fun a _ => a.agrees_refl

theorem RootEntry.agrees_refl (a : RootEntry) : a.Agrees ticks a :=
  ⟨rfl, agrees_derivations_refl a.derivations⟩

theorem Response.agrees_refl (a : Response) : a.Agrees ticks a := by
  cases a with
  | derivations history => exact agrees_derivations_refl history
  | snapshot snapshot =>
      exact ⟨rfl, List.forall₂_same.mpr fun a _ => ⟨rfl, agrees_derivations_refl a.derivations⟩⟩
  | _ => rfl

section SameOccasions

variable (hticks : ∀ tick ∈ ticks, tick.left = tick.right)
include hticks

theorem Derivation.eq_of_agrees {a b : Derivation} (h : a.Agrees ticks b) : a = b := by
  obtain ⟨hword, hsame | ⟨tick, htick, hleft, hright, hscheme⟩⟩ := h
  · exact hsame
  · rw [← hticks tick htick] at hright hscheme
    have hscheme : a.scheme = b.scheme := by
      rcases hscheme with hsame | ⟨-, hleft, hright⟩
      · exact hsame
      · exact hleft.trans hright.symm
    obtain ⟨word, scheme, recordedAt⟩ := a
    obtain rfl : recordedAt = b.recordedAt := hleft.trans hright.symm
    subst hword hscheme
    rfl

theorem eq_of_agrees_derivations {a b : List Derivation}
    (h : List.Forall₂ (Derivation.Agrees ticks) a b) : a = b :=
  List.forall₂_eq_eq_eq ▸ h.imp fun _ _ => Derivation.eq_of_agrees hticks

theorem RootRecord.eq_of_agrees {a b : RootRecord} (h : a.Agrees ticks b) : a = b := by
  obtain ⟨root, derivations⟩ := a
  obtain ⟨hroot, hderivations⟩ := h
  have heq := eq_of_agrees_derivations hticks hderivations
  subst hroot heq
  rfl

/-- On the same occasions agreement is equality. -/
theorem Response.eq_of_agrees {a b : Response} (h : a.Agrees ticks b) : a = b := by
  unfold Response.Agrees at h
  split at h
  · rw [eq_of_agrees_derivations hticks h]
  · next s t =>
    obtain ⟨schemes, roots⟩ := s
    obtain ⟨hschemes, hroots⟩ := h
    have heq : roots = t.roots :=
      List.forall₂_eq_eq_eq ▸ hroots.imp fun _ _ => RootRecord.eq_of_agrees hticks
    subst hschemes heq
    rfl
  · exact h

end SameOccasions

def OutcomesAgree {α β : Type} (related : α → β → Prop) : Except Fault α → Except Fault β → Prop
  | .ok a, .ok b => related a b
  | .error fault, .error fault' => fault = fault'
  | _, _ => False

theorem outcomesAgree_iff {α β : Type} {related : α → β → Prop} {a : Except Fault α}
    {b : Except Fault β} :
    OutcomesAgree related a b ↔
      (∃ x y, a = .ok x ∧ b = .ok y ∧ related x y) ∨
        ∃ fault, a = .error fault ∧ b = .error fault := by
  constructor
  · intro h
    cases a with
    | ok x =>
        cases b with
        | ok y => exact .inl ⟨x, y, rfl, rfl, h⟩
        | error fault => exact h.elim
    | error fault =>
        cases b with
        | ok y => exact h.elim
        | error fault' =>
            obtain rfl : fault = fault' := h
            exact .inr ⟨fault, rfl, rfl⟩
  · rintro (⟨x, y, rfl, rfl, h⟩ | ⟨fault, rfl, rfl⟩)
    · exact h
    · rfl

theorem OutcomesAgree.imp {α β : Type} {related related' : α → β → Prop} {a : Except Fault α}
    {b : Except Fault β} (h : OutcomesAgree related a b)
    (himp : ∀ x y, related x y → related' x y) : OutcomesAgree related' a b := by
  rcases outcomesAgree_iff.mp h with ⟨x, y, rfl, rfl, hxy⟩ | ⟨fault, rfl, rfl⟩
  · exact himp x y hxy
  · rfl

theorem OutcomesAgree.bind {α β α' β' : Type} {related : α → β → Prop}
    {related' : α' → β' → Prop} {a : Except Fault α} {b : Except Fault β}
    {f : α → Except Fault α'} {g : β → Except Fault β'} (h : OutcomesAgree related a b)
    (hnext : ∀ x y, related x y → OutcomesAgree related' (f x) (g y)) :
    OutcomesAgree related' (a >>= f) (b >>= g) := by
  rcases outcomesAgree_iff.mp h with ⟨x, y, rfl, rfl, hxy⟩ | ⟨fault, rfl, rfl⟩
  · exact hnext x y hxy
  · rfl

theorem OutcomesAgree.map {α β α' β' : Type} {related : α → β → Prop}
    {related' : α' → β' → Prop} {a : Except Fault α} {b : Except Fault β}
    {f : α → α'} {g : β → β'} (h : OutcomesAgree related a b)
    (hvalue : ∀ x y, related x y → related' (f x) (g y)) :
    OutcomesAgree related' (a.map f) (b.map g) := by
  rcases outcomesAgree_iff.mp h with ⟨x, y, rfl, rfl, hxy⟩ | ⟨fault, rfl, rfl⟩
  · exact hvalue x y hxy
  · rfl

theorem outcomesAgree_refl {α : Type} (a : Except Fault α) : OutcomesAgree Eq a a := by
  cases a <;> rfl

/-! ### Agreement of histories and entries -/

theorem words_eq_of_agrees {a b : List Derivation}
    (h : List.Forall₂ (Derivation.Agrees ticks) a b) :
    a.map Derivation.word = b.map Derivation.word := by
  induction h with
  | nil => rfl
  | cons hhead _ ih => rw [List.map_cons, List.map_cons, ih, hhead.1]

theorem Derivation.record_agrees {a b : Derivation} (hnew : a.Agrees ticks b)
    {old old' : List Derivation} (hold : List.Forall₂ (Derivation.Agrees ticks) old old') :
    List.Forall₂ (Derivation.Agrees ticks) (a.record old) (b.record old') := by
  have hwords := words_eq_of_agrees hold
  by_cases hmem : a.word ∈ old.map Derivation.word
  · have hmem' : b.word ∈ old'.map Derivation.word := by
      rwa [← hwords, ← hnew.1]
    rwa [record_of_old hmem, record_of_old hmem']
  · have hmem' : b.word ∉ old'.map Derivation.word := by
      rwa [← hwords, ← hnew.1]
    rw [record_of_new hmem, record_of_new hmem']
    exact List.rel_append hold (.cons hnew .nil)

namespace RootTree

def Agrees (ticks : Ticks) (a b : RootTree) : Prop :=
  List.Forall₂ (RootEntry.Agrees ticks) a.entries b.entries

variable {a b : RootTree}

theorem Agrees.roots_eq (h : a.Agrees ticks b) : a.roots = b.roots := by
  have hforall : ∀ {l l' : List RootEntry}, List.Forall₂ (RootEntry.Agrees ticks) l l' →
      l.map RootEntry.root = l'.map RootEntry.root := by
    intro l l' h
    induction h with
    | nil => rfl
    | cons hhead _ ih => rw [List.map_cons, List.map_cons, ih, hhead.1]
  exact hforall h

theorem orderedInsert_agrees {x y : RootEntry} (hnew : x.Agrees ticks y)
    {l l' : List RootEntry} (h : List.Forall₂ (RootEntry.Agrees ticks) l l') :
    List.Forall₂ (RootEntry.Agrees ticks) (l.orderedInsert RootEntry.Before x)
      (l'.orderedInsert RootEntry.Before y) := by
  induction h with
  | nil => exact .cons hnew .nil
  | @cons u v l l' hhead htail ih =>
      have hiff : x.Before u ↔ y.Before v := by
        rw [RootEntry.Before, RootEntry.Before, hnew.1, hhead.1]
      rw [List.orderedInsert_cons, List.orderedInsert_cons]
      by_cases hlt : x.Before u
      · rw [if_pos hlt, if_pos (hiff.mp hlt)]
        exact .cons hnew (.cons hhead htail)
      · rw [if_neg hlt, if_neg fun h => hlt (hiff.mpr h)]
        exact .cons hhead ih

theorem Agrees.insert (h : a.Agrees ticks b) (ha : a.Ordered) (hb : b.Ordered) (root : Root) :
    (a.insert root).1 = (b.insert root).1 ∧
      (a.insert root).2.Agrees ticks (b.insert root).2 := by
  rw [insert_eq ha, insert_eq hb, h.roots_eq]
  split
  · exact ⟨rfl, h⟩
  · next hnew =>
    refine ⟨rfl, ?_⟩
    have hnew' : root ∉ a.roots := by rwa [h.roots_eq]
    rw [Agrees, entries_grow ha hnew', entries_grow hb hnew]
    exact orderedInsert_agrees (RootEntry.agrees_refl _) h

theorem Agrees.record (h : a.Agrees ticks b) (ha : a.Ordered) (hb : b.Ordered) (root : Root)
    {d d' : Derivation} (hnew : d.Agrees ticks d') :
    (a.record root d).Agrees ticks (b.record root d') := by
  rw [Agrees, entries_record ha, entries_record hb, List.forall₂_map_left_iff,
    List.forall₂_map_right_iff]
  refine List.Forall₂.imp (fun x y hxy => ?_) h
  rw [RootEntry.recordAt, RootEntry.recordAt, hxy.1]
  split
  · exact ⟨rfl, Derivation.record_agrees hnew hxy.2⟩
  · exact hxy

theorem forall₂_mem {α : Type} {related : α → α → Prop} {l l' : List α}
    (h : List.Forall₂ related l l') {x : α} (hx : x ∈ l) : ∃ y ∈ l', related x y := by
  induction h with
  | nil => exact absurd hx List.not_mem_nil
  | @cons u v l l' hhead _ ih =>
      rcases List.mem_cons.mp hx with rfl | hx
      · exact ⟨v, List.mem_cons_self, hhead⟩
      · obtain ⟨y, hy, hxy⟩ := ih hx
        exact ⟨y, List.mem_cons_of_mem v hy, hxy⟩

theorem Agrees.findText? (h : a.Agrees ticks b) (ha : a.Ordered) (hb : b.Ordered)
    (text : String) :
    (a.findText? text = none ∧ b.findText? text = none) ∨
      ∃ node node', a.findText? text = some node ∧ b.findText? text = some node' ∧
        node.entry.Agrees ticks node'.entry := by
  cases hfound : a.findText? text with
  | none =>
      have hcontains : b.containsText text = a.containsText text := by
        rw [Bool.eq_iff_iff, containsText_iff hb, containsText_iff ha, h.roots_eq]
      have hmiss : b.containsText text = false := by
        rw [hcontains, containsText, hfound, Option.isSome_none]
      exact .inl ⟨rfl, Option.isSome_eq_false_iff.mp hmiss |> Option.isNone_iff_eq_none.mp⟩
  | some node =>
      obtain ⟨hnode, htext⟩ := (findText?_eq_some_iff ha).mp hfound
      obtain ⟨entry, hentry, hagrees⟩ := forall₂_mem h (List.mem_map_of_mem hnode)
      obtain ⟨node', hnode', rfl⟩ := List.mem_map.mp hentry
      have hfound' : b.findText? text = some node' :=
        (findText?_eq_some_iff hb).mpr ⟨hnode', hagrees.1 ▸ htext⟩
      exact .inr ⟨node, node', rfl, hfound', hagrees⟩

end RootTree

end Triliteral
