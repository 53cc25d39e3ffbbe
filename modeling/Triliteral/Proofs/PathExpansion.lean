import Mathlib.Data.List.Forall2
import Triliteral.PathTemplate

/-!
Expansion of path templates. A template is made up of pieces in exactly one way; either all of its
variables are replaced, once and by what the environment or the template itself has for them, or
none is.
-/

namespace Triliteral.PathTemplate

/-! ### Pieces of a template -/

def separator : List Char := [':', '-']

/-- How a template is made up of pieces. -/
inductive Spells : List Char → List PathPiece → Prop
  | nil : Spells [] []
  | plain {c : Char} {rest : List Char} {more : List PathPiece} (hc : c ≠ '$')
      (hrest : Spells rest more) : Spells (c :: rest) (.literal c :: more)
  | doubled {rest : List Char} {more : List PathPiece} (hrest : Spells rest more) :
      Spells ('$' :: '$' :: rest) (.literal '$' :: more)
  /-- A name ends where it cannot go on. -/
  | named {name rest : List Char} {more : List PathPiece} (hname : name ≠ [])
      (hchars : ∀ c ∈ name, isNameChar c = true) (hend : ∀ c ∈ rest.head?, isNameChar c = false)
      (hrest : Spells rest more) :
      Spells ('$' :: (name ++ rest)) (.reference (String.ofList name) none :: more)
  /-- In braces any name may stand. -/
  | enclosed {name rest : List Char} {more : List PathPiece} (hclosed : '}' ∉ name)
      (hwhole : separator <+: name ∨ ¬ separator <:+: name) (hrest : Spells rest more) :
      Spells ('$' :: '{' :: (name ++ '}' :: rest)) (.reference (String.ofList name) none :: more)
  /-- The first separator counts, unless nothing stands before it. -/
  | withFallback {name fallback rest : List Char} {more : List PathPiece} (hname : name ≠ [])
      (hfirst : ¬ separator <:+: name) (hclosed : '}' ∉ name ++ separator ++ fallback)
      (hrest : Spells rest more) :
      Spells ('$' :: '{' :: (name ++ separator ++ fallback ++ '}' :: rest))
        (.reference (String.ofList name) (some (String.ofList fallback)) :: more)
  | unclosed {rest : List Char} {more : List PathPiece} (hopen : '}' ∉ rest)
      (hrest : Spells rest more) :
      Spells ('$' :: '{' :: rest) (.literal '$' :: .literal '{' :: more)
  | stray {rest : List Char} {more : List PathPiece}
      (hnothing : ∀ c ∈ rest.head?, c ≠ '$' ∧ c ≠ '{' ∧ isNameChar c = false)
      (hrest : Spells rest more) : Spells ('$' :: rest) (.literal '$' :: more)

theorem not_separator_prefix_cons {c : Char} {rest : List Char}
    (h : ∀ more, c = ':' → rest = '-' :: more → False) : ¬ separator <+: c :: rest := by
  rintro ⟨more, hmore⟩
  obtain ⟨hc, hrest⟩ := List.cons.inj hmore
  exact h more hc.symm hrest.symm

theorem splitFallback_append {name : List Char} (hfirst : ¬ separator <:+: name)
    (fallback : List Char) :
    splitFallback (name ++ separator ++ fallback) = some (name, fallback) := by
  induction name with
  | nil => rfl
  | cons c name ih =>
      rw [List.infix_cons_iff, not_or] at hfirst
      have hnot : ∀ more, c = ':' → name ++ separator ++ fallback = '-' :: more → False := by
        rintro more rfl hmore
        cases name with
        | nil => cases hmore
        | cons d name =>
            obtain ⟨rfl, -⟩ := List.cons.inj hmore
            exact hfirst.1 ⟨name, rfl⟩
      rw [List.cons_append, List.cons_append, splitFallback, ih hfirst.2]
      · rfl
      · exact hnot

theorem splitFallback_eq_some_iff {cs name fallback : List Char} :
    splitFallback cs = some (name, fallback) ↔
      cs = name ++ separator ++ fallback ∧ ¬ separator <:+: name := by
  constructor
  · intro h
    fun_induction splitFallback cs generalizing name with
    | case1 => cases h
    | case2 rest =>
        obtain ⟨rfl, rfl⟩ := Prod.mk.inj (Option.some.inj h)
        exact ⟨rfl, by decide⟩
    | case3 c rest hnot ih =>
        obtain ⟨⟨before, after⟩, hsplit, heq⟩ := Option.map_eq_some_iff.mp h
        obtain ⟨rfl, rfl⟩ := Prod.mk.inj heq
        obtain ⟨rfl, hfirst⟩ := ih hsplit
        refine ⟨rfl, ?_⟩
        rw [List.infix_cons_iff, not_or]
        refine ⟨not_separator_prefix_cons fun more hc hmore => ?_, hfirst⟩
        exact hnot (more ++ separator ++ after) hc (by rw [hmore]; rfl)
  · rintro ⟨rfl, hfirst⟩
    exact splitFallback_append hfirst fallback

theorem splitFallback_eq_none_iff {cs : List Char} :
    splitFallback cs = none ↔ ¬ separator <:+: cs := by
  constructor
  · intro h
    fun_induction splitFallback cs with
    | case1 => decide
    | case2 => cases h
    | case3 c rest hnot ih =>
        rw [List.infix_cons_iff, not_or]
        exact ⟨not_separator_prefix_cons hnot, ih (Option.map_eq_none_iff.mp h)⟩
  · intro h
    cases hsplit : splitFallback cs with
    | none => rfl
    | some split =>
        obtain ⟨rfl, -⟩ := splitFallback_eq_some_iff.mp hsplit
        exact absurd ⟨split.1, split.2, rfl⟩ h

theorem braced_whole {name : List Char} (h : separator <+: name ∨ ¬ separator <:+: name) :
    braced name = .reference (String.ofList name) none := by
  rcases h with ⟨fallback, rfl⟩ | h
  · rfl
  · rw [braced, splitFallback_eq_none_iff.mpr h]

theorem braced_fallback {name : List Char} (hname : name ≠ []) (hfirst : ¬ separator <:+: name)
    (fallback : List Char) :
    braced (name ++ separator ++ fallback) =
      .reference (String.ofList name) (some (String.ofList fallback)) := by
  obtain ⟨c, name, rfl⟩ := List.exists_cons_of_ne_nil hname
  rw [braced, splitFallback_append hfirst]

theorem Spells.of_braced {inside rest : List Char} {more : List PathPiece} (hclosed : '}' ∉ inside)
    (hrest : Spells rest more) :
    Spells ('$' :: '{' :: (inside ++ '}' :: rest)) (braced inside :: more) := by
  cases hsplit : splitFallback inside with
  | none =>
      have hnone := splitFallback_eq_none_iff.mp hsplit
      rw [braced_whole (.inr hnone)]
      exact .enclosed hclosed (.inr hnone) hrest
  | some split =>
      obtain ⟨name, fallback⟩ := split
      obtain ⟨rfl, hfirst⟩ := splitFallback_eq_some_iff.mp hsplit
      cases name with
      | nil =>
          have hwhole : separator <+: [] ++ separator ++ fallback := ⟨fallback, rfl⟩
          rw [braced_whole (.inl hwhole)]
          exact .enclosed hclosed (.inl hwhole) hrest
      | cons c name =>
          have hname : c :: name ≠ [] := List.cons_ne_nil c name
          rw [braced_fallback hname hfirst]
          exact .withFallback hname hfirst hclosed hrest

/-! ### Reading the pieces -/

section Pieces

variable {c : Char} {name inside rest : List Char}

theorem pieces_plain (hc : c ≠ '$') : pieces (c :: rest) = .literal c :: pieces rest := by
  rw [pieces]
  all_goals simp [hc]

theorem split_closed (hclosed : '}' ∉ inside) :
    (inside ++ '}' :: rest).takeWhile (· != '}') = inside ∧
      ((inside ++ '}' :: rest).dropWhile (· != '}')).drop 1 = rest := by
  have hinside : ∀ c ∈ inside, (c != '}') = true := by
    intro c hc
    exact bne_iff_ne.mpr fun heq => hclosed (heq ▸ hc)
  constructor
  · rw [List.takeWhile_append_of_pos hinside]
    simp
  · rw [List.dropWhile_append_of_pos hinside]
    simp

theorem pieces_closed (hclosed : '}' ∉ inside) :
    pieces ('$' :: '{' :: (inside ++ '}' :: rest)) = braced inside :: pieces rest := by
  obtain ⟨hinside, hrest⟩ := @split_closed inside rest hclosed
  rw [pieces, if_pos (by simp), hinside, hrest]

theorem pieces_unclosed (hopen : '}' ∉ rest) :
    pieces ('$' :: '{' :: rest) = .literal '$' :: .literal '{' :: pieces rest := by
  rw [pieces, if_neg (by simpa using hopen)]

theorem split_named (hchars : ∀ c ∈ name, isNameChar c = true)
    (hend : ∀ c ∈ rest.head?, isNameChar c = false) :
    (name ++ rest).takeWhile isNameChar = name ∧ (name ++ rest).dropWhile isNameChar = rest := by
  rw [List.takeWhile_append_of_pos hchars, List.dropWhile_append_of_pos hchars]
  cases rest with
  | nil => simp
  | cons c rest => simp [hend c rfl]

theorem pieces_named (hname : name ≠ []) (hchars : ∀ c ∈ name, isNameChar c = true)
    (hend : ∀ c ∈ rest.head?, isNameChar c = false) :
    pieces ('$' :: (name ++ rest)) = .reference (String.ofList name) none :: pieces rest := by
  obtain ⟨htake, hdrop⟩ := split_named hchars hend
  obtain ⟨c, more, rfl⟩ := List.exists_cons_of_ne_nil hname
  have hc := hchars c List.mem_cons_self
  have hsign : ∀ {sign : Char}, isNameChar sign = false →
      ∀ tail, (c :: more) ++ rest = sign :: tail → False := by
    rintro sign hsign tail heq
    obtain ⟨rfl, -⟩ := List.cons.inj heq
    exact Bool.false_ne_true (hsign.symm.trans hc)
  rw [pieces, htake, hdrop]
  · exact hsign (by decide +kernel)
  · exact hsign (by decide +kernel)

theorem pieces_stray (hnothing : ∀ c ∈ rest.head?, c ≠ '$' ∧ c ≠ '{' ∧ isNameChar c = false) :
    pieces ('$' :: rest) = .literal '$' :: pieces rest := by
  have htake : rest.takeWhile isNameChar = [] := by
    cases rest with
    | nil => rfl
    | cons c rest => simp [(hnothing c rfl).2.2]
  rw [pieces, htake]
  · rintro tail rfl
    exact (hnothing '$' rfl).1 rfl
  · rintro tail rfl
    exact (hnothing '{' rfl).2.1 rfl

end Pieces

theorem Spells.eq_pieces {cs : List Char} {spelled : List PathPiece} (h : Spells cs spelled) :
    spelled = pieces cs := by
  induction h with
  | nil => rw [pieces]
  | plain hc _ ih => rw [pieces_plain hc, ih]
  | doubled _ ih => rw [pieces, ih]
  | named hname hchars hend _ ih => rw [pieces_named hname hchars hend, ih]
  | enclosed hclosed hwhole _ ih => rw [pieces_closed hclosed, braced_whole hwhole, ih]
  | withFallback hname hfirst hclosed _ ih =>
      rw [pieces_closed hclosed, braced_fallback hname hfirst, ih]
  | unclosed hopen _ ih => rw [pieces_unclosed hopen, ih]
  | stray hnothing _ ih => rw [pieces_stray hnothing, ih]

theorem spells_pieces (cs : List Char) : Spells cs (pieces cs) := by
  induction cs using pieces.induct with
  | case1 =>
      rw [pieces]
      exact .nil
  | case2 rest ih =>
      rw [pieces]
      exact .doubled ih
  | case3 rest hclosed ih =>
      obtain ⟨inside, after, rfl, hinside⟩ :=
        List.eq_append_cons_of_mem (List.contains_iff_mem.mp hclosed)
      rw [(split_closed hinside).2] at ih
      rw [pieces_closed hinside]
      exact Spells.of_braced hinside ih
  | case4 rest hopen ih =>
      have hopen : '}' ∉ rest := by simpa using hopen
      rw [pieces_unclosed hopen]
      exact .unclosed hopen ih
  | case5 rest hdollar hbrace hname ih =>
      have hnothing : ∀ c ∈ rest.head?, c ≠ '$' ∧ c ≠ '{' ∧ isNameChar c = false := by
        intro c hc
        obtain ⟨tail, rfl⟩ := List.head?_eq_some_iff.mp hc
        refine ⟨fun heq => hdollar tail (by rw [heq]), fun heq => hbrace tail (by rw [heq]), ?_⟩
        simpa [List.takeWhile_cons] using hname
      rw [pieces_stray hnothing]
      exact .stray hnothing ih
  | case6 rest _ _ hname ih =>
      have hchars : ∀ c ∈ rest.takeWhile isNameChar, isNameChar c = true :=
        List.all_eq_true.mp List.all_takeWhile
      have hend : ∀ c ∈ (rest.dropWhile isNameChar).head?, isNameChar c = false := by
        intro c hc
        have hnot := List.head?_dropWhile_not isNameChar rest
        rw [Option.mem_def.mp hc] at hnot
        exact hnot
      have hrest := @List.takeWhile_append_dropWhile _ isNameChar rest
      have hpieces := pieces_named hname hchars hend
      have hspells := Spells.named hname hchars hend ih
      rw [hrest] at hpieces hspells
      rwa [hpieces]
  | case7 c rest _ _ hc ih =>
      rw [pieces_plain hc]
      exact .plain hc ih

/-- A template is made up of pieces in one way, which is how they are read. -/
theorem spells_iff {cs : List Char} {spelled : List PathPiece} :
    Spells cs spelled ↔ spelled = pieces cs :=
  ⟨Spells.eq_pieces, fun h => h ▸ spells_pieces cs⟩

/-! ### Replacing the variables -/

/-- What takes the place of a piece. A fallback counts only where the variable is unset. -/
inductive Replaces (env : Environment) : PathPiece → List Char → Prop
  | literal (c : Char) : Replaces env (.literal c) [c]
  | value {name value : String} (fallback : Option String) (hvalue : env.get? name = some value) :
      Replaces env (.reference name fallback) value.toList
  | fallback {name : String} (fallback : String) (hunset : env.get? name = none) :
      Replaces env (.reference name (some fallback)) fallback.toList

/-- Holds of pieces among which is a variable that cannot be replaced. -/
def LacksValue (env : Environment) (spelled : List PathPiece) : Prop :=
  ∃ name, .reference name none ∈ spelled ∧ env.get? name = none

variable {env : Environment} {piece : PathPiece} {spelled : List PathPiece}

theorem value?_eq_some_iff {value : List Char} :
    PathPiece.value? env piece = some value ↔ Replaces env piece value := by
  constructor
  · intro h
    cases piece with
    | literal c =>
        obtain rfl := Option.some.inj h
        exact .literal c
    | reference name fallback =>
        rw [PathPiece.value?] at h
        cases hget : env.get? name with
        | some text =>
            rw [hget] at h
            obtain rfl := Option.some.inj h
            exact .value fallback hget
        | none =>
            rw [hget] at h
            obtain ⟨text, rfl, rfl⟩ := Option.map_eq_some_iff.mp h
            exact .fallback text hget
  · rintro (c | ⟨fallback, hvalue⟩ | ⟨fallback, hunset⟩)
    · rfl
    · rw [PathPiece.value?, hvalue]
      rfl
    · rw [PathPiece.value?, hunset]
      rfl

theorem value?_eq_none_iff :
    PathPiece.value? env piece = none ↔
      ∃ name, piece = .reference name none ∧ env.get? name = none := by
  cases piece with
  | literal c => simp [PathPiece.value?]
  | reference name fallback => simp [PathPiece.value?, and_comm]

theorem substitute?_eq_some_iff {cs : List Char} :
    substitute? env spelled = some cs ↔
      ∃ values, List.Forall₂ (Replaces env) spelled values ∧ cs = values.flatten := by
  induction spelled generalizing cs with
  | nil => simp [substitute?, List.forall₂_nil_left_iff, eq_comm]
  | cons piece spelled ih =>
      simp only [substitute?, Option.bind_eq_bind, Option.bind_eq_some_iff, Option.pure_def,
        Option.some.injEq, value?_eq_some_iff, ih, List.forall₂_cons_left_iff]
      constructor
      · rintro ⟨value, hvalue, _, ⟨values, hvalues, rfl⟩, rfl⟩
        exact ⟨value :: values, ⟨value, values, hvalue, hvalues, rfl⟩, rfl⟩
      · rintro ⟨_, ⟨value, values, hvalue, hvalues, rfl⟩, rfl⟩
        exact ⟨value, hvalue, _, ⟨values, hvalues, rfl⟩, rfl⟩

theorem substitute?_eq_none_iff : substitute? env spelled = none ↔ LacksValue env spelled := by
  induction spelled with
  | nil => simp [substitute?, LacksValue]
  | cons piece spelled ih =>
      have hcons : LacksValue env (piece :: spelled) ↔
          PathPiece.value? env piece = none ∨ LacksValue env spelled := by
        rw [value?_eq_none_iff, LacksValue, LacksValue, ← exists_or]
        simp only [List.mem_cons, or_and_right, eq_comm]
      rw [hcons, ← ih, substitute?]
      cases PathPiece.value? env piece <;> cases substitute? env spelled <;> simp

instance (env : Environment) (spelled : List PathPiece) : Decidable (LacksValue env spelled) :=
  decidable_of_iff _ substitute?_eq_none_iff

theorem expand_of_lacksValue {template : String}
    (h : LacksValue env (pieces template.toList)) : expand env template = template := by
  rw [expand, substitute?_eq_none_iff.mpr h]

theorem expand_of_replaces {template : String} {values : List (List Char)}
    (h : List.Forall₂ (Replaces env) (pieces template.toList) values) :
    expand env template =
      String.ofList (if template.toList.head? = some '~' then expandTilde env values.flatten
        else values.flatten) := by
  rw [expand, substitute?_eq_some_iff.mpr ⟨values, h, rfl⟩]
  dsimp only
  split <;> rfl

/-! ### Templates without variables -/

def doubleSigns (text : String) : String :=
  String.ofList (text.toList.flatMap fun c => if c = '$' then ['$', '$'] else [c])

theorem pieces_doubled (cs : List Char) :
    pieces (cs.flatMap fun c => if c = '$' then ['$', '$'] else [c]) = cs.map .literal := by
  induction cs with
  | nil => rw [List.flatMap_nil, pieces, List.map_nil]
  | cons c cs ih =>
      rw [List.flatMap_cons, List.map_cons]
      split
      · next heq =>
        rw [heq, List.cons_append, List.singleton_append, pieces, ih]
      · next hc => rw [List.singleton_append, pieces_plain hc, ih]

theorem doubleSigns_of_not_mem {text : String} (h : '$' ∉ text.toList) :
    doubleSigns text = text := by
  have hmap : ∀ c ∈ text.toList, (if c = '$' then ['$', '$'] else [c]) = [c] := by
    intro c hc
    rw [if_neg]
    rintro rfl
    exact h hc
  rw [doubleSigns, List.flatMap_congr hmap, List.flatMap_singleton', String.ofList_toList]

theorem expandTilde_eq_self {cs : List Char} (halone : cs ≠ ['~']) (hslash : ¬ ['~', '/'] <+: cs) :
    expandTilde env cs = cs := by
  unfold expandTilde
  split
  · next rest =>
    rw [if_neg]
    rintro (rfl | hhead)
    · exact halone rfl
    · obtain ⟨rest, rfl⟩ := List.head?_eq_some_iff.mp hhead
      exact hslash ⟨rest, rfl⟩
  · rfl

theorem expand_doubleSigns (env : Environment) {text : String} (halone : text ≠ "~")
    (hslash : ¬ ['~', '/'] <+: text.toList) : expand env (doubleSigns text) = text := by
  have hvalues : List.Forall₂ (Replaces env) (pieces (doubleSigns text).toList)
      (text.toList.map fun c => [c]) := by
    rw [doubleSigns, String.toList_ofList, pieces_doubled, List.forall₂_map_left_iff,
      List.forall₂_map_right_iff]
    exact List.forall₂_same.mpr fun c _ => .literal c
  have hflatten : (text.toList.map fun c => [c]).flatten = text.toList := by
    rw [← List.flatMap_def, List.flatMap_singleton']
  have halone : text.toList ≠ ['~'] := fun heq => halone (String.toList_injective heq)
  rw [expand_of_replaces hvalues, hflatten, expandTilde_eq_self halone hslash, ite_self,
    String.ofList_toList]

theorem expand_eq_self (env : Environment) {text : String} (hsign : '$' ∉ text.toList)
    (htilde : text.toList.head? ≠ some '~') : expand env text = text := by
  have halone : text ≠ "~" := by
    rintro rfl
    exact htilde rfl
  have hslash : ¬ ['~', '/'] <+: text.toList := by
    rintro ⟨rest, hrest⟩
    exact htilde (hrest ▸ rfl)
  have hexpand := expand_doubleSigns env halone hslash
  rwa [doubleSigns_of_not_mem hsign] at hexpand

/-- A path text is expanded as a whole or not at all. It is made up of pieces in one way, whatever
the environment. If one of them is a variable that is unset and has no fallback, nothing is changed;
otherwise every piece is replaced once, by itself, by the value of its variable or by its fallback,
and only a tilde that the text begins with is looked at afterwards. A text without a dollar sign is
not changed unless it begins with a tilde, and doubling the dollar signs protects every text that
is not a tilde alone or before a slash. -/
theorem expand_all_or_nothing (template : String) :
    (∃ spelled, Spells template.toList spelled ∧
      (∀ other, Spells template.toList other → other = spelled) ∧
      ∀ env : Environment,
        (LacksValue env spelled → expand env template = template) ∧
        (¬ LacksValue env spelled → ∃ values, List.Forall₂ (Replaces env) spelled values ∧
          expand env template =
            String.ofList (if template.toList.head? = some '~' then expandTilde env values.flatten
              else values.flatten))) ∧
    ∀ env : Environment,
      ('$' ∉ template.toList → template.toList.head? ≠ some '~' →
        expand env template = template) ∧
      (template ≠ "~" → ¬ ['~', '/'] <+: template.toList →
        expand env (doubleSigns template) = template) := by
  refine ⟨⟨pieces template.toList, spells_iff.mpr rfl, fun _ => spells_iff.mp, fun env =>
    ⟨expand_of_lacksValue, fun hlacks => ?_⟩⟩,
    fun env => ⟨expand_eq_self env, expand_doubleSigns env⟩⟩
  obtain ⟨cs, hcs⟩ := Option.ne_none_iff_exists'.mp (substitute?_eq_none_iff.not.mpr hlacks)
  obtain ⟨values, hvalues, -⟩ := substitute?_eq_some_iff.mp hcs
  exact ⟨values, hvalues, expand_of_replaces hvalues⟩

/-- A fallback and a value with dollar signs in them are inserted as they are; where the last
variable is unset, the tilde and the fallback stay as they are too. -/
theorem expand_all_or_nothing_nested :
    let template := "~/$\x7bA:-$B\x7d/$C$$"
    let signs := "~$A$$/$\x7b"
    let env : Environment := ⟨[("HOME", "/home/user"), ("C", "$A")]⟩
    let poor : Environment := ⟨[("HOME", "/home/user"), ("B", "b")]⟩
    (¬ LacksValue env (pieces template.toList) ∧ expand env template = "/home/user/$B/$A$") ∧
      (LacksValue poor (pieces template.toList) ∧ expand poor template = template) ∧
      ('$' ∉ "a~/b".toList ∧ expand env "a~/b" = "a~/b") ∧
      ¬ ['~', '/'] <+: signs.toList ∧ expand env (doubleSigns signs) = signs := by
  intro template signs env poor
  obtain ⟨⟨spelled, -, hunique, hexpand⟩, -⟩ := expand_all_or_nothing template
  obtain rfl : pieces template.toList = spelled := hunique _ (spells_pieces _)
  have hfull : ¬ LacksValue env (pieces template.toList) := by decide +kernel
  have hpoor : LacksValue poor (pieces template.toList) := by decide +kernel
  have hplain := ((expand_all_or_nothing "a~/b").2 env).1 (by decide) (by decide)
  have hdoubled := ((expand_all_or_nothing signs).2 env).2 (by decide) (by decide)
  refine ⟨⟨hfull, ?_⟩, ⟨hpoor, (hexpand poor).1 hpoor⟩, ⟨by decide, hplain⟩, by decide, hdoubled⟩
  decide +kernel

end Triliteral.PathTemplate
