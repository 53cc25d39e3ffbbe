import Triliteral.Proofs.TomlValues

/-!
Printed documents. A document whose keys need no quotes and whose values have a written form is
read back from its text: the reader finds the printed lines one by one, and gathers their
statements into the same blocks again.
-/

namespace Triliteral.Toml

/-! ### Keys -/

def IsBareKey (key : String) : Prop :=
  key.toList ≠ [] ∧ key.toList.all Reader.isBare = true

instance (key : String) : Decidable (IsBareKey key) :=
  inferInstanceAs (Decidable (_ ∧ _))

/-- Holds of the dotted keys that are written without quotes and are not too long. -/
def IsBarePath (path : KeyPath) (key : String) : Prop :=
  path.length + 1 < Reader.nestingLimit ∧ ∀ part ∈ path ++ [key], IsBareKey part

theorem pathChars_cons (part : String) (path : KeyPath) (key : String) :
    pathChars (part :: path) key = part.toList ++ '.' :: pathChars path key := by
  simp [pathChars]

theorem IsBareKey.eq_cons {key : String} (h : IsBareKey key) :
    ∃ c rest, key.toList = c :: rest ∧ Reader.isBare c = true := by
  obtain ⟨hnil, hbare⟩ := h
  obtain ⟨c, rest, hkey⟩ := List.exists_cons_of_ne_nil hnil
  exact ⟨c, rest, hkey, List.all_eq_true.mp hbare c (hkey ▸ List.mem_cons_self)⟩

theorem pathChars_eq_cons {path : KeyPath} {key : String}
    (hbare : ∀ part ∈ path ++ [key], IsBareKey part) :
    ∃ c rest, pathChars path key = c :: rest ∧ Reader.isBare c = true := by
  cases path with
  | nil =>
      obtain ⟨c, rest, hkey, hc⟩ := (hbare key (by simp)).eq_cons
      exact ⟨c, rest, by simp [pathChars, hkey], hc⟩
  | cons part path =>
      obtain ⟨c, rest, hpart, hc⟩ := (hbare part (by simp)).eq_cons
      exact ⟨c, rest ++ '.' :: pathChars path key, by simp [pathChars_cons, hpart], hc⟩

namespace Reader

theorem isSpace_of_isBare {c : Char} (h : isBare c = true) : isSpace c = false := by
  rw [Bool.eq_false_iff]
  intro hspace
  simp only [isSpace, Bool.or_eq_true, beq_iff_eq] at hspace
  rcases hspace with rfl | rfl <;> exact absurd h (by decide)

theorem skipSpace_cons {c : Char} (h : isSpace c = false) (cs : List Char) :
    skipSpace (c :: cs) = c :: cs := by
  simp [skipSpace, h]

section Keys

variable {rest : List Char} (hrest : ∀ c ∈ rest.head?, isBare c = false)
include hrest

theorem simpleKey_bare {key : String} (h : IsBareKey key) :
    simpleKey (skipSpace (key.toList ++ rest)) = some (key, rest) := by
  obtain ⟨c, more, hkey, hc⟩ := h.eq_cons
  have hskip : skipSpace (key.toList ++ rest) = key.toList ++ rest := by
    rw [hkey, List.cons_append, skipSpace_cons (isSpace_of_isBare hc)]
  have htake : (key.toList ++ rest).takeWhile isBare = key.toList := by
    rw [List.takeWhile_append_of_pos (List.all_eq_true.mp h.2)]
    cases rest with
    | nil => simp
    | cons next rest => simp [hrest next rfl]
  rw [hskip, simpleKey, htake]
  split
  · next hnil => exact absurd hnil h.1
  · simp

omit hrest in
theorem moreKeys_end (hdot : (skipSpace rest).head? ≠ some '.') {limit : Nat}
    (hlimit : 0 < limit) : moreKeys limit rest = some ([], skipSpace rest) := by
  obtain ⟨limit, rfl⟩ := Nat.exists_eq_add_of_lt hlimit
  rw [moreKeys]
  split
  · next heq => exact absurd (heq ▸ rfl) hdot
  · rfl

theorem moreKeys_path {path : KeyPath} {key : String}
    (hbare : ∀ part ∈ path ++ [key], IsBareKey part)
    (hdot : (skipSpace rest).head? ≠ some '.') {limit : Nat}
    (hlimit : path.length + 1 < limit) :
    moreKeys limit ('.' :: (pathChars path key ++ rest)) =
      some (path ++ [key], skipSpace rest) := by
  have hskip : ∀ cs, skipSpace ('.' :: cs) = '.' :: cs := skipSpace_cons (by decide)
  induction path generalizing limit with
  | nil =>
      obtain ⟨limit, rfl⟩ := Nat.exists_eq_add_of_lt hlimit
      have hkey := simpleKey_bare hrest (hbare key (by simp))
      have hend := moreKeys_end hdot (by omega : 0 < 0 + 1 + limit)
      simp [moreKeys, hskip, pathChars, hkey, hend]
  | cons part path ih =>
      obtain ⟨limit, rfl⟩ := Nat.exists_eq_add_of_lt hlimit
      have hpart : simpleKey (skipSpace (part.toList ++ '.' :: (pathChars path key ++ rest))) =
          some (part, '.' :: (pathChars path key ++ rest)) :=
        simpleKey_bare (by simp [isBare, Char.isAlphanum]) (hbare part (by simp))
      have hmore : moreKeys (path.length + 1 + 1 + limit) ('.' :: (pathChars path key ++ rest)) =
          some (path ++ [key], skipSpace rest) :=
        ih (fun other hother => hbare other (List.mem_cons_of_mem part hother)) (by omega)
      simp [moreKeys, hskip, pathChars_cons, hpart, hmore]

/-- A dotted key is read back up to what follows the spaces after it. -/
theorem dottedKey_path {path : KeyPath} {key : String} (h : IsBarePath path key)
    (hdot : (skipSpace rest).head? ≠ some '.') :
    dottedKey (pathChars path key ++ rest) = some (path, key, skipSpace rest) := by
  obtain ⟨hlength, hbare⟩ := h
  cases path with
  | nil =>
      have hkey := simpleKey_bare hrest (hbare key (by simp))
      have hend := moreKeys_end hdot (by decide : 0 < nestingLimit - 1)
      simp [dottedKey, pathChars, hkey, hend]
  | cons part path =>
      have hpart : simpleKey (skipSpace (part.toList ++ '.' :: (pathChars path key ++ rest))) =
          some (part, '.' :: (pathChars path key ++ rest)) :=
        simpleKey_bare (by simp [isBare, Char.isAlphanum]) (hbare part (by simp))
      have hmore : moreKeys (nestingLimit - 1) ('.' :: (pathChars path key ++ rest)) =
          some (path ++ [key], skipSpace rest) := by
        refine moreKeys_path hrest (fun other hother => ?_) hdot ?_
        · exact hbare other (List.mem_cons_of_mem part hother)
        · exact Nat.lt_sub_of_add_lt hlength
      have hlast : (part :: (path ++ [key])).dropLast = part :: path := by
        rw [← List.cons_append, List.dropLast_concat]
      simp [dottedKey, pathChars_cons, hpart, hmore, hlast, List.getLast?_cons]

end Keys

/-! ### Statements -/

namespace Statement

def chars : Statement → List Char
  | .header h => h.line
  | .pair p => p.line

/-- Holds of the statements that are printed in a form of their own. -/
def Printable : Statement → Prop
  | .header (.table path key) => IsBarePath path key
  | .header (.element path key) => IsBarePath path key
  | .pair p => IsBarePath p.path p.key ∧ p.value.Printable

theorem printable_pair {key : String} {value : Value} (hkey : IsBareKey key)
    (hvalue : value.Printable) : (pair ⟨[], key, value⟩).Printable := by
  refine ⟨⟨by simp [nestingLimit], ?_⟩, hvalue⟩
  intro part hpart
  obtain rfl := List.mem_singleton.mp hpart
  exact hkey

end Statement

theorem dottedKey_bracket {path : KeyPath} {key : String} (h : IsBarePath path key)
    (rest : List Char) :
    dottedKey (pathChars path key ++ ']' :: rest) = some (path, key, ']' :: rest) := by
  have hskip : skipSpace (']' :: rest) = ']' :: rest := skipSpace_cons (by decide) rest
  have hkey := @dottedKey_path (']' :: rest) (by simp [isBare, Char.isAlphanum]) path key h
    (by simp [hskip])
  rwa [hskip] at hkey

theorem pair_line {p : Pair} (hpath : IsBarePath p.path p.key) (hvalue : p.value.Printable)
    (rest : List Char) :
    pair (value (nestingLimit - 1)) (p.line ++ rest) = some (p, '\n' :: rest) := by
  have hskip : skipSpace (' ' :: '=' :: ' ' :: (p.value.chars ++ '\n' :: rest)) =
      '=' :: ' ' :: (p.value.chars ++ '\n' :: rest) := by
    simp [skipSpace, isSpace]
  have hkey := @dottedKey_path (' ' :: '=' :: ' ' :: (p.value.chars ++ '\n' :: rest))
    (by simp [isBare, Char.isAlphanum]) p.path p.key hpath (by simp [hskip])
  have hspace : skipSpace (' ' :: (p.value.chars ++ '\n' :: rest)) =
      p.value.chars ++ '\n' :: rest := by
    obtain ⟨c, more, hchars, hc⟩ := hvalue.chars_eq_cons
    rw [hchars, List.cons_append, skipSpace, List.dropWhile_cons_of_pos (by decide)]
    exact skipSpace_cons hc _
  have hread : value (nestingLimit - 1) (p.value.chars ++ '\n' :: rest) =
      some (p.value, '\n' :: rest) := value_chars hvalue 78 rest
  rw [hskip] at hkey
  simp [pair, Pair.line, hkey, hspace, hread]

theorem statement_chars {s : Statement} (hs : s.Printable) (rest : List Char) :
    statement (s.chars ++ rest) = some (s, '\n' :: rest) := by
  have hbracket : ∀ {c : Char}, isBare c = true → c ≠ '[' := by
    rintro c hc rfl
    exact absurd hc (by decide)
  cases s with
  | header header =>
      cases header with
      | table path key =>
          have hkey := dottedKey_bracket hs ('\n' :: rest)
          obtain ⟨c, more, hchars, hc⟩ := pathChars_eq_cons hs.2
          rw [hchars, List.cons_append] at hkey
          simp only [Statement.chars, Header.line, hchars, List.cons_append, List.append_assoc,
            List.nil_append]
          unfold statement
          split
          · next heq =>
            simp only [List.cons.injEq] at heq
            exact absurd heq.2.1 (hbracket hc)
          · next heq =>
            obtain ⟨-, rfl⟩ := List.cons.inj heq
            simp [hkey]
          · next hnot => exact (hnot _ rfl).elim
      | element path key =>
          have hkey := dottedKey_bracket hs (']' :: '\n' :: rest)
          simp [Statement.chars, Header.line, statement, hkey]
  | pair p =>
      have hpair := pair_line hs.1 hs.2 rest
      obtain ⟨c, more, hchars, hc⟩ := pathChars_eq_cons hs.1.2
      simp only [Pair.line, hchars, List.cons_append, List.append_assoc] at hpair
      simp only [Statement.chars, Pair.line, hchars, List.cons_append, List.append_assoc]
      unfold statement
      split
      · next heq => exact absurd (List.cons.inj heq).1 (hbracket hc)
      · next heq => exact absurd (List.cons.inj heq).1 (hbracket hc)
      · rw [hpair]
        rfl

theorem Statement.chars_eq_cons {s : Statement} (hs : s.Printable) :
    ∃ c rest, s.chars = c :: rest ∧ (isBare c = true ∨ c = '[') := by
  cases s with
  | header header => cases header <;> exact ⟨_, _, rfl, .inr rfl⟩
  | pair p =>
      obtain ⟨c, more, hchars, hc⟩ := pathChars_eq_cons hs.1.2
      exact ⟨c, _, by rw [Statement.chars, Pair.line, hchars]; rfl, .inl hc⟩

/-! ### Lines -/

/-- The characters of a line, which is blank if there is no statement on it. -/
def lineChars : Option Statement → List Char
  | none => ['\n']
  | some s => s.chars

theorem statements_lines {lines : List (Option Statement)}
    (hlines : ∀ s, some s ∈ lines → s.Printable) {limit : Nat} (hlimit : lines.length < limit) :
    statements limit (lines.flatMap lineChars) = some (lines.filterMap id) := by
  induction lines generalizing limit with
  | nil =>
      obtain ⟨limit, rfl⟩ := Nat.exists_eq_add_of_lt hlimit
      rfl
  | cons line lines ih =>
      obtain ⟨limit, rfl⟩ := Nat.exists_eq_add_of_lt hlimit
      have hmore : statements (lines.length + 1 + limit) (lines.flatMap lineChars) =
          some (lines.filterMap id) :=
        ih (fun s hs => hlines s (List.mem_cons_of_mem line hs)) (by omega)
      cases line with
      | none =>
          simpa [lineChars, statements, skipSpace, skipComment, isSpace, trailing, lineEnd]
            using hmore
      | some s =>
          have hs := hlines s List.mem_cons_self
          have hread := statement_chars hs (lines.flatMap lineChars)
          obtain ⟨c, more, hchars, hc⟩ := Statement.chars_eq_cons hs
          have hspace : isSpace c = false := by
            rcases hc with hc | rfl
            · exact isSpace_of_isBare hc
            · decide
          have hstart : ¬ (c = '#' ∨ c = '\n' ∨ c = '\r') := by
            rintro (rfl | rfl | rfl) <;> exact absurd hc (by decide)
          have htrailing : trailing ('\n' :: lines.flatMap lineChars) =
              some (lines.flatMap lineChars) := rfl
          rw [hchars, List.cons_append] at hread
          rw [List.flatMap_cons, lineChars, hchars, List.cons_append, statements,
            skipSpace_cons hspace]
          simp only [if_neg hstart, hread, htrailing, Option.bind_eq_bind, Option.bind_some]
          rw [List.length_cons, hmore]
          rfl

end Reader

/-! ### Documents -/

open Reader

namespace Block

def statements (block : Block) : List Statement :=
  .header block.header :: block.pairs.map .pair

end Block

/-- The statements on the lines of some blocks, with a blank line between each two. -/
def blocksLines : List Block → List (Option Statement)
  | [] => []
  | [block] => block.statements.map some
  | block :: rest => block.statements.map some ++ none :: blocksLines rest

namespace Document

def statements (document : Document) : List Statement :=
  document.opening.map .pair ++ document.blocks.flatMap Block.statements

def lines (document : Document) : List (Option Statement) :=
  document.opening.map (fun p => some (.pair p)) ++
    (if document.opening.isEmpty || document.blocks.isEmpty then [] else [none]) ++
    blocksLines document.blocks

def Printable (document : Document) : Prop :=
  ∀ s ∈ document.statements, s.Printable

end Document

theorem Block.flatMap_lineChars (block : Block) :
    (block.statements.map some).flatMap lineChars = block.chars := by
  simp [Block.statements, Block.chars, List.flatMap_map, lineChars, Statement.chars]

theorem flatMap_blocksLines (blocks : List Block) :
    (blocksLines blocks).flatMap lineChars = blocksChars blocks := by
  induction blocks using blocksLines.induct with
  | case1 => rfl
  | case2 block => exact block.flatMap_lineChars
  | case3 block rest hrest ih =>
      rw [blocksLines, blocksChars, List.flatMap_append, block.flatMap_lineChars,
        List.flatMap_cons, ih, lineChars, List.singleton_append]
      · exact hrest
      · exact hrest

theorem filterMap_blocksLines (blocks : List Block) :
    (blocksLines blocks).filterMap id = blocks.flatMap Block.statements := by
  induction blocks using blocksLines.induct with
  | case1 => rfl
  | case2 block => simp [blocksLines]
  | case3 block rest hrest ih =>
      rw [blocksLines, List.filterMap_append, List.filterMap_cons, ih, List.flatMap_cons]
      · simp
      · exact hrest

namespace Document

theorem flatMap_lines (document : Document) :
    document.lines.flatMap lineChars = document.chars := by
  rw [lines, chars, List.flatMap_append, List.flatMap_append, flatMap_blocksLines,
    List.flatMap_map]
  split <;> rfl

theorem filterMap_lines (document : Document) :
    document.lines.filterMap id = document.statements := by
  rw [lines, statements, List.filterMap_append, List.filterMap_append, filterMap_blocksLines]
  split <;> simp

end Document

theorem gather_pairs (pairs : List Pair) (statements : List Statement) :
    gather (pairs.map .pair ++ statements) =
      (pairs ++ (gather statements).1, (gather statements).2) := by
  induction pairs with
  | nil => rfl
  | cons p pairs ih => rw [List.map_cons, List.cons_append, gather, ih]; rfl

theorem gather_blocks (blocks : List Block) :
    gather (blocks.flatMap Block.statements) = ([], blocks) := by
  induction blocks with
  | nil => rfl
  | cons block blocks ih =>
      rw [List.flatMap_cons, Block.statements, List.cons_append, gather, gather_pairs, ih]
      simp

namespace Document

theorem length_lines_le (document : Document) :
    document.lines.length ≤ document.chars.length := by
  have hline : ∀ line : Option Statement, 0 < (lineChars line).length := by
    intro line
    rcases line with _ | (_ | _) | p
    · exact Nat.one_pos
    · exact Nat.succ_pos _
    · exact Nat.succ_pos _
    · simp only [lineChars, Statement.chars, Pair.line, List.length_append, List.length_cons]
      omega
  rw [← flatMap_lines]
  induction document.lines with
  | nil => exact Nat.le_refl 0
  | cons line lines ih =>
      have := hline line
      rw [List.flatMap_cons, List.length_append, List.length_cons]
      omega

theorem mem_lines {document : Document} {s : Statement} :
    some s ∈ document.lines ↔ s ∈ document.statements := by
  simp [← filterMap_lines]

/-- The text of a printed document does not start with a byte order mark. -/
theorem dropMark_chars {document : Document} (h : document.Printable) :
    dropMark document.chars = document.chars := by
  have hlines : ∀ s, some s ∈ document.lines → s.Printable := by
    intro s hs
    exact h s (mem_lines.mp hs)
  rw [← flatMap_lines]
  rcases hdocument : document.lines with _ | ⟨_ | s, lines⟩
  · rfl
  · rfl
  · have hs := hlines s (hdocument ▸ List.mem_cons_self)
    obtain ⟨c, more, hchars, hc⟩ := Statement.chars_eq_cons hs
    have hmark : c ≠ '\uFEFF' := by
      rintro rfl
      exact absurd hc (by decide)
    simp [lineChars, hchars, dropMark, hmark]

/-- A printed document is read back from its text. -/
theorem read?_chars {document : Document} (h : document.Printable) :
    read? document.chars = some document := by
  have hlines : ∀ s, some s ∈ document.lines → s.Printable := by
    intro s hs
    exact h s (mem_lines.mp hs)
  have hstatements := statements_lines hlines (Nat.lt_succ_of_le document.length_lines_le)
  rw [flatMap_lines, filterMap_lines, statements] at hstatements
  rw [read?, dropMark_chars h, hstatements]
  simp [gather_pairs, gather_blocks]

end Document

end Triliteral.Toml
