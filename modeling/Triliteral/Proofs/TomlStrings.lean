import Triliteral.Toml.Quote
import Triliteral.Toml.Unquote

/-!
Strings in quotes. Whatever kind of string a text is written as, the reader gives the text
back and stops at the end of the string.
-/

namespace Triliteral.Toml

namespace Quote

theorem le_longestRun (quote : Char) (run longest : Nat) (cs : List Char) :
    run ≤ longestRun.go quote run longest cs ∧
      longest ≤ longestRun.go quote run longest cs := by
  induction cs generalizing run longest with
  | nil => exact ⟨Nat.le_max_left run longest, Nat.le_max_right run longest⟩
  | cons c cs ih =>
      rw [longestRun.go]
      split
      · have := ih (run + 1) longest
        omega
      · have := ih 0 (max run longest)
        omega

theorem not_mem_of_longestRun {quote : Char} {run longest : Nat} {cs : List Char}
    (h : longestRun.go quote run longest cs = 0) : quote ∉ cs := by
  induction cs generalizing run longest with
  | nil => exact List.not_mem_nil
  | cons c cs ih =>
      rw [longestRun.go] at h
      split at h
      · have := le_longestRun quote (run + 1) longest cs
        omega
      · next hc => exact List.not_mem_cons_of_ne_of_not_mem (Ne.symm hc) (ih h)

theorem escaped_eq_cons {c : Char} (hquote : c ≠ '"') :
    ∃ first rest, escaped c = first :: rest ∧ first ≠ '"' ∧ first ≠ '\r' ∧
      (first = '\n' → c = '\n') := by
  have hslash : ∀ more, ∃ first rest, '\\' :: more = first :: rest ∧ first ≠ '"' ∧
      first ≠ '\r' ∧ (first = '\n' → c = '\n') := fun more => ⟨'\\', more, rfl, by simp⟩
  unfold escaped
  split
  · exact hslash _
  split
  · exact hslash _
  split
  · exact hslash _
  split
  · exact hslash _
  · next hreturn =>
    split
    · exact hslash _
    split
    · exact hslash _
    · exact ⟨_, _, rfl, hquote, hreturn, id⟩

theorem of_styleOf_literal {cs : List Char} (h : styleOf cs = .literal) :
    (∀ c ∈ cs, isControl c = false) ∧ '\n' ∉ cs ∧ '\'' ∉ cs := by
  have hstyle : cs.any isControl = false ∧ longestRun '\'' cs = 0 ∧
      cs.contains '\n' = false := by
    grind [styleOf]
  obtain ⟨hcontrol, hquotes, hline⟩ := hstyle
  exact ⟨by simpa using hcontrol, by simpa using hline, not_mem_of_longestRun hquotes⟩

theorem of_styleOf_multilineLiteral {cs : List Char} (h : styleOf cs = .multilineLiteral) :
    (∀ c ∈ cs, isControl c = false) ∧ longestRun '\'' cs ≤ 2 := by
  have hstyle : cs.any isControl = false ∧ longestRun '\'' cs ≤ 2 := by
    grind [styleOf]
  exact ⟨by simpa using hstyle.1, hstyle.2⟩

theorem head?_basicBody (cs : List Char) : (basicBody cs).head? ≠ some '"' := by
  cases cs with
  | nil => simp [basicBody]
  | cons c cs =>
      rw [basicBody, List.flatMap_cons]
      split
      · simp
      split
      · simp
      · next hquote _ =>
        obtain ⟨first, rest, hescaped, hfirst, -⟩ := escaped_eq_cons hquote
        simpa [hescaped] using hfirst

theorem head?_multilineBody {cs : List Char} (hline : '\n' ∉ cs) (rest : List Char) :
    (multilineBody 0 cs ++ '"' :: rest).head? ≠ some '\n' ∧
      (multilineBody 0 cs ++ '"' :: rest).head? ≠ some '\r' := by
  cases cs with
  | nil => simp [multilineBody]
  | cons c cs =>
      rw [multilineBody]
      split
      · simp
      · next hquote =>
        obtain ⟨first, more, hescaped, -, hreturn, hfirst⟩ := escaped_eq_cons hquote
        have hc : c ≠ '\n' := fun hc => hline (hc ▸ List.mem_cons_self)
        simpa [hescaped, hreturn] using fun h => hc (hfirst h)

theorem head?_literal {cs : List Char} (hcontrol : ∀ c ∈ cs, isControl c = false)
    (hline : '\n' ∉ cs) (rest : List Char) :
    (cs ++ '\'' :: rest).head? ≠ some '\n' ∧ (cs ++ '\'' :: rest).head? ≠ some '\r' := by
  cases cs with
  | nil => simp
  | cons c cs =>
      have hc : c ≠ '\n' := fun hc => hline (hc ▸ List.mem_cons_self)
      have hreturn : c ≠ '\r' := by
        rintro rfl
        exact absurd (hcontrol _ List.mem_cons_self) (by decide)
      simp [hc, hreturn]

end Quote

namespace Unquote

/-! ### Reading in parts -/

/-- Reading some characters leads from one state to another and adds a text. -/
def Advances (d : Delimiter) (state : State) (cs text : List Char) (next : State) : Prop :=
  ∀ ⦃rest more after : List Char⦄, scan d next rest = some (more, after) →
    scan d state (cs ++ rest) = some (text ++ more, after)

variable {d : Delimiter} {state next last : State} {c : Char}

theorem advances_of_step {text : List Char} (h : step d state c = .proceed text next) :
    Advances d state [c] text next := by
  intro rest more after hrest
  rw [List.cons_append, List.nil_append, scan, h]
  simp only [hrest, Option.map_some]

theorem Advances.trans {cs cs' text text' : List Char} (h : Advances d state cs text next)
    (h' : Advances d next cs' text' last) :
    Advances d state (cs ++ cs') (text ++ text') last := by
  intro rest more after hrest
  rw [List.append_assoc, List.append_assoc]
  exact h (h' hrest)

/-- Where a run of quotes is counted that is still too short to close a string. -/
def pending (run : Nat) : State :=
  if run = 0 then .text else .quotes run

theorem step_pending_quote (hd : d.multiline = true) {run : Nat} (hrun : run ≤ 2) :
    step d (pending run) d.quote = .proceed [] (pending (run + 1)) := by
  by_cases hzero : run = 0
  · simp [pending, hzero, step, textStep, hd]
  · have hlt : run < 5 := by omega
    simp [pending, hzero, step, hlt]

theorem step_pending {run : Nat} (hrun : run ≤ 2) (hc : c ≠ d.quote) :
    step d (pending run) c = (textStep d c).after (List.replicate run d.quote) := by
  by_cases hzero : run = 0
  · subst hzero
    cases h : textStep d c <;> simp [pending, step, Step.after, h]
  · have hshort : ¬ 3 ≤ run := by omega
    simp [pending, hzero, step, hc, hshort]

/-- Quotes that do not close the string are part of its text. -/
theorem advances_pending {run : Nat} (hrun : run ≤ 2) (hc : c ≠ d.quote) {cs text : List Char}
    (h : Advances d .text (c :: cs) text next) :
    Advances d (pending run) (c :: cs) (List.replicate run d.quote ++ text) next := by
  intro rest more after hrest
  have hread := h hrest
  rw [List.cons_append, scan] at hread ⊢
  have htext : step d .text c = textStep d c := rfl
  rw [htext] at hread
  rw [step_pending hrun hc]
  cases hstep : textStep d c with
  | refuse => simp [hstep] at hread
  | stop text' =>
      rw [hstep] at hread
      simp only [Option.some.injEq, Prod.mk.injEq] at hread
      simp only [Step.after, ← hread.1, ← hread.2, List.append_assoc]
  | proceed text' next' =>
      rw [hstep] at hread
      obtain ⟨⟨more', after'⟩, hscan, hpair⟩ := Option.map_eq_some_iff.mp hread
      simp only [Prod.mk.injEq] at hpair
      simp only [Step.after, hscan, Option.map_some, List.append_assoc, hpair.1, hpair.2]

/-- The closing quotes of a string over several lines, with up to two quotes before them that
are part of the text. -/
theorem scan_closing (hd : d.multiline = true) (hline : d.quote ≠ '\n') {run : Nat}
    (hrun : run ≤ 2) (rest : List Char) :
    scan d (pending run) (d.quote :: d.quote :: d.quote :: '\n' :: rest) =
      some (List.replicate run d.quote, '\n' :: rest) := by
  have hquotes : scan d (.quotes (run + 1)) (d.quote :: d.quote :: '\n' :: rest) =
      some (List.replicate run d.quote, '\n' :: rest) := by
    have hfirst : run + 1 < 5 := by omega
    have hsecond : run + 1 + 1 < 5 := by omega
    simp [scan, step, hfirst, hsecond, hline.symm]
  have hquote : Advances d (pending run) [d.quote] [] (.quotes (run + 1)) := by
    apply advances_of_step
    rw [step_pending_quote hd hrun, pending, if_neg (Nat.succ_ne_zero run)]
  exact hquote hquotes

/-- A line end is dropped only directly after the opening quotes. -/
theorem scan_opening {cs : List Char} (hline : cs.head? ≠ some '\n')
    (hreturn : cs.head? ≠ some '\r') : scan d .opening cs = scan d .text cs := by
  cases cs with
  | nil => rfl
  | cons c cs =>
      have hc : c ≠ '\n' := by simpa using hline
      have hc' : c ≠ '\r' := by simpa using hreturn
      rw [scan, scan, step, step, if_neg hc, if_neg hc']

theorem hexValue?_hexDigit {n : Nat} (h : n < 16) :
    hexValue? (Quote.hexDigit n) = some n := by
  have hall : ∀ n < 16, hexValue? (Quote.hexDigit n) = some n := by decide
  exact hall n h

theorem isPlain_of_isControl {c : Char} (hcontrol : Quote.isControl c = false)
    (hline : c ≠ '\n') : isPlain c = true := by
  simp only [Quote.isControl, Bool.or_eq_false_iff, Bool.and_eq_false_iff, bne_eq_false_iff_eq,
    decide_eq_false_iff_not, beq_eq_false_iff_ne] at hcontrol
  simp only [isPlain, Bool.or_eq_true, Bool.and_eq_true, beq_iff_eq, bne_iff_ne,
    decide_eq_true_eq]
  grind

/-! ### Bodies -/

theorem advances_escape (hd : d.quote = '"') {cs text : List Char}
    (h : Advances d .escape cs text next) : Advances d .text ('\\' :: cs) text next := by
  have hbackslash : step d .text '\\' = .proceed [] .escape := by
    simp [step, textStep, hd]
  exact (advances_of_step hbackslash).trans h

theorem advances_escapedQuote (hd : d.quote = '"') :
    Advances d .text ['\\', '"'] ['"'] .text :=
  advances_escape hd (advances_of_step rfl)

/-- The last two digits of an escape by code point tell the character, the others are zeros. -/
theorem advances_codePoint (hsmall : c.toNat < 256) :
    Advances d .escape
      ['u', '0', '0', Quote.hexDigit (c.toNat / 16), Quote.hexDigit (c.toNat % 16)] [c]
      .text := by
  have hzeros : Advances d .escape ['u', '0', '0'] [] (.codePoint 2 0) :=
    (advances_of_step (rfl : step d .escape 'u' = .proceed [] (.codePoint 4 0))).trans
      ((advances_of_step (rfl : step d (.codePoint 4 0) '0' =
        .proceed [] (.codePoint 3 0))).trans
        (advances_of_step (rfl : step d (.codePoint 3 0) '0' =
          .proceed [] (.codePoint 2 0))))
  have hfirst : step d (.codePoint 2 0) (Quote.hexDigit (c.toNat / 16)) =
      .proceed [] (.codePoint 1 (c.toNat / 16)) := by
    simp [step, codePointStep, hexValue?_hexDigit (by omega : c.toNat / 16 < 16)]
  have hvalue : 16 * (c.toNat / 16) + c.toNat % 16 = c.toNat := Nat.div_add_mod _ _
  have hsecond : step d (.codePoint 1 (c.toNat / 16)) (Quote.hexDigit (c.toNat % 16)) =
      .proceed [c] .text := by
    have hvalid : c.toNat.isValidChar := c.valid
    simp [step, codePointStep, hexValue?_hexDigit (by omega : c.toNat % 16 < 16), hvalue, hvalid]
  exact hzeros.trans ((advances_of_step hfirst).trans (advances_of_step hsecond))

theorem advances_escaped (hd : d.quote = '"') (hquote : c ≠ '"')
    (hline : c = '\n' → d.multiline = true) :
    Advances d .text (Quote.escaped c) [c] .text := by
  unfold Quote.escaped
  split
  · next hc =>
    subst hc
    exact advances_escape hd (advances_of_step rfl)
  split
  · next hc =>
    subst hc
    exact advances_escape hd (advances_of_step rfl)
  split
  · next hc =>
    subst hc
    exact advances_escape hd (advances_of_step rfl)
  split
  · next hc =>
    subst hc
    exact advances_escape hd (advances_of_step rfl)
  split
  · next hc =>
    subst hc
    exact advances_escape hd (advances_of_step rfl)
  split
  · next hcontrol =>
    have hsmall : c.toNat < 256 := by
      simp only [Quote.isControl, Bool.or_eq_true, Bool.and_eq_true, decide_eq_true_eq,
        beq_iff_eq] at hcontrol
      omega
    exact advances_escape hd (advances_codePoint hsmall)
  · next hreturn hslash hcontrol =>
    apply advances_of_step
    simp only [step, textStep, hd, hquote, hslash, hreturn]
    by_cases hc : c = '\n'
    · simp [hc, hline hc]
    · have hplain := isPlain_of_isControl (Bool.eq_false_iff.mpr hcontrol) hc
      simp [hc, hplain]

theorem scan_basicBody (cs rest : List Char) :
    scan ⟨'"', false⟩ .text (Quote.basicBody cs ++ '"' :: '\n' :: rest) =
      some (cs, '\n' :: rest) := by
  induction cs with
  | nil => simp [Quote.basicBody, scan, step, textStep]
  | cons c cs ih =>
      rw [Quote.basicBody, List.flatMap_cons, List.append_assoc]
      rw [Quote.basicBody] at ih
      split
      · next hc =>
        subst hc
        exact advances_escapedQuote rfl ih
      split
      · next hc =>
        subst hc
        have hescaped : Advances ⟨'"', false⟩ .text ['\\', 'n'] ['\n'] .text :=
          advances_escape rfl (advances_of_step rfl)
        exact hescaped ih
      · next hquote hline => exact advances_escaped rfl hquote (fun hc => absurd hc hline) ih

theorem scan_multilineBody {run : Nat} (hrun : run ≤ 2) (cs rest : List Char) :
    scan ⟨'"', true⟩ (pending run)
        (Quote.multilineBody run cs ++ '"' :: '"' :: '"' :: '\n' :: rest) =
      some (List.replicate run '"' ++ cs, '\n' :: rest) := by
  -- The third quote of a run is escaped, so never more than two wait to be told from closing ones.
  induction cs generalizing run with
  | nil => simpa [Quote.multilineBody] using scan_closing rfl (by decide) hrun rest
  | cons c cs ih =>
      rw [Quote.multilineBody]
      split
      · next hc =>
        subst hc
        split
        · next htwo =>
          subst htwo
          have hread : Advances ⟨'"', true⟩ .text ['\\', '"'] ['"'] .text :=
            advances_escapedQuote rfl
          have hescaped := advances_pending hrun (by decide) hread
          exact hescaped (ih (Nat.zero_le 2))
        · next htwo =>
          have hquote := advances_of_step (step_pending_quote (d := ⟨'"', true⟩) rfl hrun)
          have := hquote (ih (by omega : run + 1 ≤ 2))
          simpa [List.replicate_succ'] using this
      · next hc =>
        obtain ⟨first, more, hescaped, hfirst, -⟩ := Quote.escaped_eq_cons hc
        have hread := advances_escaped (d := ⟨'"', true⟩) rfl hc fun _ => rfl
        rw [hescaped] at hread ⊢
        have := advances_pending hrun hfirst hread (ih (Nat.zero_le 2))
        simpa using this

theorem textStep_literal (hd : d.quote = '\'') (hquote : c ≠ '\'')
    (hcontrol : Quote.isControl c = false) (hline : c = '\n' → d.multiline = true) :
    textStep d c = .proceed [c] .text := by
  have hreturn : c ≠ '\r' := by
    rintro rfl
    exact absurd hcontrol (by decide)
  by_cases hc : c = '\n'
  · simp [textStep, hd, hc, hline hc]
  · have hplain := isPlain_of_isControl hcontrol hc
    simp [textStep, hd, hquote, hc, hreturn, hplain]

theorem scan_literalBody {cs : List Char} (hcontrol : ∀ c ∈ cs, Quote.isControl c = false)
    (hline : '\n' ∉ cs) (hquote : '\'' ∉ cs) (rest : List Char) :
    scan ⟨'\'', false⟩ .text (cs ++ '\'' :: '\n' :: rest) = some (cs, '\n' :: rest) := by
  induction cs with
  | nil => simp [scan, step, textStep]
  | cons c cs ih =>
      simp only [List.mem_cons, forall_eq_or_imp, not_or] at hcontrol hline hquote
      have hread : Advances ⟨'\'', false⟩ .text [c] [c] .text := by
        apply advances_of_step
        exact textStep_literal rfl (Ne.symm hquote.1) hcontrol.1
          fun hc => absurd hc (Ne.symm hline.1)
      exact hread (ih hcontrol.2 hline.2 hquote.2)

theorem scan_multilineLiteral {cs : List Char} (hcontrol : ∀ c ∈ cs, Quote.isControl c = false)
    {run longest : Nat} (hruns : Quote.longestRun.go '\'' run longest cs ≤ 2)
    (rest : List Char) :
    scan ⟨'\'', true⟩ (pending run) (cs ++ '\'' :: '\'' :: '\'' :: '\n' :: rest) =
      some (List.replicate run '\'' ++ cs, '\n' :: rest) := by
  have hrun : run ≤ 2 := Nat.le_trans (Quote.le_longestRun '\'' run longest cs).1 hruns
  -- The run that the style has counted so far is the one in which the reader is.
  induction cs generalizing run longest with
  | nil => simpa using scan_closing rfl (by decide) hrun rest
  | cons c cs ih =>
      rw [List.forall_mem_cons] at hcontrol
      rw [Quote.longestRun.go] at hruns
      split at hruns
      · next hc =>
        subst hc
        have hrun' := Nat.le_trans (Quote.le_longestRun '\'' (run + 1) longest cs).1 hruns
        have hquote : Advances ⟨'\'', true⟩ (pending run) ['\''] [] (pending (run + 1)) :=
          advances_of_step (step_pending_quote rfl hrun)
        have hread := hquote (ih hcontrol.2 hruns hrun')
        simpa [List.replicate_succ'] using hread
      · next hc =>
        have htext : Advances ⟨'\'', true⟩ .text [c] [c] .text :=
          advances_of_step (textStep_literal rfl hc hcontrol.1 fun _ => rfl)
        have hread := advances_pending hrun hc htext (ih hcontrol.2 hruns (Nat.zero_le 2))
        simpa using hread

/-! ### Whole strings -/

theorem read_of_basic {cs : List Char} (hopen : ¬ ['"', '"'] <+: cs) :
    read ('"' :: cs) = (scan ⟨'"', false⟩ .text cs).map fun (cs, rest) =>
      (String.ofList cs, rest) := by
  unfold read
  split
  · next heq => simp_all
  · next heq => simp at heq
  · rfl

theorem read_of_literal {cs : List Char} (hopen : ¬ ['\'', '\''] <+: cs) :
    read ('\'' :: cs) = (scan ⟨'\'', false⟩ .text cs).map fun (cs, rest) =>
      (String.ofList cs, rest) := by
  unfold read
  split
  · next heq => simp at heq
  · next heq => simp_all
  · rfl

theorem scan_openingLine {cs body : List Char}
    (hhead : '\n' ∉ cs → body.head? ≠ some '\n' ∧ body.head? ≠ some '\r') :
    scan d .opening (Quote.opening cs ++ body) = scan d .text body := by
  unfold Quote.opening
  split
  · have hread : scan d .opening ('\n' :: body) = scan d .text body := by
      cases hbody : scan d .text body <;> simp [scan, step, hbody]
    exact hread
  · next hline =>
    obtain ⟨hbody, hbody'⟩ := hhead (by simpa using hline)
    exact scan_opening hbody hbody'

/-- Every text is read back from its string, up to the end of the line. -/
theorem read_chars (cs rest : List Char) :
    read (Quote.chars cs ++ '\n' :: rest) = some (String.ofList cs, '\n' :: rest) := by
  unfold Quote.chars
  split
  · have hopen : ¬ ['"', '"'] <+: Quote.basicBody cs ++ '"' :: '\n' :: rest := by
      have hhead := Quote.head?_basicBody cs
      cases hbody : Quote.basicBody cs with
      | nil => simp
      | cons c body =>
          rw [hbody] at hhead
          simpa [List.cons_prefix_cons] using fun h => absurd h.symm (by simpa using hhead)
    have hread := read_of_basic hopen
    rw [scan_basicBody] at hread
    simpa using hread
  · next hstyle =>
    obtain ⟨hcontrol, hline, hquote⟩ := Quote.of_styleOf_literal hstyle
    have hopen : ¬ ['\'', '\''] <+: cs ++ '\'' :: '\n' :: rest := by
      cases cs <;> simp_all
    have hread := read_of_literal hopen
    rw [scan_literalBody hcontrol hline hquote] at hread
    simpa using hread
  · have hscan := @scan_openingLine ⟨'"', true⟩ cs _ fun hline =>
      Quote.head?_multilineBody hline ('"' :: '"' :: '\n' :: rest)
    have htext := scan_multilineBody (Nat.zero_le 2) cs rest
    simp only [pending, if_true] at htext
    rw [htext] at hscan
    simp [read, hscan]
  · next hstyle =>
    obtain ⟨hcontrol, hquotes⟩ := Quote.of_styleOf_multilineLiteral hstyle
    have hscan := @scan_openingLine ⟨'\'', true⟩ cs _ fun hline =>
      Quote.head?_literal hcontrol hline ('\'' :: '\'' :: '\n' :: rest)
    have htext := scan_multilineLiteral hcontrol hquotes rest
    simp only [pending, if_true] at htext
    rw [htext] at hscan
    simp [read, hscan]

end Unquote

end Triliteral.Toml
