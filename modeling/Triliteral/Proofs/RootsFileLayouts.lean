import Triliteral.Proofs.BulkLoads
import Triliteral.Proofs.SnapshotFile
import Triliteral.Proofs.Trimming

/-!
Layouts of files of roots. The reader finds the candidates of a file however they are laid out on
lines of their own; and every file is a layout of the candidates that it finds there.
-/

namespace Triliteral

namespace RootsFile

/-! ### Lines -/

variable {line rest before after padding ending : List Char} {item : String}

theorem splitLines_ne_nil (cs : List Char) : splitLines cs ≠ [] := by
  cases cs with
  | nil => simp [splitLines]
  | cons c rest =>
      rw [splitLines]
      split
      · simp
      · split <;> simp

theorem splitLines_of_not_mem (h : '\n' ∉ line) : splitLines line = [line] := by
  induction line with
  | nil => rfl
  | cons c rest ih =>
      rw [List.mem_cons, not_or] at h
      rw [splitLines, ih h.2]
      exact if_neg (Ne.symm h.1)

theorem splitLines_append (h : '\n' ∉ line) (rest : List Char) :
    splitLines (line ++ '\n' :: rest) = line :: splitLines rest := by
  induction line with
  | nil =>
      rw [List.nil_append, splitLines]
      cases hrest : splitLines rest with
      | nil => exact absurd hrest (splitLines_ne_nil rest)
      | cons first lines => rfl
  | cons c line ih =>
      rw [List.mem_cons, not_or] at h
      rw [List.cons_append, splitLines, ih h.2]
      exact if_neg (Ne.symm h.1)

/-- Induction over the lines of a text, the last of which is not ended. -/
@[elab_as_elim]
theorem lines_induction {motive : List Char → Prop}
    (last : ∀ line, '\n' ∉ line → motive line)
    (line : ∀ line rest, '\n' ∉ line → motive rest → motive (line ++ '\n' :: rest))
    (cs : List Char) : motive cs := by
  by_cases h : '\n' ∈ cs
  · obtain ⟨first, rest, hcut, hfirst⟩ := List.eq_append_cons_of_mem h
    have hshorter : rest.length < cs.length := by
      rw [hcut, List.length_append, List.length_cons]
      omega
    rw [hcut]
    exact line first rest hfirst (lines_induction last line rest)
  · exact last cs h
termination_by cs.length

def onLine (line : List Char) : List String :=
  if (Text.trimChars line).isEmpty then [] else [String.ofList (Text.trimChars line)]

theorem candidates_eq_flatMap (text : String) :
    candidates text = (splitLines text.toList).flatMap onLine := by
  rw [candidates]
  induction splitLines text.toList with
  | nil => rfl
  | cons line lines ih =>
      rw [List.flatMap_cons, ← ih, List.map_cons, List.filter_cons, onLine]
      cases (Text.trimChars line).isEmpty <;> rfl

/-! ### Candidates and the blanks around them -/

/-- Holds of a text that can stand on a line with blanks around it: it does not end the line, and
none of the blanks belongs to it. -/
def FitsLine (text : String) : Prop :=
  '\n' ∉ text.toList ∧ Text.HasBareEnds text.toList

instance (text : String) : Decidable (FitsLine text) :=
  inferInstanceAs (Decidable (_ ∧ _))

def IsCandidate (text : String) : Prop :=
  text ≠ "" ∧ FitsLine text

instance (text : String) : Decidable (IsCandidate text) :=
  inferInstanceAs (Decidable (_ ∧ _))

def IsPadding (cs : List Char) : Prop :=
  ∀ c ∈ cs, Text.isBlank c = true ∧ c ≠ '\n'

instance (cs : List Char) : Decidable (IsPadding cs) :=
  decidable_of_iff ((cs.all fun c => Text.isBlank c && c != '\n') = true) <| by
    simp only [IsPadding, List.all_eq_true, Bool.and_eq_true, bne_iff_ne]

theorem IsPadding.append (hbefore : IsPadding before) (hafter : IsPadding after) :
    IsPadding (before ++ after) := by
  intro c hc
  exact (List.mem_append.mp hc).elim (hbefore c) (hafter c)

theorem IsPadding.not_mem (h : IsPadding padding) : '\n' ∉ padding :=
  fun hmem => (h '\n' hmem).2 rfl

theorem onLine_padding (h : IsPadding padding) : onLine padding = [] := by
  have htrim : Text.trimChars (padding ++ [] ++ []) = [] :=
    Text.trimChars_append (fun c hc => (h c hc).1) (by decide) (by simp)
  rw [List.append_nil, List.append_nil] at htrim
  rw [onLine, htrim]
  rfl

theorem onLine_item (hbefore : IsPadding before) (hitem : IsCandidate item)
    (hafter : IsPadding after) : onLine (before ++ item.toList ++ after) = [item] := by
  obtain ⟨hne, -, hends⟩ := hitem
  rw [onLine, Text.trimChars_append (fun c hc => (hbefore c hc).1) hends
    fun c hc => (hafter c hc).1, if_neg (by simpa using hne), String.ofList_toList]

theorem not_mem_line (hbefore : IsPadding before) (hitem : FitsLine item)
    (hafter : IsPadding after) : '\n' ∉ before ++ item.toList ++ after := by
  rw [List.mem_append, List.mem_append]
  rintro ((h | h) | h)
  · exact hbefore.not_mem h
  · exact hitem.1 h
  · exact hafter.not_mem h

theorem onLine_cases (h : '\n' ∉ line) :
    (IsPadding line ∧ onLine line = []) ∨
    ∃ before item after, line = before ++ item.toList ++ after ∧
      IsPadding before ∧ IsCandidate item ∧ IsPadding after ∧ onLine line = [item] := by
  obtain ⟨before, after, hcut, hbefore, hafter, hends⟩ := Text.exists_eq_append_trimChars line
  have hparts : '\n' ∉ before ∧ '\n' ∉ Text.trimChars line ∧ '\n' ∉ after := by
    rw [hcut, List.mem_append, List.mem_append, not_or, not_or, and_assoc] at h
    exact h
  have hbefore : IsPadding before := fun c hc => ⟨hbefore c hc, ne_of_mem_of_not_mem hc hparts.1⟩
  have hafter : IsPadding after := fun c hc => ⟨hafter c hc, ne_of_mem_of_not_mem hc hparts.2.2⟩
  by_cases hempty : Text.trimChars line = []
  · rw [hempty, List.append_nil] at hcut
    have hpadding : IsPadding line := hcut ▸ hbefore.append hafter
    exact .inl ⟨hpadding, onLine_padding hpadding⟩
  · have hitem : IsCandidate (String.ofList (Text.trimChars line)) := by
      refine ⟨?_, ?_, ?_⟩
      · simpa using hempty
      · rw [String.toList_ofList]
        exact hparts.2.1
      · rwa [String.toList_ofList]
    refine .inr ⟨before, String.ofList (Text.trimChars line), after, ?_, hbefore, hitem, hafter, ?_⟩
    · rwa [String.toList_ofList]
    · rw [onLine, if_neg (by simpa using hempty)]

/-! ### Layouts -/

def lineEnds : List (List Char) :=
  [['\n'], ['\r', '\n']]

/-- The ways of writing texts in order, one on a line: with blanks around each, with blank lines
anywhere, with line ends of both kinds, and with or without one at the end. -/
inductive Layout : List String → List Char → Prop where
  | lastBlank {padding : List Char} (hpadding : IsPadding padding) : Layout [] padding
  | lastItem {before after : List Char} {item : String} (hbefore : IsPadding before)
      (hafter : IsPadding after) : Layout [item] (before ++ item.toList ++ after)
  | blankLine {padding ending rest : List Char} {items : List String}
      (hpadding : IsPadding padding) (hending : ending ∈ lineEnds) (hrest : Layout items rest) :
      Layout items (padding ++ ending ++ rest)
  | itemLine {before after ending rest : List Char} {item : String} {items : List String}
      (hbefore : IsPadding before) (hafter : IsPadding after) (hending : ending ∈ lineEnds)
      (hrest : Layout items rest) :
      Layout (item :: items) (before ++ item.toList ++ after ++ ending ++ rest)

/-- A carriage return before a line feed is a blank at the end of the line. -/
theorem exists_padding_of_mem_lineEnds (h : ending ∈ lineEnds) :
    ∃ padding, IsPadding padding ∧ ending = padding ++ ['\n'] := by
  simp only [lineEnds, List.mem_cons, List.not_mem_nil, or_false] at h
  rcases h with rfl | rfl
  · exact ⟨[], by decide, rfl⟩
  · exact ⟨['\r'], by decide, rfl⟩

theorem Layout.flatMap_onLine {items : List String} {cs : List Char} (h : Layout items cs)
    (hitems : ∀ item ∈ items, IsCandidate item) : (splitLines cs).flatMap onLine = items := by
  induction h with
  | lastBlank hpadding =>
      rw [splitLines_of_not_mem hpadding.not_mem, List.flatMap_singleton, onLine_padding hpadding]
  | lastItem hbefore hafter =>
      have hitem := hitems _ List.mem_cons_self
      rw [splitLines_of_not_mem (not_mem_line hbefore hitem.2 hafter), List.flatMap_singleton,
        onLine_item hbefore hitem hafter]
  | @blankLine padding ending rest items hpadding hending hrest ih =>
      obtain ⟨carriage, hcarriage, rfl⟩ := exists_padding_of_mem_lineEnds hending
      have hline := hpadding.append hcarriage
      have hcut : padding ++ (carriage ++ ['\n']) ++ rest =
          padding ++ carriage ++ '\n' :: rest := by simp
      rw [hcut, splitLines_append hline.not_mem, List.flatMap_cons, onLine_padding hline,
        List.nil_append, ih hitems]
  | @itemLine before after ending rest item items hbefore hafter hending hrest ih =>
      obtain ⟨hitem, hitems⟩ := List.forall_mem_cons.mp hitems
      obtain ⟨carriage, hcarriage, rfl⟩ := exists_padding_of_mem_lineEnds hending
      have hline := hafter.append hcarriage
      have hcut : before ++ item.toList ++ after ++ (carriage ++ ['\n']) ++ rest =
          before ++ item.toList ++ (after ++ carriage) ++ '\n' :: rest := by simp
      rw [hcut, splitLines_append (not_mem_line hbefore hitem.2 hline), List.flatMap_cons,
        onLine_item hbefore hitem hline, ih hitems, List.singleton_append]

theorem layout_flatMap_onLine (cs : List Char) :
    Layout ((splitLines cs).flatMap onLine) cs ∧
      ∀ item ∈ (splitLines cs).flatMap onLine, IsCandidate item := by
  have hfeed : ['\n'] ∈ lineEnds := List.mem_cons_self
  induction cs using lines_induction with
  | last line hline =>
      rw [splitLines_of_not_mem hline, List.flatMap_singleton]
      rcases onLine_cases hline with
        ⟨hpadding, hnone⟩ | ⟨before, item, after, hcut, hbefore, hitem, hafter, hone⟩
      · rw [hnone]
        exact ⟨.lastBlank hpadding, List.forall_mem_nil _⟩
      · rw [hone, hcut]
        exact ⟨.lastItem hbefore hafter, List.forall_mem_singleton.mpr hitem⟩
  | line line rest hline ih =>
      obtain ⟨hrest, hitems⟩ := ih
      rw [splitLines_append hline, List.flatMap_cons, ← List.singleton_append, ← List.append_assoc]
      rcases onLine_cases hline with
        ⟨hpadding, hnone⟩ | ⟨before, item, after, hcut, hbefore, hitem, hafter, hone⟩
      · rw [hnone]
        exact ⟨.blankLine hpadding hfeed hrest, hitems⟩
      · rw [hone, hcut]
        exact ⟨.itemLine hbefore hafter hfeed hrest, List.forall_mem_cons.mpr ⟨hitem, hitems⟩⟩

/-- Reading a file is undoing its layout. -/
theorem candidates_eq_iff {text : String} {items : List String} :
    candidates text = items ↔ Layout items text.toList ∧ ∀ item ∈ items, IsCandidate item := by
  rw [candidates_eq_flatMap]
  constructor
  · rintro rfl
    exact layout_flatMap_onLine text.toList
  · rintro ⟨hlayout, hitems⟩
    exact hlayout.flatMap_onLine hitems

end RootsFile

namespace Storage

open MemoryFiles RootsFile

variable {files : MemoryFiles} {path text : String}

theorem readRoots_of_read (hread : files.read? path = some text) :
    files.perform (readRoots path) = (.ok (candidates text), files) := by
  have hfile := perform_readFile files path (.readRoots path)
  rw [hread] at hfile
  exact perform_bind_of_ok hfile _

theorem loadRoots_of_read (hread : files.read? path = some text) (engine : Engine) :
    files.perform (loadRoots path engine) =
      (.ok (engine.loadRoots (candidates text)), files) := by
  rw [loadRoots_run, hread]

/-- Files of roots are read as they are meant. Whatever a file holds, the candidates that are read
from it are not empty, do not go over the end of a line and have no blanks at their ends. All texts
of this kind are read back, in order, from each of their layouts, so that loading the file is
loading the texts. The roots of an engine, provided they are of this kind, are all new when they are
loaded from a file into an engine without roots, which then has the same ones. -/
theorem readRoots_layout :
    (∀ (files : MemoryFiles) (path text : String), files.read? path = some text →
      ∃ items, files.perform (readRoots path) = (.ok items, files) ∧
        Layout items text.toList ∧ ∀ item ∈ items, IsCandidate item) ∧
    (∀ items : List String, (∀ item ∈ items, IsCandidate item) →
      ∀ text, Layout items text.toList →
        ∀ (files : MemoryFiles) (path : String), files.read? path = some text →
          files.perform (readRoots path) = (.ok items, files) ∧
          ∀ engine, files.perform (loadRoots path engine) =
            (.ok (engine.loadRoots items), files)) ∧
    ∀ (p : Placeholders) (start : Engine), Engine.Initial p start →
      ∀ steps : List (Occasion × Request),
        let engine := (start.run steps).2
        (∀ root ∈ engine.listRoots, FitsLine root) →
        ∀ text, Layout engine.listRoots text.toList →
          ∀ (files : MemoryFiles) (path : String), files.read? path = some text →
            ∀ other : Engine, other.tree = .leaf →
              ∃ loaded, files.perform (loadRoots path other) =
                  (.ok (⟨engine.listRoots.length, 0, 0⟩, loaded), files) ∧
                loaded.listRoots = engine.listRoots := by
  refine ⟨?_, ?_, ?_⟩
  · intro files path text hread
    obtain ⟨hlayout, hitems⟩ := candidates_eq_iff.mp (Eq.refl (candidates text))
    exact ⟨candidates text, readRoots_of_read hread, hlayout, hitems⟩
  · intro items hitems text hlayout files path hread
    have hcandidates : candidates text = items := candidates_eq_iff.mpr ⟨hlayout, hitems⟩
    rw [readRoots_of_read hread, hcandidates]
    refine ⟨rfl, fun engine => ?_⟩
    rw [loadRoots_of_read hread, hcandidates]
  · intro p start hstart steps engine hfits text hlayout files path hread other hempty
    have hordered : engine.tree.Ordered := (hstart.faithful.wellFormed.run steps).ordered
    have hitems : ∀ root ∈ engine.listRoots, IsCandidate root := by
      intro root hmem
      refine ⟨?_, hfits root hmem⟩
      rintro rfl
      obtain ⟨root, -, hroot⟩ := List.mem_map.mp hmem
      exact absurd root.length_text (by simp [hroot])
    obtain ⟨hreport, hsame⟩ := Engine.loadRoots_listRoots hordered hempty
    refine ⟨(other.loadRoots engine.listRoots).2, ?_, hsame⟩
    rw [loadRoots_of_read hread, candidates_eq_iff.mpr ⟨hlayout, hitems⟩, ← hreport]

/-- One root has a carriage return in its middle, which ends no line. The first line has other
blanks around it and ends in two characters, the second one is blank, and the third one is not
ended. -/
theorem readRoots_layout_carriage :
    let text := "\u2028د\rس\u0085\r\n \t\nكتب"
    let files : MemoryFiles := ⟨[("roots.txt", text)], [], []⟩
    let roots := ["د\rس", "كتب"]
    files.perform (readRoots "roots.txt") = (.ok roots, files) ∧
      ∃ loaded, files.perform (loadRoots "roots.txt" (Engine.withCatalog .standard)) =
          (.ok (⟨2, 0, 0⟩, loaded), files) ∧
        loaded.listRoots = roots := by
  intro text files roots
  let steps : List (Occasion × Request) :=
    [(Occasion.ofEpoch 0, .addRoot "كتب"), (Occasion.ofEpoch 0, .addRoot "د\rس")]
  have hroots : ((Engine.withCatalog .standard).run steps).2.listRoots = roots := by
    decide +kernel
  have htext : text.toList =
      ['\u2028'] ++ "د\rس".toList ++ ['\u0085'] ++ ['\r', '\n'] ++
        ([' ', '\t'] ++ ['\n'] ++ ([] ++ "كتب".toList ++ [])) := by
    decide
  have hlayout : Layout roots text.toList := by
    rw [htext]
    exact .itemLine (by decide) (by decide) (by decide)
      (.blankLine (by decide) (by decide) (.lastItem (by decide) (by decide)))
  have hread : files.read? "roots.txt" = some text := by decide
  obtain ⟨-, hlayouts, hengines⟩ := readRoots_layout
  refine ⟨(hlayouts roots (by decide) _ hlayout files _ hread).1, ?_⟩
  have hloaded := hengines .standard _ .withCatalog steps (by decide +kernel) _
    (hroots ▸ hlayout) files _ hread (Engine.withCatalog .standard) rfl
  rw [hroots] at hloaded
  exact hloaded

end Storage

end Triliteral
