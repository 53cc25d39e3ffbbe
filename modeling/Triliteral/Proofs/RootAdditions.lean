import Mathlib.Data.List.Induction
import Triliteral.Command.Reply
import Triliteral.Proofs.ConsecutiveLoads
import Triliteral.Proofs.TreeEntries

/-!
Adding roots by a command. Whatever the engine, the command adds what a bulk load of the same texts
adds, has one message for each text, and fails only if nothing was added and some text is no root.
-/

namespace Triliteral

namespace RootTree

theorem size_rebalance (root : Root) (tree : RootTree) :
    (rebalance root tree).size = tree.size := by
  have hentries : ∀ tree : RootTree, tree.size = tree.entries.length := by
    intro tree
    rw [size_eq_length_roots, roots_eq_map_entries, List.length_map]
  rw [hentries, entries_rebalance, ← hentries]

/-- A root that the descent does not find gets a node of its own, also in a tree without order. -/
theorem size_grow {tree : RootTree} {root : Root} (hnew : tree.contains root = false) :
    (grow root tree).size = tree.size + 1 := by
  induction tree with
  | leaf => rfl
  | node left entry height right ihLeft ihRight =>
      rw [contains, find?] at hnew
      rw [grow]
      split at hnew
      · next hlt =>
        rw [if_pos hlt, size_rebalance, join, size, size, ihLeft hnew]
        omega
      · next hge =>
        split at hnew
        · next hgt =>
          rw [if_neg hge, if_pos hgt, size_rebalance, join, size, size, ihRight hnew]
          omega
        · cases hnew

end RootTree

namespace Engine

/-- What becomes of one text: it is no root, or it is stored already, or one root more is stored. -/
theorem addRoot_cases (engine : Engine) (text : String) :
    text.length ≠ 3 ∧ engine.addRoot text = .error (.invalidRoot text) ∨
    text.length = 3 ∧ engine.containsRoot text = true ∧
      engine.addRoot text = .error (.duplicateRoot text) ∨
    text.length = 3 ∧ engine.containsRoot text = false ∧
      ∃ next, engine.addRoot text = .ok next ∧ next.rootCount = engine.rootCount + 1 := by
  have hcontains : ∀ root : Root,
      engine.containsRoot root.text = engine.tree.contains root := by
    intro root
    rw [containsRoot, RootTree.containsText, RootTree.findText?_eq, Root.ofText?_text]
    rfl
  rw [addRoot]
  cases hroot : Root.ofText? text with
  | none => exact .inl ⟨Root.ofText?_eq_none_iff.mp hroot, rfl⟩
  | some root =>
      obtain rfl := Root.ofText?_eq_some_iff.mp hroot
      simp only [RootTree.insert, hcontains]
      cases hstored : engine.tree.contains root with
      | true => exact .inr (.inl ⟨root.length_text, rfl, rfl⟩)
      | false => exact .inr (.inr ⟨root.length_text, rfl, _, rfl, RootTree.size_grow hstored⟩)

end Engine

namespace Command

variable {settings : Settings} {engine : Engine} {texts : List String} {additions : Additions}

def additionMessage (settings : Settings) (engine : Engine) (text : String) : Message :=
  if text.length ≠ 3 then .error (Fault.invalidRoot text).message
  else if engine.containsRoot text then .warning (Fault.duplicateRoot text).message
  else .success ("added " ++ settings.display text)

def additionMessages (settings : Settings) : Engine → List String → List Message
  | _, [] => []
  | engine, text :: texts =>
    additionMessage settings engine text ::
      additionMessages settings (engine.loadRoots [text]).2 texts

theorem additionMessages_concat (settings : Settings) (engine : Engine) (texts : List String)
    (text : String) :
    additionMessages settings engine (texts ++ [text]) =
      additionMessages settings engine texts ++
        [additionMessage settings (engine.loadRoots texts).2 text] := by
  induction texts generalizing engine with
  | nil => rfl
  | cons first texts ih =>
      rw [List.cons_append, additionMessages, ih, additionMessages,
        Engine.loadRoots_cons engine first texts, List.cons_append]

def nonRoots (texts : List String) : List String :=
  texts.filter fun text => text.length ≠ 3

theorem getLast?_nonRoots_eq_none_iff :
    (nonRoots texts).getLast? = none ↔ ¬ ∃ text ∈ texts, text.length ≠ 3 := by
  simp [nonRoots]

theorem exists_split_of_getLast?_nonRoots {text : String}
    (h : (nonRoots texts).getLast? = some text) :
    ∃ earlier later, texts = earlier ++ text :: later ∧ text.length ≠ 3 ∧
      ∀ other ∈ later, other.length = 3 := by
  obtain ⟨others, hothers⟩ := List.getLast?_eq_some_iff.mp h
  obtain ⟨earlier, rest, rfl, -, hrest⟩ := List.filter_eq_append_iff.mp hothers
  obtain ⟨between, later, rfl, -, htext, hlater⟩ := List.filter_eq_cons_iff.mp hrest
  refine ⟨earlier ++ between, later, by simp, by simpa using htext, ?_⟩
  simpa using hlater

/-- Holds of what was done and told after some texts: what a bulk load of them does and counts, and
the last one that is no root. -/
structure Additions.Accounts (settings : Settings) (engine : Engine) (texts : List String)
    (additions : Additions) : Prop where
  engine_eq : additions.engine = (engine.loadRoots texts).2
  rootCount_eq : additions.engine.rootCount = engine.rootCount + additions.added
  added_eq : additions.added = (engine.loadRoots texts).1.added
  messages_eq : additions.messages = additionMessages settings engine texts
  lastFault_eq : additions.lastFault = (nonRoots texts).getLast?.map Fault.invalidRoot

theorem accounts_start (settings : Settings) (engine : Engine) :
    Additions.Accounts settings engine [] ⟨engine, [], 0, none⟩ :=
  ⟨rfl, rfl, rfl, rfl, rfl⟩

theorem Additions.Accounts.add (h : additions.Accounts settings engine texts) (text : String) :
    (additions.add settings text).Accounts settings engine (texts ++ [text]) := by
  obtain ⟨hengine, hcount, hadded, hmessages, hlast⟩ := h
  have hload : engine.loadRoots (texts ++ [text]) =
      Engine.loadRoot ((engine.loadRoots texts).1, additions.engine) text := by
    rw [hengine, Engine.loadRoots, List.foldl_concat]
    rfl
  have htold := additionMessages_concat settings engine texts text
  rw [← hmessages, ← hengine, additionMessage] at htold
  rw [Engine.loadRoot] at hload
  rw [Additions.add]
  rcases additions.engine.addRoot_cases text with
    ⟨htext, hadd⟩ | ⟨htext, hstored, hadd⟩ | ⟨htext, hstored, next, hadd, hnext⟩
  · have hnon : nonRoots (texts ++ [text]) = nonRoots texts ++ [text] := by simp [nonRoots, htext]
    rw [if_pos htext] at htold
    rw [hadd] at hload ⊢
    exact ⟨by rw [hload], hcount, by rw [hload]; exact hadded, htold.symm, by simp [hnon]⟩
  · have hnon : nonRoots (texts ++ [text]) = nonRoots texts := by simp [nonRoots, htext]
    rw [if_neg (not_not.mpr htext), if_pos hstored] at htold
    rw [hadd] at hload ⊢
    exact ⟨by rw [hload], hcount, by rw [hload]; exact hadded, htold.symm, by rw [hnon, hlast]⟩
  · have hnon : nonRoots (texts ++ [text]) = nonRoots texts := by simp [nonRoots, htext]
    rw [if_neg (not_not.mpr htext), hstored, if_neg Bool.false_ne_true] at htold
    rw [hadd] at hload ⊢
    refine ⟨by rw [hload], ?_, by rw [hload, hadded], htold.symm, by rw [hnon, hlast]⟩
    rw [hnext, hcount, Nat.add_assoc]

theorem accounts_foldl (settings : Settings) (engine : Engine) (texts : List String) :
    (texts.foldl (Additions.add settings) ⟨engine, [], 0, none⟩).Accounts settings engine
      texts := by
  induction texts using List.reverseRecOn with
  | nil => exact accounts_start settings engine
  | append_singleton texts text ih =>
      rw [List.foldl_concat]
      exact ih.add text

/-- The reply, by the report of the load and the texts that are no roots. -/
theorem addRoots_eq (settings : Settings) (engine : Engine) (texts : List String) :
    addRoots settings engine texts =
      { messages := additionMessages settings engine texts
        engine := (engine.loadRoots texts).2
        changed := decide (0 < (engine.loadRoots texts).1.added)
        failure :=
          if (engine.loadRoots texts).1.added = 0 then
            (nonRoots texts).getLast?.map fun text => .refused (.invalidRoot text)
          else none } := by
  obtain ⟨hengine, -, hadded, hmessages, hlast⟩ := accounts_foldl settings engine texts
  rw [addRoots, ← hengine, ← hmessages, ← hadded]
  generalize texts.foldl (Additions.add settings) ⟨engine, [], 0, none⟩ = additions at hlast ⊢
  obtain ⟨next, messages, added, lastFault⟩ := additions
  obtain rfl : lastFault = _ := hlast
  cases (nonRoots texts).getLast? with
  | none => simp
  | some text => cases added <;> simp

theorem rootCount_addRoots (settings : Settings) (engine : Engine) (texts : List String) :
    (addRoots settings engine texts).engine.rootCount =
      engine.rootCount + (engine.loadRoots texts).1.added := by
  have h := accounts_foldl settings engine texts
  rw [addRoots_eq, ← h.engine_eq, h.rootCount_eq, h.added_eq]

/-- Adding roots by a command reports and keeps exactly what succeeded. It fails exactly if nothing
was added and some text has not three characters, and then because of the last such text. Otherwise
it reports a change exactly if some root was added. In any case its engine is the one that a bulk
load of the same texts leaves, with as many roots more as the report of the load says; and it tells
of each text, in their order, whether it is no root, was stored already or was added. -/
theorem addRoots_reports (settings : Settings) (engine : Engine) (texts : List String) :
    let reply := addRoots settings engine texts
    let report := (engine.loadRoots texts).1
    ((∃ failure, reply.failure = some failure) ↔
      reply.engine.rootCount = engine.rootCount ∧ ∃ text ∈ texts, text.length ≠ 3) ∧
    (∀ failure, reply.failure = some failure →
      ∃ earlier text later, texts = earlier ++ text :: later ∧ text.length ≠ 3 ∧
        (∀ other ∈ later, other.length = 3) ∧ failure = .refused (.invalidRoot text)) ∧
    (reply.failure = none →
      (reply.changed = true ↔ engine.rootCount < reply.engine.rootCount)) ∧
    reply.engine = (engine.loadRoots texts).2 ∧
    reply.engine.rootCount = engine.rootCount + report.added ∧
    reply.messages = additionMessages settings engine texts := by
  intro reply report
  have hreply : reply = _ := addRoots_eq settings engine texts
  have hcount : reply.engine.rootCount = engine.rootCount + report.added :=
    rootCount_addRoots settings engine texts
  have hfailure : ∀ failure, reply.failure = some failure ↔ report.added = 0 ∧
      ∃ text, (nonRoots texts).getLast? = some text ∧ failure = .refused (.invalidRoot text) := by
    intro failure
    rw [hreply]
    simp [eq_comm, report]
  refine ⟨?_, ?_, fun _ => ?_, by rw [hreply], hcount, by rw [hreply]⟩
  · have hnon : (∃ text ∈ texts, text.length ≠ 3) ↔
        ∃ text, (nonRoots texts).getLast? = some text := by
      rw [← Option.ne_none_iff_exists', Ne, getLast?_nonRoots_eq_none_iff, not_not]
    rw [hnon, hcount]
    simp only [hfailure]
    simp
  · intro failure h
    obtain ⟨-, text, hlast, rfl⟩ := (hfailure failure).mp h
    obtain ⟨earlier, later, htexts, hlength, hlater⟩ := exists_split_of_getLast?_nonRoots hlast
    exact ⟨earlier, text, later, htexts, hlength, hlater, rfl⟩
  · rw [hcount, hreply]
    simp [report]

/-- The first list has nothing new, and its last text that is no root comes before a stored one. Of
the second list one root is added once, so that the text that is no root does not matter. -/
theorem addRoots_reports_homework :
    let settings : Settings := ⟨"", none, none, "", false, 0⟩
    let engine := ((Engine.withCatalog .standard).loadRoots ["كتب"]).2
    let failed := addRoots settings engine ["كت", "درسة", "كتب"]
    let done := addRoots settings engine ["درس", "كت", "درس"]
    (∃ failure, failed.failure = some failure) ∧
      failed.failure = some (.refused (.invalidRoot "درسة")) ∧
      (∃ earlier text later, ["كت", "درسة", "كتب"] = earlier ++ text :: later ∧ text.length ≠ 3 ∧
        (∀ other ∈ later, other.length = 3) ∧
        Failure.refused (.invalidRoot "درسة") = .refused (.invalidRoot text)) ∧
      done.failure = none ∧ done.changed = true ∧ engine.rootCount < done.engine.rootCount := by
  intro settings engine failed done
  obtain ⟨hfails, hlast, -⟩ := addRoots_reports settings engine ["كت", "درسة", "كتب"]
  obtain ⟨-, -, hchanged, -⟩ := addRoots_reports settings engine ["درس", "كت", "درس"]
  have hfailure : failed.failure = some (.refused (.invalidRoot "درسة")) := by decide +kernel
  have hdone : done.failure = none := by decide +kernel
  have hmore : engine.rootCount < done.engine.rootCount := by decide +kernel
  exact ⟨hfails.mpr ⟨by decide +kernel, "كت", by decide, by decide⟩, hfailure,
    hlast _ hfailure, hdone, (hchanged hdone).mpr hmore, hmore⟩

end Command

end Triliteral
