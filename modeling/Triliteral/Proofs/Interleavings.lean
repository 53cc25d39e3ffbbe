import Triliteral.Engine.Shared
import Triliteral.Proofs.HistoryGrowth
import Triliteral.Proofs.StoredRoots
import Triliteral.Proofs.UsageAccounting

/-!
Clients that share an engine, add roots, and generate words of roots that are there at the start.
The roots and the words that are stored in the end, the words that are returned and the number of
uses that are counted do not depend on the order in which the clients have their turns. The shape
of the tree, the order of the derivations and the scheme that a word is credited to may do so.
-/

namespace Triliteral

/-! ### Turns -/

def Response.addedRoots : Request → Response → Nat
  | .addRoot _, .done => 1
  | .loadRoots _, .loaded report => report.added
  | _, _ => 0

namespace Turn

/-- The roots that are stored after a turn and were not before. -/
def gained (turn : Turn) : List Root :=
  turn.after.tree.roots.filter fun root => root ∉ turn.before.tree.roots

def reported (turn : Turn) : Nat :=
  turn.response.addedRoots turn.request

theorem mem_gained {turn : Turn} {root : Root} :
    root ∈ turn.gained ↔ root ∈ turn.after.tree.roots ∧ root ∉ turn.before.tree.roots := by
  simp [gained]

end Turn

namespace Shared

variable {first next last : Shared} {turn : Turn} {turns : List Turn}

theorem Step.requests_perm (h : Step first turn next) :
    (turn.request :: next.waiting.flatten).Perm first.waiting.flatten := by
  cases h with
  | @turn client request rest hwaiting now =>
      obtain ⟨hlt, hqueue⟩ := List.getElem?_eq_some_iff.mp hwaiting
      have hsplit : first.waiting =
          first.waiting.take client ++ (request :: rest) :: first.waiting.drop (client + 1) := by
        rw [← hqueue, List.getElem_cons_drop, List.take_append_drop]
      rw [List.set_eq_take_append_cons_drop, if_pos hlt]
      conv => rhs; rw [hsplit]
      simp only [List.flatten_append, List.flatten_cons, List.cons_append]
      exact List.perm_middle.symm

theorem Run.requests_perm (h : Run first turns last) :
    (turns.map Turn.request ++ last.waiting.flatten).Perm first.waiting.flatten := by
  induction h with
  | stay shared => exact .refl _
  | step head tail ih => exact (ih.cons _).trans head.requests_perm

theorem Run.requests_perm_of_finished (h : Run first turns last) (hfinished : last.Finished) :
    (turns.map Turn.request).Perm first.waiting.flatten := by
  have hperm := h.requests_perm
  rwa [List.flatten_eq_nil_iff.mpr hfinished, List.append_nil] at hperm

/-- What every request preserves, every run preserves. -/
theorem Run.preserves {P : Engine → Prop}
    (hperform : ∀ now engine request, P engine → P (engine.perform now request).2)
    (h : Run first turns last) (hfirst : P first.engine) : P last.engine := by
  induction h with
  | stay shared => exact hfirst
  | step head tail ih =>
      cases head with
      | turn hwaiting now => exact ih (hperform now _ _ hfirst)

/-- As long as a request is left, some client can have a turn, so that every run can be
finished. -/
theorem exists_finished_run (shared : Shared) :
    ∃ turns last, Run shared turns last ∧ last.Finished := by
  induction hcount : shared.waiting.flatten.length generalizing shared with
  | zero =>
      refine ⟨[], shared, .stay shared, ?_⟩
      exact List.flatten_eq_nil_iff.mp (List.length_eq_zero_iff.mp hcount)
  | succ count ih =>
      have hleft : ¬ shared.Finished := by
        intro hfinished
        rw [List.flatten_eq_nil_iff.mpr hfinished] at hcount
        cases hcount
      obtain ⟨requests, hmem, hne⟩ := by simpa [Finished] using hleft
      obtain ⟨client, hclient⟩ := List.getElem?_of_mem hmem
      obtain ⟨request, rest, rfl⟩ := List.exists_cons_of_ne_nil hne
      have hstep := Step.turn hclient (Occasion.ofEpoch 0)
      have hlength := hstep.requests_perm.length_eq
      rw [List.length_cons, hcount] at hlength
      obtain ⟨turns, last, hrun, hfinished⟩ := ih _ (Nat.succ.inj hlength)
      exact ⟨_, last, .step hstep hrun, hfinished⟩

end Shared

/-! ### Requests that only add -/

namespace Request

def candidates : Request → List String
  | .addRoot text => [text]
  | .loadRoots texts => texts
  | _ => []

/-- Holds of the requests to add roots, or to generate a word of a root and by a scheme that the
engine has. -/
def OnlyAdds (engine : Engine) : Request → Prop
  | .addRoot _ | .loadRoots _ => True
  | .generate text name => text ∈ engine.listRoots ∧ name ∈ engine.registry.names
  | _ => False

instance (engine : Engine) : (request : Request) → Decidable (request.OnlyAdds engine)
  | .addRoot _ | .loadRoots _ => .isTrue trivial
  | .generate text name =>
    inferInstanceAs (Decidable (text ∈ engine.listRoots ∧ name ∈ engine.registry.names))
  | .addScheme .. | .addExplicitScheme .. | .modifyScheme .. | .removeScheme _ | .validate ..
  | .analyze _ | .listRoots | .derivations _ | .listSchemes | .schemesOf _ | .popular _
  | .snapshot | .reload _ => .isFalse id

end Request

namespace Engine

variable {start engine next : Engine}

def words (engine : Engine) (text : String) : List String :=
  (engine.history text).map Derivation.word

/-- Holds of the word that a registered scheme makes of a stored root. -/
def Makes (engine : Engine) (text name word : String) : Prop :=
  ∃ root ∈ engine.tree.roots, ∃ scheme, engine.registry.find? name = some scheme ∧
    root.text = text ∧ scheme.word root = word

theorem Makes.unique {text name word word' : String} (h : engine.Makes text name word)
    (h' : engine.Makes text name word') : word = word' := by
  obtain ⟨root, -, scheme, hfind, hroot, rfl⟩ := h
  obtain ⟨root', -, scheme', hfind', hroot', rfl⟩ := h'
  obtain rfl := Root.text_injective (hroot.trans hroot'.symm)
  obtain rfl := Option.some.inj (hfind.symm.trans hfind')
  rfl

/-- What has become of an engine that has answered requests which only add. -/
structure Served (requests : List Request) (engine next : Engine) : Prop where
  mem_roots_iff : ∀ root, root ∈ next.tree.roots ↔
    root ∈ engine.tree.roots ∨ root.text ∈ requests.flatMap Request.candidates
  rule_eq : ∀ name, (next.registry.find? name).map Scheme.rule =
    (engine.registry.find? name).map Scheme.rule
  mem_words_iff : ∀ text word, word ∈ next.words text ↔
    word ∈ engine.words text ∨
      ∃ name, .generate text name ∈ requests ∧ engine.Makes text name word
  counted : ∃ uses : List String, uses.length ≤ requests.length ∧
    (∀ name ∈ uses, name ∈ engine.registry.names) ∧
    next.registry = uses.foldl Registry.countUse engine.registry ∧
    next.tree.derivations.length = engine.tree.derivations.length + uses.length ∧
    ∀ name, next.tree.recordedUnder name = engine.tree.recordedUnder name + uses.count name

theorem Served.refl (engine : Engine) : Served [] engine engine where
  mem_roots_iff := by simp
  rule_eq _ := rfl
  mem_words_iff := by simp
  counted := ⟨[], Nat.le_refl 0, List.forall_mem_nil _, rfl, rfl, fun _ => rfl⟩

variable {requests later : List Request}

theorem Served.mem_listRoots (h : Served requests engine next) {text : String}
    (htext : text ∈ engine.listRoots) : text ∈ next.listRoots := by
  obtain ⟨root, hroot, rfl⟩ := List.mem_map.mp htext
  exact List.mem_map_of_mem ((h.mem_roots_iff root).mpr (.inl hroot))

theorem Served.mem_names_iff (h : Served requests engine next) {name : String} :
    name ∈ next.registry.names ↔ name ∈ engine.registry.names := by
  have hrule := congrArg Option.isSome (h.rule_eq name)
  rw [Option.isSome_map, Option.isSome_map] at hrule
  rw [Registry.mem_names_iff, Registry.mem_names_iff, ← Option.isSome_iff_exists, hrule,
    Option.isSome_iff_exists]

theorem Served.onlyAdds (h : Served requests engine next) {request : Request}
    (hrequest : request.OnlyAdds engine) : request.OnlyAdds next := by
  cases request with
  | generate text name => exact ⟨h.mem_listRoots hrequest.1, h.mem_names_iff.mpr hrequest.2⟩
  | _ => exact hrequest

theorem Served.makes_iff (h : Served requests engine next) {text name word : String}
    (htext : text ∈ engine.listRoots) :
    next.Makes text name word ↔ engine.Makes text name word := by
  obtain ⟨old, hold, rfl⟩ := List.mem_map.mp htext
  have hrule := h.rule_eq name
  constructor
  · rintro ⟨root, -, scheme, hfind, hroot, rfl⟩
    obtain rfl := Root.text_injective hroot
    rw [hfind, Option.map_some] at hrule
    obtain ⟨scheme', hfind', hsame⟩ := Option.map_eq_some_iff.mp hrule.symm
    exact ⟨root, hold, scheme', hfind', rfl, by rw [Scheme.word, hsame, Scheme.word]⟩
  · rintro ⟨root, hroot, scheme, hfind, htext, rfl⟩
    rw [hfind, Option.map_some] at hrule
    obtain ⟨scheme', hfind', hsame⟩ := Option.map_eq_some_iff.mp hrule
    exact ⟨root, (h.mem_roots_iff root).mpr (.inl hroot), scheme', hfind', htext,
      by rw [Scheme.word, hsame, Scheme.word]⟩

theorem Served.trans (h : Served requests start engine) (hlater : Served later engine next)
    (hadds : ∀ request ∈ later, request.OnlyAdds start) :
    Served (requests ++ later) start next where
  mem_roots_iff root := by
    rw [hlater.mem_roots_iff, h.mem_roots_iff, List.flatMap_append, List.mem_append, or_assoc]
  rule_eq name := (hlater.rule_eq name).trans (h.rule_eq name)
  mem_words_iff text word := by
    have hmakes : ∀ name, Request.generate text name ∈ later →
        (engine.Makes text name word ↔ start.Makes text name word) :=
      fun name hmem => h.makes_iff (hadds _ hmem).1
    rw [hlater.mem_words_iff, h.mem_words_iff, or_assoc, ← exists_or]
    refine or_congr_right (exists_congr fun name => ?_)
    rw [and_congr_right (hmakes name), List.mem_append, or_and_right]
  counted := by
    obtain ⟨uses, hfew, hnames, hregistry, hlength, hunder⟩ := h.counted
    obtain ⟨more, hfew', hnames', hregistry', hlength', hunder'⟩ := hlater.counted
    refine ⟨uses ++ more, ?_, ?_, ?_, ?_, fun name => ?_⟩
    · rw [List.length_append, List.length_append]
      exact Nat.add_le_add hfew hfew'
    · intro name hname
      rcases List.mem_append.mp hname with hname | hname
      · exact hnames name hname
      · exact h.mem_names_iff.mp (hnames' name hname)
    · rw [List.foldl_append, ← hregistry, hregistry']
    · rw [hlength', hlength, List.length_append, Nat.add_assoc]
    · rw [hunder', hunder, List.count_append, Nat.add_assoc]

/-! ### One request -/

theorem derivations_loadRoots (hordered : engine.tree.Ordered) (texts : List String) :
    (engine.loadRoots texts).2.tree.derivations.Perm engine.tree.derivations := by
  refine And.right <| @loadRoots_preserves engine
    (fun next => next.tree.Ordered ∧ next.tree.derivations.Perm engine.tree.derivations) ?_
    ⟨hordered, .refl _⟩ texts
  rintro next root ⟨hnext, hperm⟩
  exact ⟨hnext.insert root, (RootTree.derivations_insert hnext root).trans hperm⟩

theorem WellFormed.served_loadRoots (hengine : engine.WellFormed) {request : Request}
    {texts : List String} (hcandidates : request.candidates = texts)
    (hgenerate : ∀ text name, request ≠ .generate text name) :
    Served [request] engine (engine.loadRoots texts).2 := by
  have hregistry := engine.registry_loadRoots texts
  have hperm := derivations_loadRoots hengine.ordered texts
  have hhistories : engine.KeepsHistories
      (engine.perform (Occasion.ofEpoch 0) (.loadRoots texts)).2 :=
    hengine.keepsHistories_perform (Occasion.ofEpoch 0) rfl
  refine ⟨fun root => ?_, fun name => ?_, fun text word => ?_, [], Nat.zero_le _,
    List.forall_mem_nil _, hregistry, hperm.length_eq, fun name => hperm.countP_eq _⟩
  · rw [mem_roots_loadRoots hengine.ordered, List.flatMap_singleton, hcandidates]
  · rw [hregistry]
  · have hwords : (engine.loadRoots texts).2.words text = engine.words text :=
      congrArg (List.map Derivation.word) (hhistories.history_eq text)
    rw [hwords]
    refine ⟨.inl, ?_⟩
    rintro (hword | ⟨name, hmem, -⟩)
    · exact hword
    · exact absurd (List.mem_singleton.mp hmem).symm (hgenerate text name)

theorem perform_addRoot_snd (now : Occasion) (engine : Engine) (text : String) :
    (engine.perform now (.addRoot text)).2 = (engine.loadRoots [text]).2 := by
  rw [perform, loadRoots, List.foldl_cons, loadRoot]
  cases engine.addRoot text with
  | ok next => rfl
  | error fault => cases fault <;> rfl

theorem exists_node_of_mem_listRoots (hordered : engine.tree.Ordered) {text : String}
    (h : text ∈ engine.listRoots) :
    ∃ node ∈ engine.tree.nodes, node.entry.root.text = text ∧
      engine.findRoot text = .ok node := by
  obtain ⟨entry, hentry, htext⟩ := mem_listRoots_iff_entries.mp h
  obtain ⟨node, hnode, rfl⟩ := List.mem_map.mp hentry
  exact ⟨node, hnode, htext, (findRoot_eq_ok_iff hordered).mpr ⟨hnode, htext⟩⟩

theorem WellFormed.served_record (hengine : engine.WellFormed) {node : RootTree.Node}
    (hnode : node ∈ engine.tree.nodes) {name : String} {scheme : Scheme}
    (hfind : engine.registry.find? name = some scheme) {now : Occasion}
    (hnew : scheme.word node.entry.root ∉ node.entry.derivations.map Derivation.word) :
    Served [.generate node.entry.root.text name] engine { engine with
      tree := engine.tree.record node.entry.root ⟨scheme.word node.entry.root, name, now.time⟩
      registry := engine.registry.countUse name } := by
  have hentry : node.entry ∈ engine.tree.entries := List.mem_map_of_mem hnode
  have hroot : node.entry.root ∈ engine.tree.roots := List.mem_map_of_mem hentry
  have hmakes : engine.Makes node.entry.root.text name (scheme.word node.entry.root) :=
    ⟨node.entry.root, hroot, scheme, hfind, rfl, rfl⟩
  refine ⟨fun root => ?_, fun other => ?_, fun text word => ?_, [name], Nat.le_refl 1, ?_,
    rfl, ?_, fun other => ?_⟩
  · simp [RootTree.roots_record, Request.candidates]
  · change ((engine.registry.countUse name).find? other).map Scheme.rule = _
    rw [Registry.countUse, Registry.find?_update, Option.map_map]
    · congr 1
      funext scheme
      rw [Function.comp_apply]
      split <;> rfl
    · exact fun _ => rfl
  · rw [words, history_record hengine.ordered rfl]
    have hmem : node.entry.root.text ∈ engine.listRoots := List.mem_map_of_mem hroot
    by_cases htext : text = node.entry.root.text
    · subst htext
      rw [if_pos ⟨rfl, hmem⟩, history_of_mem hengine.ordered hentry, Derivation.record_of_new hnew,
        List.map_append, List.mem_append, words, history_of_mem hengine.ordered hentry]
      refine or_congr_right ⟨?_, ?_⟩
      · intro hword
        obtain rfl := List.mem_singleton.mp hword
        exact ⟨name, List.mem_cons_self, hmakes⟩
      · rintro ⟨other, hrequest, hother⟩
        obtain ⟨-, rfl⟩ := Request.generate.inj (List.mem_singleton.mp hrequest)
        exact List.mem_singleton.mpr (hother.unique hmakes)
    · rw [if_neg fun h => htext h.1, ← words]
      refine ⟨.inl, ?_⟩
      rintro (hword | ⟨other, hrequest, -⟩)
      · exact hword
      · exact absurd (Request.generate.inj (List.mem_singleton.mp hrequest)).1 htext
  · exact List.forall_mem_singleton.mpr (Registry.mem_names_iff.mpr ⟨scheme, hfind⟩)
  · exact (RootTree.derivations_record_of_new hengine.ordered hentry hnew).length_eq
  · rw [List.count_singleton]
    refine Eq.trans (RootTree.recordedUnder_record_of_new hengine.ordered hentry hnew other) ?_
    simp only [beq_iff_eq]

/-- A word that is made is returned, and recorded unless it is there already. -/
theorem WellFormed.served_generate (hengine : engine.WellFormed) (now : Occasion)
    {text name : String} (htext : text ∈ engine.listRoots)
    (hname : name ∈ engine.registry.names) :
    ∃ word, engine.Makes text name word ∧
      (engine.perform now (.generate text name)).1 = .word word ∧
      Served [.generate text name] engine (engine.perform now (.generate text name)).2 := by
  obtain ⟨node, hnode, rfl, hfound⟩ := exists_node_of_mem_listRoots hengine.ordered htext
  obtain ⟨scheme, hfind⟩ := Registry.mem_names_iff.mp hname
  have hentry : node.entry ∈ engine.tree.entries := List.mem_map_of_mem hnode
  have hmakes : engine.Makes node.entry.root.text name (scheme.word node.entry.root) :=
    ⟨node.entry.root, List.mem_map_of_mem hentry, scheme, hfind, rfl, rfl⟩
  rw [Engine.perform, generate_of_found hfound (Registry.get_eq_ok_iff.mpr hfind)]
  refine ⟨_, hmakes, rfl, ?_⟩
  split
  · next hany =>
    have hold : scheme.word node.entry.root ∈ engine.words node.entry.root.text := by
      rw [words, history_of_mem hengine.ordered hentry]
      exact Derivation.any_word_iff.mp hany
    refine ⟨by simp [settle, Request.candidates], fun _ => rfl, fun text word => ⟨.inl, ?_⟩, [],
      Nat.zero_le _, List.forall_mem_nil _, rfl, rfl, fun _ => rfl⟩
    rintro (hword | ⟨other, hrequest, hother⟩)
    · exact hword
    · obtain ⟨rfl, rfl⟩ := Request.generate.inj (List.mem_singleton.mp hrequest)
      rwa [hother.unique hmakes]
  · next hany =>
    exact hengine.served_record hnode hfind fun hold => hany (Derivation.any_word_iff.mpr hold)

theorem WellFormed.served_perform (hengine : engine.WellFormed) (now : Occasion)
    {request : Request} (hrequest : request.OnlyAdds engine) :
    Served [request] engine (engine.perform now request).2 := by
  cases request with
  | addRoot text =>
      rw [perform_addRoot_snd]
      exact hengine.served_loadRoots rfl fun _ _ => Request.noConfusion
  | loadRoots texts => exact hengine.served_loadRoots rfl fun _ _ => Request.noConfusion
  | generate text name =>
      obtain ⟨word, -, -, hserved⟩ := hengine.served_generate now hrequest.1 hrequest.2
      exact hserved
  | _ => exact hrequest.elim

/-! ### Gained roots -/

theorem WellFormed.roots_subset_perform (hengine : engine.WellFormed) (now : Occasion)
    (request : Request) : engine.tree.roots ⊆ (engine.perform now request).2.tree.roots := by
  intro root hroot
  have htext := (hengine.appendsOn_perform now request).listRoots_subset
    (List.mem_map_of_mem hroot)
  obtain ⟨other, hother, hsame⟩ := List.mem_map.mp htext
  exact Root.text_injective hsame ▸ hother

/-- If no root is taken away, those that are gained make the difference of the counts. -/
theorem rootCount_eq_add_gained (hengine : engine.tree.Ordered) (hnext : next.tree.Ordered)
    (hkept : engine.tree.roots ⊆ next.tree.roots) :
    next.rootCount = engine.rootCount +
      (next.tree.roots.filter fun root => root ∉ engine.tree.roots).length := by
  have hold : (next.tree.roots.filter fun root => root ∈ engine.tree.roots).Perm
      engine.tree.roots := by
    refine (List.perm_ext_iff_of_nodup ((RootTree.nodup_roots hnext).filter _)
      (RootTree.nodup_roots hengine)).mpr fun root => ?_
    rw [List.mem_filter, decide_eq_true_eq]
    exact ⟨fun h => h.2, fun h => ⟨hkept h, h⟩⟩
  rw [rootCount, rootCount, RootTree.size_eq_length_roots, RootTree.size_eq_length_roots,
    List.length_eq_length_filter_add fun root => decide (root ∈ engine.tree.roots),
    hold.length_eq]
  simp only [decide_not]

theorem WellFormed.rootCount_perform (hengine : engine.WellFormed) (now : Occasion)
    {request : Request} (hrequest : request.OnlyAdds engine) :
    (engine.perform now request).2.rootCount =
      engine.rootCount + (engine.perform now request).1.addedRoots request := by
  cases request with
  | addRoot text =>
      rw [Engine.perform, settleDone]
      cases hadd : engine.addRoot text with
      | ok next => exact (rootCount_addRoot hengine.ordered hadd).2
      | error fault => rfl
  | loadRoots texts => exact rootCount_loadRoots hengine.ordered texts
  | generate text name =>
      have hserved := hengine.served_perform now hrequest
      have hcount := rootCount_eq_add_gained hengine.ordered (hengine.perform now _).ordered
        (hengine.roots_subset_perform now (.generate text name))
      obtain ⟨word, -, hresponse, -⟩ := hengine.served_generate now hrequest.1 hrequest.2
      rw [hcount, hresponse, List.filter_eq_nil_iff.mpr]
      · rfl
      · intro root hroot
        simpa [Request.candidates] using (hserved.mem_roots_iff root).mp hroot
  | _ => exact hrequest.elim

end Engine

/-- What a client is told fits what its turn did: it gained the roots that were reported, all of
them among its candidates, and a word that was to be generated is the one its scheme makes. -/
structure Turn.Accounted (start : Engine) (turn : Turn) : Prop where
  reported_eq : turn.reported = turn.gained.length
  candidate_of_gained : ∀ root ∈ turn.gained, root.text ∈ turn.request.candidates
  response_eq : ∀ text name, turn.request = .generate text name →
    ∃ word, start.Makes text name word ∧ turn.response = .word word

namespace Shared

open Engine

variable {first next last : Shared} {turn : Turn} {turns : List Turn}

theorem Step.turn_eq (h : Step first turn next) :
    turn.before = first.engine ∧ turn.after = next.engine ∧
      first.engine.perform turn.now turn.request = (turn.response, turn.after) := by
  cases h with
  | turn hwaiting now => exact ⟨rfl, rfl, rfl⟩

theorem Step.wellFormed (h : Step first turn next) (hfirst : first.engine.WellFormed) :
    next.engine.WellFormed := by
  cases h with
  | turn hwaiting now => exact hfirst.perform now _

theorem Step.roots_subset (h : Step first turn next) (hfirst : first.engine.WellFormed) :
    first.engine.tree.roots ⊆ next.engine.tree.roots := by
  cases h with
  | turn hwaiting now => exact hfirst.roots_subset_perform now _

theorem Step.rootCount_eq (h : Step first turn next) (hfirst : first.engine.WellFormed) :
    next.engine.rootCount = first.engine.rootCount + turn.gained.length := by
  have hcount := rootCount_eq_add_gained hfirst.ordered (h.wellFormed hfirst).ordered
    (h.roots_subset hfirst)
  obtain ⟨hbefore, hafter, -⟩ := h.turn_eq
  rwa [← hbefore, ← hafter] at hcount ⊢

theorem Step.accounted (h : Step first turn next) (hfirst : first.engine.WellFormed)
    (hrequest : turn.request.OnlyAdds first.engine) : turn.Accounted first.engine := by
  have hgainedCount := h.rootCount_eq hfirst
  obtain ⟨hbefore, hafter, hperform⟩ := h.turn_eq
  have hreportedCount := hfirst.rootCount_perform turn.now hrequest
  have hserved := hfirst.served_perform turn.now hrequest
  rw [hperform] at hserved hreportedCount
  refine ⟨?_, ?_, ?_⟩
  · rw [hafter] at hreportedCount
    exact Nat.add_left_cancel (hreportedCount.symm.trans hgainedCount)
  · intro root hroot
    obtain ⟨hnew, hold⟩ := Turn.mem_gained.mp hroot
    rw [hbefore] at hold
    simpa [hold] using (hserved.mem_roots_iff root).mp hnew
  · intro text name hgenerate
    rw [hgenerate] at hrequest hperform
    obtain ⟨word, hmakes, hresponse, -⟩ :=
      hfirst.served_generate turn.now hrequest.1 hrequest.2
    rw [hperform] at hresponse
    exact ⟨word, hmakes, hresponse⟩

/-! ### Runs -/

theorem Run.wellFormed (h : Run first turns last) (hfirst : first.engine.WellFormed) :
    last.engine.WellFormed :=
  h.preserves (fun now _ request hengine => hengine.perform now request) hfirst

theorem Run.roots_subset (h : Run first turns last) (hfirst : first.engine.WellFormed) :
    first.engine.tree.roots ⊆ last.engine.tree.roots := by
  induction h with
  | stay shared => exact List.Subset.refl _
  | step head tail ih =>
      exact List.Subset.trans (head.roots_subset hfirst) (ih (head.wellFormed hfirst))

/-- A root that is new in the end was gained in one turn, any other one in none. -/
theorem Run.countP_gained (h : Run first turns last) (hfirst : first.engine.WellFormed)
    (root : Root) :
    (turns.countP fun turn => root ∈ turn.gained) =
      if root ∉ first.engine.tree.roots ∧ root ∈ last.engine.tree.roots then 1 else 0 := by
  induction h with
  | stay shared => simp
  | @step first next last turn turns head tail ih =>
      have hnext := head.wellFormed hfirst
      have hkept : root ∈ first.engine.tree.roots → root ∈ next.engine.tree.roots :=
        fun hroot => head.roots_subset hfirst hroot
      have hkept' : root ∈ next.engine.tree.roots → root ∈ last.engine.tree.roots :=
        fun hroot => tail.roots_subset hnext hroot
      obtain ⟨hbefore, hafter, -⟩ := head.turn_eq
      have hgained : root ∈ turn.gained ↔
          root ∈ next.engine.tree.roots ∧ root ∉ first.engine.tree.roots := by
        rw [Turn.mem_gained, hbefore, hafter]
      rw [List.countP_cons, ih hnext]
      simp only [decide_eq_true_eq, hgained]
      by_cases hold : root ∈ first.engine.tree.roots
      · simp [hold, hkept hold]
      · by_cases hnew : root ∈ next.engine.tree.roots
        · simp [hold, hnew, hkept' hnew]
        · simp [hold, hnew]

theorem Run.rootCount_eq (h : Run first turns last) (hfirst : first.engine.WellFormed) :
    last.engine.rootCount =
      first.engine.rootCount + (turns.map fun turn => turn.gained.length).sum := by
  induction h with
  | stay shared => rfl
  | step head tail ih =>
      rw [ih (head.wellFormed hfirst), head.rootCount_eq hfirst, List.map_cons, List.sum_cons,
        Nat.add_assoc]

/-- Whatever turns are taken, the requests that were made say what is stored, and every client is
told what happened. -/
theorem Run.served {start : Engine} {requests : List Request} (h : Run first turns last)
    (hfirst : first.engine.WellFormed) (hserved : Served requests start first.engine)
    (hadds : ∀ request ∈ first.waiting.flatten, request.OnlyAdds start) :
    Served (requests ++ turns.map Turn.request) start last.engine ∧
      ∀ turn ∈ turns, turn.Accounted start := by
  induction h generalizing requests with
  | stay shared => exact ⟨by simpa using hserved, List.forall_mem_nil _⟩
  | @step first next last turn turns head tail ih =>
      have hperm := head.requests_perm
      have hstart : turn.request.OnlyAdds start :=
        hadds _ (hperm.mem_iff.mp List.mem_cons_self)
      have hrequest := hserved.onlyAdds hstart
      have hturn := head.accounted hfirst hrequest
      have hstep : Served [turn.request] first.engine next.engine := by
        obtain ⟨-, hafter, hperform⟩ := head.turn_eq
        have hstep := hfirst.served_perform turn.now hrequest
        rwa [hperform, hafter] at hstep
      have hboth := hserved.trans hstep fun request hmem =>
        List.mem_singleton.mp hmem ▸ hstart
      obtain ⟨hlast, hturns⟩ := ih (head.wellFormed hfirst) hboth fun request hmem =>
        hadds request (hperm.mem_iff.mp (List.mem_cons_of_mem _ hmem))
      refine ⟨by simpa using hlast, List.forall_mem_cons.mpr ⟨⟨hturn.reported_eq,
        hturn.candidate_of_gained, fun text name hgenerate => ?_⟩, hturns⟩⟩
      obtain ⟨word, hmakes, hresponse⟩ := hturn.response_eq text name hgenerate
      rw [hgenerate] at hstart
      exact ⟨word, (hserved.makes_iff hstart.1).mp hmakes, hresponse⟩

end Shared

namespace Engine

variable {engine next : Engine}

theorem WellFormed.nodup_words (hengine : engine.WellFormed) (text : String) :
    (engine.words text).Nodup := by
  by_cases hstored : text ∈ engine.listRoots
  · obtain ⟨entry, hentry, rfl⟩ := mem_listRoots_iff_entries.mp hstored
    rw [words, history_of_mem hengine.ordered hentry]
    exact hengine.distinctWords entry hentry
  · rw [words, history_of_not_mem hengine.ordered hstored]
    exact List.nodup_nil

theorem length_derivations_eq (hordered : engine.tree.Ordered) :
    engine.tree.derivations.length =
      (engine.listRoots.map fun text => (engine.words text).length).sum := by
  rw [RootTree.derivations, List.length_flatMap, listRoots, RootTree.roots, List.map_map,
    List.map_map]
  congr 1
  refine List.map_congr_left fun entry hentry => ?_
  rw [Function.comp_apply, Function.comp_apply, words, history_of_mem hordered hentry,
    List.length_map]

theorem Served.mem_listRoots_iff {requests : List Request} (h : Served requests engine next)
    {text : String} :
    text ∈ next.listRoots ↔ text ∈ engine.listRoots ∨
      text.length = 3 ∧ text ∈ requests.flatMap Request.candidates :=
  mem_listRoots_iff_of_added h.mem_roots_iff

theorem Served.perm {requests requests' : List Request} (h : Served requests engine next)
    (hperm : requests.Perm requests') : Served requests' engine next where
  mem_roots_iff root := by
    rw [h.mem_roots_iff, (hperm.flatMap_right Request.candidates).mem_iff]
  rule_eq := h.rule_eq
  mem_words_iff text word := by
    rw [h.mem_words_iff]
    simp only [hperm.mem_iff]
  counted := hperm.length_eq ▸ h.counted

/-- Holds if 64 bits suffice to count what was recorded under each scheme's name in between. -/
def CountsFit (engine next : Engine) : Prop :=
  ∀ scheme ∈ engine.registry.schemes, scheme.usage.toNat +
    (next.tree.recordedUnder scheme.name - engine.tree.recordedUnder scheme.name) < 2 ^ 64

theorem Served.countsFit {requests : List Request} (h : Served requests engine next)
    (hroom : ∀ scheme ∈ engine.registry.schemes,
      scheme.usage.toNat + requests.length < 2 ^ 64) : CountsFit engine next := by
  obtain ⟨uses, hfew, -, -, -, hunder⟩ := h.counted
  intro scheme hscheme
  have hsmall := hroom scheme hscheme
  have hcount : uses.count scheme.name ≤ uses.length := List.count_le_length
  rw [hunder, Nat.add_sub_cancel_left]
  omega

theorem Served.exists_totalUsage_eq {requests : List Request} (h : Served requests engine next)
    (hengine : engine.WellFormed) :
    ∃ new, next.tree.derivations.length = engine.tree.derivations.length + new ∧
      (CountsFit engine next →
        next.registry.totalUsage = engine.registry.totalUsage + new) := by
  obtain ⟨uses, -, hnames, hregistry, hlength, hunder⟩ := h.counted
  refine ⟨uses.length, hlength, fun hfits => ?_⟩
  rw [hregistry]
  apply hengine.sorted.totalUsage_countUses hnames
  intro scheme hscheme
  have hfit := hfits scheme hscheme
  rwa [hunder, Nat.add_sub_cancel_left] at hfit

/-- What the same requests lead to differs at most in the shape of the tree, in the order of the
derivations and in what is known of each of them but its word. -/
theorem Served.agree {requests : List Request} {other : Engine} (h : Served requests engine next)
    (h' : Served requests engine other) (hengine : engine.WellFormed) (hnext : next.WellFormed)
    (hother : other.WellFormed) :
    other.listRoots = next.listRoots ∧ (∀ text, (other.words text).Perm (next.words text)) ∧
      (CountsFit engine next → CountsFit engine other →
        other.registry.totalUsage = next.registry.totalUsage) := by
  have hroots : other.listRoots = next.listRoots :=
    listRoots_eq_of_mem_iff hother.ordered hnext.ordered fun text => by
      rw [h'.mem_listRoots_iff, h.mem_listRoots_iff]
  have hwords : ∀ text, (other.words text).Perm (next.words text) := by
    intro text
    refine (List.perm_ext_iff_of_nodup (hother.nodup_words text)
      (hnext.nodup_words text)).mpr fun word => ?_
    rw [h'.mem_words_iff, h.mem_words_iff]
  have hlength : other.tree.derivations.length = next.tree.derivations.length := by
    rw [length_derivations_eq hother.ordered, length_derivations_eq hnext.ordered, hroots]
    simp only [fun text => (hwords text).length_eq]
  obtain ⟨new, hrecorded, husage⟩ := h.exists_totalUsage_eq hengine
  obtain ⟨new', hrecorded', husage'⟩ := h'.exists_totalUsage_eq hengine
  refine ⟨hroots, hwords, fun hfits hfits' => ?_⟩
  have htotal := husage hfits
  have htotal' := husage' hfits'
  omega

end Engine

namespace Shared

open Engine

/-- Counters with room for every request of the clients do not begin again at zero. -/
theorem Run.countsFit {first last : Shared} {turns : List Turn} (h : Run first turns last)
    (hfirst : first.engine.WellFormed)
    (hadds : ∀ request ∈ first.waiting.flatten, request.OnlyAdds first.engine)
    (hroom : ∀ scheme ∈ first.engine.registry.schemes,
      scheme.usage.toNat + first.waiting.flatten.length < 2 ^ 64) :
    CountsFit first.engine last.engine := by
  obtain ⟨hserved, -⟩ := h.served hfirst (Served.refl _) hadds
  apply hserved.countsFit
  intro scheme hscheme
  have hsmall := hroom scheme hscheme
  have hlength := h.requests_perm.length_eq
  rw [List.length_append] at hlength
  rw [List.nil_append]
  omega

/-- Interleavings of clients that only add. Any run of clients can be finished. When it is, each
new root was gained in one turn, by a client that asked for it and was told so; the roots are
those from the start and the candidates with three letters, in ascending order and in a balanced
tree; every word that was generated is the one its scheme makes of its root; the words of a root
are those from the start and those generated of it; and as many uses were counted as words were
recorded, if 64 bits suffice. Two runs of the same clients agree in all of this. -/
theorem interleavings_agree {p : Placeholders} {start : Engine} (hstart : Initial p start)
    (steps : List (Occasion × Request)) {clients : List (List Request)}
    (hadds : ∀ requests ∈ clients, ∀ request ∈ requests,
      request.OnlyAdds (start.run steps).2) :
    let engine := (start.run steps).2
    (∃ turns last, Run ⟨engine, clients⟩ turns last ∧ last.Finished) ∧
    ∀ turns last, Run ⟨engine, clients⟩ turns last → last.Finished →
      (∀ turn ∈ turns, turn.reported = turn.gained.length ∧
        ∀ root ∈ turn.gained, root.text ∈ turn.request.candidates) ∧
      (∀ root, (turns.countP fun turn => root ∈ turn.gained) =
        if root ∉ engine.tree.roots ∧ root.text ∈ clients.flatten.flatMap Request.candidates
        then 1 else 0) ∧
      last.engine.listRoots.Pairwise (fun a b => a < b) ∧
      (∀ text, text ∈ last.engine.listRoots ↔ text ∈ engine.listRoots ∨
        text.length = 3 ∧ text ∈ clients.flatten.flatMap Request.candidates) ∧
      last.engine.tree.isBalanced = true ∧
      (∀ turn ∈ turns, ∀ text name, turn.request = .generate text name →
        ∃ word, engine.Makes text name word ∧ turn.response = .word word) ∧
      (∀ text, (last.engine.words text).Nodup ∧ ∀ word, word ∈ last.engine.words text ↔
        word ∈ engine.words text ∨
          ∃ name, .generate text name ∈ clients.flatten ∧ engine.Makes text name word) ∧
      (∃ new, last.engine.tree.derivations.length = engine.tree.derivations.length + new ∧
        (CountsFit engine last.engine →
          last.engine.registry.totalUsage = engine.registry.totalUsage + new)) ∧
      ∀ turns' last', Run ⟨engine, clients⟩ turns' last' → last'.Finished →
        last'.engine.listRoots = last.engine.listRoots ∧
        (∀ text, (last'.engine.words text).Perm (last.engine.words text)) ∧
        (CountsFit engine last.engine → CountsFit engine last'.engine →
          last'.engine.registry.totalUsage = last.engine.registry.totalUsage) ∧
        (turns'.map Turn.reported).sum = (turns.map Turn.reported).sum := by
  intro engine
  have hengine : engine.WellFormed := hstart.faithful.wellFormed.run steps
  have hrequests : ∀ request ∈ clients.flatten, request.OnlyAdds engine := by
    intro request hmem
    obtain ⟨requests, hrequests, hrequest⟩ := List.mem_flatten.mp hmem
    exact hadds requests hrequests request hrequest
  have hrun : ∀ turns last, Run ⟨engine, clients⟩ turns last → last.Finished →
      Served clients.flatten engine last.engine ∧ (∀ turn ∈ turns, turn.Accounted engine) ∧
        last.engine.rootCount = engine.rootCount + (turns.map Turn.reported).sum := by
    intro turns last h hfinished
    obtain ⟨hserved, hturns⟩ := h.served hengine (Served.refl engine) hrequests
    refine ⟨hserved.perm (h.requests_perm_of_finished hfinished), hturns, ?_⟩
    rw [h.rootCount_eq hengine, List.map_congr_left fun turn hturn =>
      (hturns turn hturn).reported_eq]
  refine ⟨exists_finished_run _, ?_⟩
  intro turns last h hfinished
  obtain ⟨hserved, hturns, hcount⟩ := hrun turns last h hfinished
  have hlast : last.engine.WellFormed := h.wellFormed hengine
  refine ⟨?_, ?_, pairwise_listRoots hlast.ordered, fun text => hserved.mem_listRoots_iff, ?_,
    fun turn hturn => (hturns turn hturn).response_eq, ?_, hserved.exists_totalUsage_eq hengine, ?_⟩
  · intro turn hturn
    exact ⟨(hturns turn hturn).reported_eq, (hturns turn hturn).candidate_of_gained⟩
  · intro root
    rw [h.countP_gained hengine]
    congr 1
    rw [hserved.mem_roots_iff]
    simp only [eq_iff_iff]
    tauto
  · have hbalanced : engine.tree.Balanced := hstart.balanced_run steps
    refine RootTree.isBalanced_iff.mpr (h.preserves (P := fun engine => engine.tree.Balanced)
      (fun now before request hbefore => ?_) hbalanced)
    exact perform_preserves (P := fun engine => engine.tree.Balanced)
      (fun _ _ hupdate hbefore => balanced_update hupdate hbefore) now hbefore
  · intro text
    exact ⟨hlast.nodup_words text, hserved.mem_words_iff text⟩
  · intro turns' last' h' hfinished'
    obtain ⟨hserved', -, hcount'⟩ := hrun turns' last' h' hfinished'
    obtain ⟨hroots, hwords, husage⟩ := hserved.agree hserved' hengine hlast
      (h'.wellFormed hengine)
    refine ⟨hroots, hwords, husage, ?_⟩
    have hsame : last'.engine.rootCount = last.engine.rootCount := by
      rw [rootCount_eq_length_listRoots, hroots, rootCount_eq_length_listRoots]
    omega

def lockedStart : List (Occasion × Request) :=
  [.addRoot "كتب", .modifyScheme "مفعل" "فاعل"].map (Occasion.ofEpoch 0, ·)

/-- Two clients that ask for the same root and for the same word, by different schemes. -/
def rivals : List (List Request) :=
  [[.addRoot "درس", .generate "كتب" "فاعل"],
    [.generate "كتب" "مفعل", .loadRoots ["علم", "درس", "عل"]]]

theorem interleavings_agree_rivals :
    let engine := ((Engine.withCatalog .standard).run lockedStart).2
    (∀ requests ∈ rivals, ∀ request ∈ requests, request.OnlyAdds engine) ∧
    (∃ turns last, Run ⟨engine, rivals⟩ turns last ∧ last.Finished) ∧
    ∀ turns last, Run ⟨engine, rivals⟩ turns last → last.Finished →
      (turns.countP fun turn => ⟨'د', 'ر', 'س'⟩ ∈ turn.gained) = 1 ∧
      last.engine.tree.isBalanced = true ∧ "علم" ∈ last.engine.listRoots ∧
      "عل" ∉ last.engine.listRoots ∧
      last.engine.registry.totalUsage = last.engine.tree.derivations.length ∧
      ∀ word, word ∈ last.engine.words "كتب" ↔ word = "كاتب" := by
  intro engine
  have hadds : ∀ requests ∈ rivals, ∀ request ∈ requests, request.OnlyAdds engine := by
    decide +kernel
  have hmakes : ∀ name ∈ ["فاعل", "مفعل"], engine.Makes "كتب" name "كاتب" := by
    intro name hname
    have hword : (engine.registry.find? name).map (fun scheme => scheme.word ⟨'ك', 'ت', 'ب'⟩) =
        some "كاتب" := by
      revert name
      decide +kernel
    obtain ⟨scheme, hfind, hword⟩ := Option.map_eq_some_iff.mp hword
    exact ⟨⟨'ك', 'ت', 'ب'⟩, by decide +kernel, scheme, hfind, rfl, hword⟩
  obtain ⟨hfinish, hall⟩ := interleavings_agree .withCatalog lockedStart hadds
  refine ⟨hadds, hfinish, fun turns last h hfinished => ?_⟩
  obtain ⟨-, hgained, -, hroots, hbalanced, -, hwords, ⟨new, hlength, husage⟩, -⟩ :=
    hall turns last h hfinished
  refine ⟨?_, hbalanced, (hroots _).mpr (.inr (by decide)), ?_, ?_, fun word => ?_⟩
  · rw [hgained]
    decide +kernel
  · rw [hroots]
    decide +kernel
  · have hengine : engine.WellFormed := Initial.withCatalog.faithful.wellFormed.run lockedStart
    have hstart : engine.registry.totalUsage = 0 ∧ engine.tree.derivations.length = 0 := by
      decide +kernel
    have hroom : ∀ scheme ∈ engine.registry.schemes,
        scheme.usage.toNat + rivals.flatten.length < 2 ^ 64 := by decide +kernel
    have hrequests : ∀ request ∈ rivals.flatten, request.OnlyAdds engine := by decide +kernel
    rw [husage (h.countsFit hengine hrequests hroom), hlength, hstart.1, hstart.2]
  · have hempty : engine.words "كتب" = [] := by decide +kernel
    rw [(hwords _).2, hempty]
    constructor
    · rintro (hnone | ⟨name, hmem, hmade⟩)
      · exact absurd hnone List.not_mem_nil
      · have hname : name ∈ ["فاعل", "مفعل"] := by simpa [rivals] using hmem
        exact hmade.unique (hmakes name hname)
    · rintro rfl
      exact .inr ⟨"فاعل", by simp [rivals], hmakes "فاعل" List.mem_cons_self⟩

end Shared

end Triliteral
