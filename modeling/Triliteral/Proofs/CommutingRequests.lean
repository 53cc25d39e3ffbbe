import Triliteral.Proofs.SchemeEdits
import Triliteral.Proofs.SessionAgreement
import Triliteral.Proofs.StoredRoots
import Triliteral.Proofs.UnreadHistory

/-!
Independent requests commute. Two requests that concern different roots or different schemes give
the same answers in either order and lead to the same snapshot, though the trees may have different
shapes.
-/

namespace Triliteral

namespace Request

def concernedRoot? : Request → Option String
  | .addRoot text | .generate text _ | .validate text _ => some text
  | _ => none

/-- Holds of registries that a request about a root cannot tell apart. -/
def ReadsAlike (a b : Registry) : Request → Prop
  | .generate _ name => a.bare.find? name = b.bare.find? name
  | .validate .. => a.bare = b.bare
  | _ => True

/-- What a request about a root may do to the registry. -/
inductive Counts : Request → (Registry → Registry) → Prop
  | nothing (request : Request) : Counts request id
  | use (text name : String) : Counts (.generate text name) (·.countUse name)

/-- Holds of a request that changes one root only and does the same to all engines that have the
same entry of this root and that it cannot tell apart by their registries. -/
def Concerns (text : String) (request : Request) : Prop :=
  ∀ (now : Occasion) (reference : Engine), reference.tree.Ordered → ∃ response change count,
    EditsAt RootTree.Ordered RootTree.stored? text change ∧ request.Counts count ∧
      ∀ engine : Engine, engine.tree.Ordered →
        engine.tree.stored? text = reference.tree.stored? text →
        request.ReadsAlike engine.registry reference.registry →
          engine.perform now request = (response,
            { engine with tree := change engine.tree, registry := count engine.registry })

end Request

namespace Engine

open Request

variable {engine : Engine} {text : String}

/-! ### Requests about a root -/

theorem findRoot_of_stored? {entry : RootEntry} (h : engine.tree.stored? text = some entry) :
    ∃ node, engine.findRoot text = .ok node ∧ node.entry = entry := by
  obtain ⟨node, hfound, rfl⟩ := Option.map_eq_some_iff.mp h
  exact ⟨node, by rw [findRoot, hfound], rfl⟩

theorem findRoot_of_stored?_eq_none (h : engine.tree.stored? text = none) :
    engine.findRoot text = .error (.rootNotFound text) := by
  rw [findRoot, Option.map_eq_none_iff.mp h]

theorem generate_of_stored? {entry : RootEntry} (hentry : engine.tree.stored? text = some entry)
    {name : String} {bare : Scheme} (hbare : engine.registry.bare.find? name = some bare)
    (now : Occasion) :
    engine.generate now text name = .ok (bare.word entry.root,
      if entry.derivations.any fun earlier => earlier.word == bare.word entry.root then engine
      else
        { engine with
          tree := engine.tree.record entry.root ⟨bare.word entry.root, name, now.time⟩
          registry := engine.registry.countUse name }) := by
  obtain ⟨node, hnode, rfl⟩ := findRoot_of_stored? hentry
  rw [Registry.find?_bare] at hbare
  obtain ⟨scheme, hfind, rfl⟩ := Option.map_eq_some_iff.mp hbare
  rw [Scheme.word_bare]
  exact generate_of_found hnode (Registry.get_eq_ok_iff.mpr hfind)

theorem concerns_addRoot (text : String) : Concerns text (.addRoot text) := by
  intro now reference hreference
  cases hroot : Root.ofText? text with
  | none =>
      refine ⟨.refused (.invalidRoot text), id, id, .refl text, .nothing _, ?_⟩
      intro engine _ _ _
      rw [perform, addRoot, hroot]
      rfl
  | some root =>
      obtain rfl := Root.ofText?_eq_some_iff.mp hroot
      have hsame : ∀ engine : Engine, engine.tree.Ordered →
          engine.tree.stored? root.text = reference.tree.stored? root.text →
            (root ∈ engine.tree.roots ↔ root ∈ reference.tree.roots) := by
        intro engine hordered hentry
        rw [← not_iff_not, ← RootTree.stored?_text_eq_none_iff hordered, hentry,
          RootTree.stored?_text_eq_none_iff hreference]
      by_cases hold : root ∈ reference.tree.roots
      · refine ⟨.refused (.duplicateRoot root.text), id, id, .refl _, .nothing _, ?_⟩
        intro engine hordered hentry _
        rw [perform, addRoot_text hordered, if_pos ((hsame engine hordered hentry).mpr hold)]
        rfl
      · refine ⟨.done, fun tree => (tree.insert root).2, id, RootTree.editsAt_insert root,
          .nothing _, ?_⟩
        intro engine hordered hentry _
        have hnew := mt (hsame engine hordered hentry).mp hold
        have hinsert : engine.tree.insert root = (.added, RootTree.grow root engine.tree) := by
          rw [RootTree.insert_eq hordered, if_neg hnew]
        rw [perform, addRoot_text hordered, if_neg hnew]
        simp only [hinsert]
        rfl

theorem concerns_generate (text name : String) : Concerns text (.generate text name) := by
  intro now reference hreference
  cases hfound : reference.tree.stored? text with
  | none =>
      refine ⟨.refused (.rootNotFound text), id, id, .refl text, .nothing _, ?_⟩
      intro engine _ hentry _
      rw [perform, generate, findRoot_of_stored?_eq_none hentry]
      rfl
  | some entry =>
      obtain ⟨-, rfl⟩ := (RootTree.stored?_eq_some_iff hreference).mp hfound
      cases hscheme : reference.registry.bare.find? name with
      | none =>
          refine ⟨.refused (.schemeNotFound name), id, id, .refl _, .nothing _, ?_⟩
          intro engine _ hentry hreads
          obtain ⟨node, hnode, -⟩ := findRoot_of_stored? hentry
          have hunknown : engine.registry.find? name = none := by
            rw [ReadsAlike, hscheme, Registry.find?_bare, Option.map_eq_none_iff] at hreads
            exact hreads
          rw [perform, generate, hnode, ok_bind, Registry.get, hunknown]
          rfl
      | some bare =>
          -- the entry and the rule tell the word and whether it is new on the root
          cases hold : entry.derivations.any fun earlier =>
              earlier.word == bare.word entry.root with
          | true =>
              refine ⟨.word (bare.word entry.root), id, id, .refl _, .nothing _, ?_⟩
              intro engine _ hentry hreads
              rw [perform, generate_of_stored? hentry (hreads.trans hscheme), if_pos hold]
              rfl
          | false =>
              refine ⟨.word (bare.word entry.root), _, _, RootTree.editsAt_record entry.root
                ⟨bare.word entry.root, name, now.time⟩, .use _ name, ?_⟩
              intro engine _ hentry hreads
              rw [perform, generate_of_stored? hentry (hreads.trans hscheme),
                if_neg (Bool.eq_false_iff.mp hold)]
              rfl

theorem concerns_validate (text word : String) : Concerns text (.validate text word) := by
  intro now reference hreference
  cases hfound : reference.tree.stored? text with
  | none =>
      refine ⟨.refused (.rootNotFound text), id, id, .refl text, .nothing _, ?_⟩
      intro engine _ hentry _
      rw [perform, validate, findRoot_of_stored?_eq_none hentry]
      rfl
  | some entry =>
      obtain ⟨-, rfl⟩ := (RootTree.stored?_eq_some_iff hreference).mp hfound
      have hproducers : ∀ engine : Engine, engine.registry.bare = reference.registry.bare →
          engine.registry.producers entry.root word =
            reference.registry.producers entry.root word := by
        intro engine hbare
        rw [← Registry.producers_bare, hbare, Registry.producers_bare]
      cases hnames : reference.registry.producers entry.root word with
      | nil =>
          refine ⟨.verdict [], id, id, .refl _, .nothing _, ?_⟩
          intro engine _ hentry hreads
          obtain ⟨node, hnode, rfl⟩ := findRoot_of_stored? hentry
          rw [perform, validate, hnode, ok_bind]
          simp only [hproducers engine hreads, hnames]
          rfl
      | cons name names =>
          refine ⟨.verdict (name :: names), _, id, RootTree.editsAt_record entry.root
            ⟨word, now.choose (name :: names), now.time⟩, .nothing _, ?_⟩
          intro engine _ hentry hreads
          obtain ⟨node, hnode, rfl⟩ := findRoot_of_stored? hentry
          rw [perform, validate, hnode, ok_bind]
          simp only [hproducers engine hreads, hnames]
          rfl

theorem concerns_of_concernedRoot? {request : Request} (h : request.concernedRoot? = some text) :
    Concerns text request := by
  cases request with
  | addRoot named => exact Option.some.inj h ▸ concerns_addRoot named
  | generate named name => exact Option.some.inj h ▸ concerns_generate named name
  | validate named word => exact Option.some.inj h ▸ concerns_validate named word
  | _ => cases h

end Engine

namespace Request

theorem readsAlike_of_bare_eq {a b : Registry} (h : a.bare = b.bare) (request : Request) :
    request.ReadsAlike a b := by
  cases request with
  | generate text name => exact congrArg (Registry.find? · name) h
  | validate text word => exact h
  | _ => trivial

namespace Counts

variable {request request' : Request} {count count' : Registry → Registry} {registry : Registry}

theorem bare_eq (h : request.Counts count) (registry : Registry) :
    (count registry).bare = registry.bare := by
  cases h with
  | nothing => rfl
  | use text name => exact Registry.bare_countUse registry name

theorem comm (h : request.Counts count) (h' : request'.Counts count') (hsorted : registry.Sorted) :
    count (count' registry) = count' (count registry) := by
  cases h with
  | nothing => rfl
  | use text name =>
      cases h' with
      | nothing => rfl
      | use text' other => exact Registry.countUse_comm hsorted other name

theorem editsAt {text name : String} (h : Counts (.generate text name) count) :
    EditsAt Registry.Sorted Registry.find? name count := by
  cases h with
  | nothing => exact .refl name
  | use => exact Registry.editsAt_countUse name

end Counts

/-- Two requests of which neither depends on what the other one changes: edits of different schemes,
requests about different roots, or making a word by one scheme and editing another one. -/
inductive Independent : Request → Request → Prop
  | schemes {first second : Request} {name other : String}
      (hfirst : first.editedScheme? = some name) (hsecond : second.editedScheme? = some other)
      (hne : name ≠ other) : Independent first second
  | roots {first second : Request} {text other : String}
      (hfirst : first.concernedRoot? = some text) (hsecond : second.concernedRoot? = some other)
      (hne : text ≠ other) : Independent first second
  | wordAndScheme {text scheme name : String} {second : Request}
      (hsecond : second.editedScheme? = some name) (hne : scheme ≠ name) :
      Independent (.generate text scheme) second
  | schemeAndWord {text scheme name : String} {first : Request}
      (hfirst : first.editedScheme? = some name) (hne : name ≠ scheme) :
      Independent first (.generate text scheme)

theorem not_asksHistory_of_editedScheme? {request : Request} {name : String}
    (h : request.editedScheme? = some name) : ¬ request.AsksHistory := by
  cases request with
  | addScheme | addExplicitScheme | modifyScheme | removeScheme => exact id
  | _ => cases h

theorem not_asksHistory_of_concernedRoot? {request : Request} {text : String}
    (h : request.concernedRoot? = some text) : ¬ request.AsksHistory := by
  cases request with
  | addRoot | generate | validate => exact id
  | _ => cases h

theorem Independent.not_asksHistory {first second : Request} (h : Independent first second) :
    ¬ first.AsksHistory ∧ ¬ second.AsksHistory := by
  cases h with
  | schemes hfirst hsecond =>
      exact ⟨not_asksHistory_of_editedScheme? hfirst, not_asksHistory_of_editedScheme? hsecond⟩
  | roots hfirst hsecond =>
      exact ⟨not_asksHistory_of_concernedRoot? hfirst, not_asksHistory_of_concernedRoot? hsecond⟩
  | wordAndScheme hsecond => exact ⟨id, not_asksHistory_of_editedScheme? hsecond⟩
  | schemeAndWord hfirst => exact ⟨not_asksHistory_of_editedScheme? hfirst, id⟩

end Request

namespace Engine

open Request

variable {engine : Engine} {first second : Request} {now now' : Occasion}

/-! ### Exchanging two requests -/

/-- Holds if each of two requests is answered alike whichever comes first, and both orders lead to
the same entries and schemes. -/
def Exchanged (engine : Engine) (now now' : Occasion) (first second : Request) : Prop :=
  let there := engine.run [(now, first), (now', second)]
  let back := engine.run [(now', second), (now, first)]
  there.1 = back.1.reverse ∧ there.2.tree.entries = back.2.tree.entries ∧
    there.2.registry = back.2.registry

theorem Exchanged.symm (h : Exchanged engine now now' first second) :
    Exchanged engine now' now second first := by
  obtain ⟨hresponses, hentries, hregistry⟩ := h
  exact ⟨by rw [hresponses, List.reverse_reverse], hentries.symm, hregistry.symm⟩

theorem exchanged_of_perform (f f' : RootTree → RootTree) {g g' : Registry → Registry}
    {response response' : Response}
    (hfirst : engine.perform now first =
      (response, { engine with tree := f engine.tree, registry := g engine.registry }))
    (hsecond : engine.perform now' second =
      (response', { engine with tree := f' engine.tree, registry := g' engine.registry }))
    (hlast : perform now' { engine with tree := f engine.tree, registry := g engine.registry }
      second = (response',
        { engine with tree := f' (f engine.tree), registry := g' (g engine.registry) }))
    (hlast' : perform now { engine with tree := f' engine.tree, registry := g' engine.registry }
      first = (response,
        { engine with tree := f (f' engine.tree), registry := g (g' engine.registry) }))
    (htree : (f (f' engine.tree)).entries = (f' (f engine.tree)).entries)
    (hregistry : g (g' engine.registry) = g' (g engine.registry)) :
    Exchanged engine now now' first second := by
  simp only [Exchanged, run, hfirst, hsecond, hlast, hlast']
  exact ⟨rfl, htree.symm, hregistry.symm⟩

theorem WellFormed.exchanged_edits (hengine : engine.WellFormed) {name other : String}
    (hfirst : first.editedScheme? = some name) (hsecond : second.editedScheme? = some other)
    (hne : name ≠ other) : Exchanged engine now now' first second := by
  obtain ⟨response, g, hg, hperform⟩ :=
    edits_of_editedScheme? hfirst engine.placeholders (engine.registry.find? name)
  obtain ⟨response', g', hg', hperform'⟩ :=
    edits_of_editedScheme? hsecond engine.placeholders (engine.registry.find? other)
  apply exchanged_of_perform id id
  · exact hperform now engine rfl rfl
  · exact hperform' now' engine rfl rfl
  · exact hperform' now' _ rfl (hg.lookup_of_ne hengine.sorted hne.symm)
  · exact hperform now _ rfl (hg'.lookup_of_ne hengine.sorted hne)
  · rfl
  · exact Registry.editsAt_comm hg hg' hne hengine.sorted

theorem WellFormed.exchanged_roots (hengine : engine.WellFormed) {text other : String}
    (hfirst : first.concernedRoot? = some text) (hsecond : second.concernedRoot? = some other)
    (hne : text ≠ other) : Exchanged engine now now' first second := by
  have hordered := hengine.ordered
  obtain ⟨response, f, g, hf, hg, hperform⟩ :=
    concerns_of_concernedRoot? hfirst now engine hordered
  obtain ⟨response', f', g', hf', hg', hperform'⟩ :=
    concerns_of_concernedRoot? hsecond now' engine hordered
  apply exchanged_of_perform f f'
  · exact hperform engine hordered rfl (readsAlike_of_bare_eq rfl first)
  · exact hperform' engine hordered rfl (readsAlike_of_bare_eq rfl second)
  -- a use that was counted cannot be told by requests about a root, not even for the same scheme
  · exact hperform' _ (hf.keeps hordered) (hf.lookup_of_ne hordered hne.symm)
      (readsAlike_of_bare_eq (hg.bare_eq _) second)
  · exact hperform _ (hf'.keeps hordered) (hf'.lookup_of_ne hordered hne)
      (readsAlike_of_bare_eq (hg'.bare_eq _) first)
  · exact RootTree.editsAt_comm hf hf' hne hordered
  · exact hg.comm hg' hengine.sorted

theorem WellFormed.exchanged_word_edit (hengine : engine.WellFormed) {text scheme name : String}
    (hsecond : second.editedScheme? = some name) (hne : scheme ≠ name) :
    Exchanged engine now now' (.generate text scheme) second := by
  have hordered := hengine.ordered
  obtain ⟨response, f, g, -, hcounts, hperform⟩ := concerns_generate text scheme now engine hordered
  obtain ⟨response', g', hg', hperform'⟩ :=
    edits_of_editedScheme? hsecond engine.placeholders (engine.registry.find? name)
  have hg := hcounts.editsAt
  apply exchanged_of_perform f id
  · exact hperform engine hordered rfl (readsAlike_of_bare_eq rfl _)
  · exact hperform' now' engine rfl rfl
  · exact hperform' now' _ rfl (hg.lookup_of_ne hengine.sorted hne.symm)
  · refine hperform _ hordered rfl ?_
    rw [ReadsAlike, Registry.find?_bare, Registry.find?_bare, hg'.lookup_of_ne hengine.sorted hne]
  · rfl
  · exact Registry.editsAt_comm hg hg' hne hengine.sorted

theorem WellFormed.exchanged (hengine : engine.WellFormed) (h : Independent first second)
    (now now' : Occasion) : Exchanged engine now now' first second := by
  cases h with
  | schemes hfirst hsecond hne => exact hengine.exchanged_edits hfirst hsecond hne
  | roots hfirst hsecond hne => exact hengine.exchanged_roots hfirst hsecond hne
  | wordAndScheme hsecond hne => exact hengine.exchanged_word_edit hsecond hne
  | schemeAndWord hfirst hne => exact (hengine.exchanged_word_edit hfirst hne.symm).symm

/-! ### Other clocks -/

theorem snapshot_eq_of_entries_eq {a b : Engine} (hentries : a.tree.entries = b.tree.entries)
    (hregistry : a.registry = b.registry) : a.snapshot = b.snapshot := by
  rw [snapshot, snapshot, hentries, hregistry]

theorem fst_run_pair_eq (hfirst : ¬ first.AsksHistory) (hsecond : ¬ second.AsksHistory)
    (engine : Engine) (now now' later later' : Occasion) :
    (engine.run [(now, first), (now', second)]).1 =
      (engine.run [(later, first), (later', second)]).1 := by
  obtain ⟨hresponse, hnext⟩ := perform_eq_of_bare (rfl : engine.bare = engine.bare) now later first
  obtain ⟨hresponse', -⟩ := perform_eq_of_bare hnext now' later' second
  simp only [run, hresponse hfirst, hresponse' hsecond]

/-- The steps of two runs of which each was made on one of these pairs of occasions. -/
def ticksAt (pairs : List (Occasion × Occasion)) : Ticks :=
  {tick | (tick.left, tick.right) ∈ pairs}

theorem WellFormed.agrees_run_pair (hengine : engine.WellFormed) (now now' later later' : Occasion)
    (first second : Request) :
    (engine.run [(now, first), (now', second)]).2.Agrees (ticksAt [(now, later), (now', later')])
      (engine.run [(later, first), (later', second)]).2 := by
  have htick : ⟨now, later, (engine.perform now first).1.named⟩ ∈
      ticksAt [(now, later), (now', later')] := List.mem_cons_self
  have htick' : ⟨now', later', ((engine.perform now first).2.perform now' second).1.named⟩ ∈
      ticksAt [(now, later), (now', later')] := List.mem_cons_of_mem _ List.mem_cons_self
  obtain ⟨-, hnext⟩ := (agrees_refl hengine.ordered).perform hengine hengine htick
  exact (hnext.perform (hengine.perform now first) (hengine.perform later first) htick').2

/-- Independent requests commute. After any run from any start, two such requests are answered
alike in either order and at whatever times. Both orders lead to the same schemes and to snapshots
that differ at most in the times of what the two requests recorded. -/
theorem independent_requests_commute {p : Placeholders} {start : Engine} (hstart : Initial p start)
    (steps : List (Occasion × Request)) {first second : Request} (h : Independent first second)
    (now now' : Occasion) (later later' : Instant) :
    let engine := (start.run steps).2
    let there := engine.run [(now, first), (now', second)]
    let back := engine.run [(now'.shiftedTo later, second), (now.shiftedTo later', first)]
    there.1 = back.1.reverse ∧ there.2.registry = back.2.registry ∧
      there.2.snapshot.Agrees
        (ticksAt [(now', now'.shiftedTo later), (now, now.shiftedTo later')]) back.2.snapshot := by
  intro engine there back
  have hengine : engine.WellFormed := hstart.faithful.wellFormed.run steps
  obtain ⟨hresponses, hentries, hregistry⟩ := hengine.exchanged h now now'
  -- exchanged at their own times first, then made at the other ones in the new order
  have hagrees := hengine.agrees_run_pair now' now (now'.shiftedTo later) (now.shiftedTo later')
    second first
  refine ⟨?_, hregistry.trans hagrees.registry_eq, ?_⟩
  · rw [hresponses]
    exact congrArg List.reverse
      (fst_run_pair_eq h.not_asksHistory.2 h.not_asksHistory.1 engine now' now _ _)
  · rw [snapshot_eq_of_entries_eq hentries hregistry]
    exact hagrees.snapshot

/-- Two roots that the tree holds in different shapes, whichever comes first. -/
theorem independent_requests_commute_shapes :
    let engine := ((withCatalog .standard).run
      [(Occasion.ofEpoch 0, .loadRoots ["بحث", "درس"])]).2
    let now := Occasion.ofEpoch 1
    let later := Instant.ofEpoch 2
    let there := engine.run [(now, .addRoot "علم"), (now, .addRoot "كتب")]
    let back := engine.run
      [(now.shiftedTo later, .addRoot "كتب"), (now.shiftedTo later, .addRoot "علم")]
    Independent (.addRoot "علم") (.addRoot "كتب") ∧ there.1 = back.1.reverse ∧
      there.2.snapshot.Agrees (ticksAt [(now, now.shiftedTo later), (now, now.shiftedTo later)])
        back.2.snapshot ∧ there.2.tree ≠ back.2.tree := by
  intro engine now later there back
  have hroots : Independent (.addRoot "علم") (.addRoot "كتب") := .roots rfl rfl (by decide)
  obtain ⟨hresponses, -, hsnapshot⟩ := independent_requests_commute (.withCatalog (p := .standard))
    [(Occasion.ofEpoch 0, .loadRoots ["بحث", "درس"])] hroots now now later later
  exact ⟨hroots, hresponses, hsnapshot, by decide +kernel⟩

end Engine

end Triliteral
