import Triliteral.Command.Run
import Triliteral.Proofs.LeastAnalysis
import Triliteral.Proofs.RootAdditions
import Triliteral.Proofs.SessionAgreement
import Triliteral.Proofs.SnapshotFile

/-!
The replies to commands. A command makes a few requests to the engine, and reports a change
whenever there is one; engines that agree get replies that differ at most in the times that are
shown, in the scheme that is named of several, and in the drawing of the tree.
-/

namespace Triliteral.Command

variable {settings : Settings} {files : MemoryFiles}

/-! ### Replies over files in memory -/

def loadReply (engine : Engine) (path : String) : Option String → Reply
  | some text =>
    let (report, next) := engine.loadRoots (RootsFile.candidates text)
    ⟨loadMessages path report, next, decide (0 < report.added), none⟩
  | none => Reply.failed engine (.io (.readRoots path))

theorem loadRoots_run (engine : Engine) (path : String) :
    (Command.loadRoots engine path : MemoryFiles.Run Reply) files =
      (loadReply engine path (files.read? path), files) := by
  have hroots := Storage.loadRoots_run files path engine
  cases hread : files.read? path with
  | none =>
      rw [hread] at hroots
      exact MemoryFiles.run_bind hroots _
  | some text =>
      rw [hread] at hroots
      exact MemoryFiles.run_bind hroots _

namespace EngineCommand

def reply (settings : Settings) (files : MemoryFiles) (now : Occasion) (engine : Engine)
    (command : EngineCommand) : Reply :=
  ((command.perform settings now engine : MemoryFiles.Run Reply) files).1

theorem perform_run (now : Occasion) (engine : Engine) (command : EngineCommand) :
    (command.perform settings now engine : MemoryFiles.Run Reply) files =
      (command.reply settings files now engine, files) := by
  cases command with
  | loadRoots path =>
      rw [reply, perform, loadRoots_run]
  | _ => rfl

theorem reply_loadRoots (now : Occasion) (engine : Engine) (path : String) :
    (loadRoots path).reply settings files now engine =
      loadReply engine path (files.read? path) := by
  rw [reply, perform, loadRoots_run]

/-! ### Changes -/

/-- The requests by which a command may change the engine. -/
def requests (files : MemoryFiles) : EngineCommand → List Request
  | .addRoots texts => texts.map Request.addRoot
  | .loadRoots path =>
    ((files.read? path).map fun text => Request.loadRoots (RootsFile.candidates text)).toList
  | .addScheme pattern category => [.addScheme pattern category]
  | .modifyScheme name pattern => [.modifyScheme name pattern]
  | .removeScheme name => [.removeScheme name]
  | .generate root scheme => [.generate root scheme]
  | .validate root word => [.validate root word]
  | _ => []

theorem keepsFaithful_of_mem_requests {command : EngineCommand} {request : Request}
    (h : request ∈ command.requests files) (p : Placeholders) : request.KeepsFaithful p := by
  cases command with
  | addRoots texts =>
      obtain ⟨text, -, rfl⟩ := List.mem_map.mp h
      trivial
  | loadRoots path =>
      obtain ⟨text, -, rfl⟩ := by simpa [requests] using h
      trivial
  | addScheme | modifyScheme | removeScheme | generate | validate =>
      obtain rfl := List.mem_singleton.mp h
      trivial
  | _ => exact absurd h List.not_mem_nil

end EngineCommand

theorem engine_add (settings : Settings) (now : Occasion) (additions : Additions) (text : String) :
    (additions.add settings text).engine =
      (additions.engine.perform now (.addRoot text)).2 := by
  rw [Additions.add, Engine.perform, Engine.settleDone]
  cases additions.engine.addRoot text with
  | ok next => rfl
  | error fault => cases fault <;> rfl

theorem engine_addRoots (settings : Settings) (now : Occasion) (engine : Engine)
    (texts : List String) :
    (addRoots settings engine texts).engine =
      (engine.run ((texts.map Request.addRoot).map (now, ·))).2 := by
  have hfold : ∀ additions : Additions, (texts.foldl (Additions.add settings) additions).engine =
      (additions.engine.run ((texts.map Request.addRoot).map (now, ·))).2 := by
    induction texts with
    | nil =>
        intro additions
        rfl
    | cons text texts ih =>
        intro additions
        rw [List.foldl_cons, ih, engine_add settings now]
        rfl
  rw [addRoots]
  split <;> exact hfold ⟨engine, [], 0, none⟩

namespace EngineCommand

/-- A command is a run of its requests, all at the time of the command. -/
theorem engine_reply (now : Occasion) (engine : Engine) (command : EngineCommand) :
    (command.reply settings files now engine).engine =
      (engine.run ((command.requests files).map (now, ·))).2 := by
  cases command with
  | addRoots texts => exact engine_addRoots settings now engine texts
  | loadRoots path =>
      rw [reply_loadRoots, requests]
      cases files.read? path <;> rfl
  | addScheme pattern category =>
      change (Reply.ofOutcome engine _ (engine.addScheme pattern category)).engine =
        (engine.settleDone (engine.addScheme pattern category)).2
      cases engine.addScheme pattern category <;> rfl
  | modifyScheme name pattern =>
      change (Reply.ofOutcome engine _ (engine.modifyScheme name pattern)).engine =
        (engine.settleDone (engine.modifyScheme name pattern)).2
      cases engine.modifyScheme name pattern <;> rfl
  | removeScheme name =>
      change (Reply.ofOutcome engine _ (engine.removeScheme name)).engine =
        (engine.settleDone (engine.removeScheme name)).2
      cases engine.removeScheme name <;> rfl
  | generate root scheme =>
      change (Reply.ofOutcome engine _ (engine.generate now root scheme)).engine =
        (engine.settle Response.word (engine.generate now root scheme)).2
      cases engine.generate now root scheme <;> rfl
  | validate root word =>
      change (Reply.ofOutcome engine _ (engine.validate now root word)).engine =
        (engine.settle Response.verdict (engine.validate now root word)).2
      cases engine.validate now root word with
      | error fault => rfl
      | ok result =>
          simp only [Reply.ofOutcome]
          split <;> rfl
  | showRoot text =>
      change (Reply.ofOutcome engine _ (engine.findRoot text)).engine = engine
      cases engine.findRoot text <;> rfl
  | derivations root =>
      change (Reply.ofOutcome engine _ (engine.derivations root)).engine = engine
      cases engine.derivations root <;> rfl
  | analyze word =>
      change (Command.analyze settings now engine word).engine = engine
      rw [Command.analyze]
      split <;> rfl
  | listRoots | drawTree | countRoots | listSchemes | popularSchemes => rfl

theorem faithful_reply {p : Placeholders} {engine : Engine} (h : engine.Faithful p)
    (now : Occasion) (command : EngineCommand) :
    (command.reply settings files now engine).engine.Faithful p := by
  rw [engine_reply]
  apply h.run
  intro step hstep
  obtain ⟨request, hrequest, rfl⟩ := List.mem_map.mp hstep
  exact keepsFaithful_of_mem_requests hrequest p

theorem mem_derivations_reply {now : Occasion} {engine : Engine} (h : engine.WellFormed)
    {command : EngineCommand} {derivation : Derivation}
    (hmem : derivation ∈
      (command.reply settings files now engine).engine.tree.derivations) :
    derivation ∈ engine.tree.derivations ∨ derivation.recordedAt = now.time := by
  rw [engine_reply] at hmem
  rcases h.mem_derivations_run hmem with hold | ⟨step, hstep, htime⟩
  · exact .inl hold
  · obtain ⟨request, -, rfl⟩ := List.mem_map.mp hstep
    exact .inr htime

end EngineCommand

/-! ### Reported changes -/

theorem engine_loadRoot_of_none {engine : Engine} {text : String}
    (h : (engine.loadRoots [text]).1.added = 0) : (engine.loadRoots [text]).2 = engine := by
  rw [Engine.loadRoots, List.foldl_cons, List.foldl_nil, Engine.loadRoot] at h ⊢
  cases hadd : engine.addRoot text with
  | ok next => simp [hadd] at h
  | error fault => cases fault <;> rfl

theorem engine_loadRoots_of_none {texts : List String} {engine : Engine}
    (h : (engine.loadRoots texts).1.added = 0) : (engine.loadRoots texts).2 = engine := by
  induction texts with
  | nil => rfl
  | cons text texts ih =>
      rw [Engine.loadRoots_cons, LoadReport.added_add, Nat.add_eq_zero_iff] at h
      rw [Engine.loadRoots_cons]
      obtain ⟨hfirst, hrest⟩ := h
      rw [engine_loadRoot_of_none hfirst] at hrest ⊢
      exact ih hrest

def Reply.isKept (reply : Reply) : Bool :=
  reply.failure.isNone && reply.changed

/-- Adding roots one after the other comes to the same as loading them. -/
theorem addRoots_eq_loadRoots (settings : Settings) (engine : Engine) (texts : List String) :
    (addRoots settings engine texts).engine = (engine.loadRoots texts).2 ∧
      (addRoots settings engine texts).isKept =
        decide (0 < (engine.loadRoots texts).1.added) := by
  rw [addRoots_eq, Reply.isKept]
  split
  · next hnone => exact ⟨rfl, by simp [hnone]⟩
  · exact ⟨rfl, rfl⟩

theorem addRoots_of_not_kept {engine : Engine} {texts : List String}
    (h : (addRoots settings engine texts).isKept = false) :
    (addRoots settings engine texts).engine = engine := by
  obtain ⟨hengine, hkept⟩ := addRoots_eq_loadRoots settings engine texts
  have hadded : (engine.loadRoots texts).1.added = 0 := by
    simpa [hkept] using h
  rw [hengine]
  exact engine_loadRoots_of_none hadded

theorem loadReply_eq_loadRoots (engine : Engine) (path text : String) :
    let loaded := engine.loadRoots (RootsFile.candidates text)
    (loadReply engine path (some text)).engine = loaded.2 ∧
      (loadReply engine path (some text)).isKept = decide (0 < loaded.1.added) := by
  simp [loadReply, Reply.isKept]

theorem loadReply_of_not_kept {engine : Engine} {path : String} {content : Option String}
    (h : (loadReply engine path content).isKept = false) :
    (loadReply engine path content).engine = engine := by
  cases content with
  | none => rfl
  | some text =>
      obtain ⟨hengine, hkept⟩ := loadReply_eq_loadRoots engine path text
      have hadded : (engine.loadRoots (RootsFile.candidates text)).1.added = 0 := by
        simpa [hkept] using h
      rw [hengine]
      exact engine_loadRoots_of_none hadded

theorem ofOutcome_of_not_kept {α : Type} {engine : Engine} {reply : α → Reply}
    {outcome : Except Fault α} (hreply : ∀ value, outcome = .ok value →
      (reply value).isKept = false → (reply value).engine = engine)
    (h : (Reply.ofOutcome engine reply outcome).isKept = false) :
    (Reply.ofOutcome engine reply outcome).engine = engine := by
  cases outcome with
  | ok value => exact hreply value rfl h
  | error fault => rfl

theorem EngineCommand.engine_of_not_kept {now : Occasion} {engine : Engine}
    {command : EngineCommand} (h : (command.reply settings files now engine).isKept = false) :
    (command.reply settings files now engine).engine = engine := by
  cases command with
  | addRoots texts => exact addRoots_of_not_kept h
  | loadRoots path =>
      rw [reply_loadRoots] at h ⊢
      exact loadReply_of_not_kept h
  | addScheme | modifyScheme | removeScheme | generate =>
      exact ofOutcome_of_not_kept (fun _ _ hkept => absurd hkept Bool.true_eq_false.mp) h
  | validate root word =>
      refine ofOutcome_of_not_kept ?_ h
      rintro ⟨names, next⟩ hvalid hkept
      rcases Engine.validate_eq_ok hvalid with ⟨rfl, rfl⟩ | ⟨node, -, -, hnames, -⟩
      · rfl
      · cases names with
        | nil => exact absurd rfl hnames
        | cons name names => exact absurd hkept Bool.true_eq_false.mp
  | _ => exact engine_reply now engine _

/-! ### Agreement of replies -/

variable {ticks : Ticks}

/-- Holds of two messages that are equal, show derivations that agree, or name what is chosen of the
same schemes. -/
inductive Message.Agrees (settings : Settings) (ticks : Ticks) : Message → Message → Prop
  | refl (message : Message) : Agrees settings ticks message message
  | detail {d d' : Derivation} (h : d.Agrees ticks d') :
      Agrees settings ticks (derivationDetail settings d) (derivationDetail settings d')
  | line {d d' : Derivation} (h : d.Agrees ticks d') :
      Agrees settings ticks (derivationLine settings d) (derivationLine settings d')
  | choice (word root : String) {now now' : Occasion} {names : List String}
      (htick : ⟨now, now', names⟩ ∈ ticks) (hnames : names ≠ []) :
      Agrees settings ticks (equation settings word root (now.choose names))
        (equation settings word root (now'.choose names))

/-- The schemes of which a command names one. -/
def EngineCommand.named (engine : Engine) : EngineCommand → List String
  | .validate root word =>
    match engine.findRoot root with
    | .ok node => engine.registry.producers node.entry.root word
    | .error _ => []
  | .analyze word => ((engine.analyze word).map Analysis.schemes).getD []
  | _ => []

/-- Two replies that differ at most by the occasions of the same command. -/
structure Reply.Agrees (settings : Settings) (ticks : Ticks) (a b : Reply) : Prop where
  messages : List.Forall₂ (Message.Agrees settings ticks) a.messages b.messages
  engine : a.engine.Agrees ticks b.engine
  changed_eq : a.changed = b.changed
  failure_eq : a.failure = b.failure

theorem messagesAgree_of_eq {a b : List Message} (h : a = b) :
    List.Forall₂ (Message.Agrees settings ticks) a b :=
  h ▸ List.forall₂_same.mpr fun _ _ => .refl _

variable {a b : Engine}

theorem agrees_shown (h : a.Agrees ticks b) {messages messages' : List Message}
    (hmessages : messages = messages') :
    (Reply.shown a messages).Agrees settings ticks (Reply.shown b messages') :=
  ⟨messagesAgree_of_eq hmessages, h, rfl, rfl⟩

theorem agrees_made (h : a.Agrees ticks b) {message message' : Message}
    (hmessage : message.Agrees settings ticks message') :
    (Reply.made a message).Agrees settings ticks (Reply.made b message') :=
  ⟨.cons hmessage .nil, h, rfl, rfl⟩

theorem agrees_failed (h : a.Agrees ticks b) (failure : Failure) :
    (Reply.failed a failure).Agrees settings ticks (Reply.failed b failure) :=
  ⟨.nil, h, rfl, rfl⟩

theorem agrees_ofOutcome {α β : Type} (h : a.Agrees ticks b) {reply : α → Reply}
    {reply' : β → Reply} {outcome : Except Fault α} {outcome' : Except Fault β}
    (houtcome : OutcomesAgree (fun x y => (reply x).Agrees settings ticks (reply' y)) outcome
      outcome') :
    (Reply.ofOutcome a reply outcome).Agrees settings ticks
      (Reply.ofOutcome b reply' outcome') := by
  rcases outcomesAgree_iff.mp houtcome with ⟨x, y, rfl, rfl, hxy⟩ | ⟨fault, rfl, rfl⟩
  · exact hxy
  · exact agrees_failed h _

structure Additions.Agrees (ticks : Ticks) (x y : Additions) : Prop where
  engine : x.engine.Agrees ticks y.engine
  messages_eq : x.messages = y.messages
  added_eq : x.added = y.added
  lastFault_eq : x.lastFault = y.lastFault

theorem Additions.Agrees.add {x y : Additions} (h : x.Agrees ticks y) (text : String) :
    (x.add settings text).Agrees ticks (y.add settings text) := by
  obtain ⟨hengine, hmessages, hadded, hlastFault⟩ := h
  rw [Additions.add, Additions.add]
  rcases outcomesAgree_iff.mp (hengine.addRoot text) with
    ⟨next, next', hleft, hright, hnext⟩ | ⟨fault, hleft, hright⟩
  · rw [hleft, hright]
    exact ⟨hnext, by rw [hmessages], by rw [hadded], hlastFault⟩
  · rw [hleft, hright]
    cases fault with
    | duplicateRoot root => exact ⟨hengine, by rw [hmessages], hadded, hlastFault⟩
    | _ => exact ⟨hengine, by rw [hmessages], hadded, rfl⟩

theorem agrees_addRoots (h : a.Agrees ticks b) (texts : List String) :
    (addRoots settings a texts).Agrees settings ticks (addRoots settings b texts) := by
  have hfold : ∀ x y : Additions, x.Agrees ticks y →
      (texts.foldl (Additions.add settings) x).Agrees ticks
        (texts.foldl (Additions.add settings) y) := by
    induction texts with
    | nil =>
        intro x y h
        exact h
    | cons text texts ih =>
        intro x y h
        exact ih _ _ (h.add text)
  obtain ⟨hengine, hmessages, hadded, hlastFault⟩ :=
    hfold ⟨a, [], 0, none⟩ ⟨b, [], 0, none⟩ ⟨h, rfl, rfl, rfl⟩
  rw [addRoots, addRoots, ← hadded, ← hlastFault]
  split
  · exact ⟨messagesAgree_of_eq hmessages, hengine, rfl, rfl⟩
  · exact ⟨messagesAgree_of_eq hmessages, hengine, rfl, rfl⟩

theorem agrees_details {history history' : List Derivation}
    (h : List.Forall₂ (Derivation.Agrees ticks) history history') :
    List.Forall₂ (Message.Agrees settings ticks)
      (if history.isEmpty then [.detail "no derivations"]
        else history.map (derivationDetail settings))
      (if history'.isEmpty then [.detail "no derivations"]
        else history'.map (derivationDetail settings)) := by
  cases h with
  | nil => exact messagesAgree_of_eq rfl
  | cons hhead htail =>
      refine .cons (.detail hhead) ?_
      rw [List.forall₂_map_left_iff, List.forall₂_map_right_iff]
      exact htail.imp fun _ _ => .detail

theorem agrees_showRoot (h : a.Agrees ticks b) (text : String) :
    (showRoot settings a text).Agrees settings ticks (showRoot settings b text) := by
  refine agrees_ofOutcome h ((h.findRoot text).imp ?_)
  rintro node node' ⟨hroot, hhistory⟩
  dsimp only
  rw [hroot]
  exact ⟨.cons (.refl _) (agrees_details hhistory), h, rfl, rfl⟩

theorem agrees_loadReply (h : a.Agrees ticks b) (path : String) (content : Option String) :
    (loadReply a path content).Agrees settings ticks (loadReply b path content) := by
  cases content with
  | none => exact agrees_failed h _
  | some text =>
      have hloaded := h.loadRoots (RootsFile.candidates text)
      simp only [loadReply]
      rcases hleft : a.loadRoots (RootsFile.candidates text) with ⟨report, next⟩
      rcases hright : b.loadRoots (RootsFile.candidates text) with ⟨report', next'⟩
      rw [hleft, hright] at hloaded
      obtain ⟨rfl, hnext⟩ := hloaded
      exact ⟨messagesAgree_of_eq rfl, hnext, rfl, rfl⟩

theorem agrees_validate (h : a.Agrees ticks b) {now now' : Occasion} {root word : String}
    (htick : ⟨now, now', (EngineCommand.validate root word).named a⟩ ∈ ticks) :
    (validate settings now a root word).Agrees settings ticks
      (validate settings now' b root word) := by
  have hchosen : ∀ node, a.findRoot root = .ok node →
      ⟨now, now', a.registry.producers node.entry.root word⟩ ∈ ticks := by
    intro node hfound
    simpa only [EngineCommand.named, hfound] using htick
  rw [validate, validate]
  rcases outcomesAgree_iff.mp (h.validate hchosen) with
    ⟨⟨names, next⟩, ⟨_, next'⟩, hleft, hright, rfl, hnext⟩ | ⟨fault, hleft, hright⟩
  · rw [hleft, hright]
    rcases Engine.validate_eq_ok hleft with ⟨rfl, -⟩ | ⟨node, hfound, rfl, hnames, -⟩
    · exact agrees_shown hnext rfl
    · simp only [Reply.ofOutcome, List.isEmpty_eq_false_iff.mpr hnames, Bool.false_eq_true,
        if_false]
      exact agrees_made hnext (.choice word root (hchosen node hfound) hnames)
  · rw [hleft, hright]
    exact agrees_failed h _

theorem agrees_analyze (h : a.Agrees ticks b) {now now' : Occasion} {word : String}
    (htick : ⟨now, now', (EngineCommand.analyze word).named a⟩ ∈ ticks) :
    (analyze settings now a word).Agrees settings ticks (analyze settings now' b word) := by
  rw [analyze, analyze, Engine.searchSpace, Engine.searchSpace, ← h.size_eq, ← h.registry_eq,
    ← h.analyze_eq word]
  split
  · exact agrees_failed h _
  · refine ⟨.cons ?_ .nil, h, rfl, rfl⟩
    cases hfound : a.analyze word with
    | none => exact .refl _
    | some found =>
        obtain ⟨-, -, hnames, -⟩ := (Engine.analyze_eq_some_iff h.left_ordered).mp hfound
        rw [EngineCommand.named, hfound] at htick
        exact .choice word found.root.text htick hnames

theorem agrees_derivations (h : a.Agrees ticks b) (root : String) :
    (Reply.ofOutcome a (fun history =>
      Reply.shown a (history.map (derivationLine settings))) (a.derivations root)).Agrees
      settings ticks
    (Reply.ofOutcome b (fun history =>
      Reply.shown b (history.map (derivationLine settings))) (b.derivations root)) := by
  refine agrees_ofOutcome h ((h.derivations root).imp ?_)
  intro history history' hhistory
  refine ⟨?_, h, rfl, rfl⟩
  rw [Reply.shown, Reply.shown, List.forall₂_map_left_iff, List.forall₂_map_right_iff]
  exact hhistory.imp fun _ _ => .line

/-- Engines that agree reply alike, each on its own occasion, unless the trees are drawn. -/
theorem EngineCommand.agrees_reply (h : a.Agrees ticks b) {now now' : Occasion}
    {command : EngineCommand} (htick : ⟨now, now', command.named a⟩ ∈ ticks)
    (hcommand : command ≠ .drawTree) :
    (command.reply settings files now a).Agrees settings ticks
      (command.reply settings files now' b) := by
  have hdone : ∀ {outcome outcome' : Except Fault Engine} (message : Message),
      OutcomesAgree (Engine.Agrees ticks) outcome outcome' →
      (Reply.ofOutcome a (fun next => Reply.made next message) outcome).Agrees settings ticks
        (Reply.ofOutcome b (fun next => Reply.made next message) outcome') :=
    fun message houtcome => agrees_ofOutcome h (houtcome.imp fun _ _ hnext =>
      agrees_made hnext (.refl message))
  cases command with
  | addRoots texts => exact agrees_addRoots h texts
  | listRoots =>
      refine agrees_shown h ?_
      rw [h.listRoots_eq]
  | showRoot text => exact agrees_showRoot h text
  | loadRoots path =>
      rw [reply_loadRoots, reply_loadRoots]
      exact agrees_loadReply h path _
  | drawTree => exact absurd rfl hcommand
  | countRoots =>
      refine agrees_shown h ?_
      rw [Engine.rootCount, Engine.rootCount, h.size_eq]
  | addScheme pattern category => exact hdone _ (h.addScheme pattern category)
  | modifyScheme name pattern => exact hdone _ (h.modifyScheme name pattern)
  | removeScheme name => exact hdone _ (h.removeScheme name)
  | listSchemes category =>
      refine agrees_shown h ?_
      rw [h.registry_eq]
  | popularSchemes limit =>
      refine agrees_shown h ?_
      rw [h.registry_eq]
  | generate root scheme =>
      refine agrees_ofOutcome h ((h.generate htick root scheme).imp ?_)
      rintro ⟨word, next⟩ ⟨_, next'⟩ ⟨rfl, hnext⟩
      exact agrees_made hnext (.refl _)
  | validate root word => exact agrees_validate h htick
  | analyze word => exact agrees_analyze h htick
  | derivations root => exact agrees_derivations h root

end Triliteral.Command
