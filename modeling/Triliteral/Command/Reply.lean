import Triliteral.Command.Basic
import Triliteral.Command.Message
import Triliteral.RootTree.Drawing
import Triliteral.Storage

/-!
Carrying out commands on an engine. The reply to a command holds its messages, the engine
after it, whether that engine is to be kept, and the failure that ended the command, if one
did.
-/

namespace Triliteral

def Settings.display (settings : Settings) (word : String) : String :=
  if settings.rightToLeft then Text.reversed word else word

namespace Command

structure Reply where
  messages : List Message
  engine : Engine
  /-- Whether the command changed the engine, as far as it knows. -/
  changed : Bool
  failure : Option Failure

namespace Reply

def shown (engine : Engine) (messages : List Message) : Reply :=
  ⟨messages, engine, false, none⟩

def made (engine : Engine) (message : Message) : Reply :=
  ⟨[message], engine, true, none⟩

def failed (engine : Engine) (failure : Failure) : Reply :=
  ⟨[], engine, false, some failure⟩

def ofOutcome (engine : Engine) (reply : α → Reply) : Except Fault α → Reply
  | .ok value => reply value
  | .error fault => failed engine (.refused fault)

end Reply

/-! ### Roots -/

structure Additions where
  engine : Engine
  messages : List Message
  added : Nat
  /-- The last refusal that was no duplicate. -/
  lastFault : Option Fault

def Additions.add (settings : Settings) (additions : Additions) (text : String) : Additions :=
  match additions.engine.addRoot text with
  | .ok engine =>
    { additions with
      engine
      messages := additions.messages ++ [.success ("added " ++ settings.display text)]
      added := additions.added + 1 }
  | .error (.duplicateRoot root) =>
    { additions with
      messages := additions.messages ++ [.warning (Fault.duplicateRoot root).message] }
  | .error fault =>
    { additions with
      messages := additions.messages ++ [.error fault.message]
      lastFault := some fault }

/-- Adds roots one after the other. The command fails if none was added and one was refused
for another reason than that it is there already. -/
def addRoots (settings : Settings) (engine : Engine) (texts : List String) : Reply :=
  let additions := texts.foldl (Additions.add settings) ⟨engine, [], 0, none⟩
  match additions.lastFault, additions.added with
  | some fault, 0 => ⟨additions.messages, additions.engine, false, some (.refused fault)⟩
  | _, added => ⟨additions.messages, additions.engine, decide (0 < added), none⟩

def derivationDetail (settings : Settings) (derivation : Derivation) : Message :=
  .detail (settings.display derivation.word ++ " (" ++ derivation.scheme ++ ")")

def showRoot (settings : Settings) (engine : Engine) (text : String) : Reply :=
  Reply.ofOutcome engine
    (fun node =>
      let history := node.entry.derivations
      Reply.shown engine
        (.header (settings.display node.entry.root.text) ::
          if history.isEmpty then [.detail "no derivations"]
          else history.map (derivationDetail settings)))
    (engine.findRoot text)

def loadMessages (path : String) (report : LoadReport) : List Message :=
  let count (n : Nat) : String := Text.Decimal.text n
  .action "Loaded"
      (count report.added ++ " roots from " ++ path ++ " (" ++ count report.duplicates ++
        " duplicates, " ++ count report.invalid ++ " invalid)") ::
    if 0 < report.invalid then
      [.warning (count report.invalid ++ " lines were not 3-letter roots")]
    else []

/-! ### Schemes -/

def describeKind (settings : Settings) (scheme : SchemeSummary) : String :=
  if scheme.dynamic then
    match scheme.pattern with
    | some pattern =>
      if pattern = scheme.name then "dynamic" else "dynamic: " ++ settings.display pattern
    | none => "dynamic"
  else "built-in"

/-- One line on a scheme: name, category, kind and usage, with tabs between them. -/
def describe (settings : Settings) (scheme : SchemeSummary) : String :=
  settings.display scheme.name ++ "\t" ++ scheme.category.name ++ "\t" ++
    describeKind settings scheme ++ "\tused " ++ Text.Decimal.text scheme.usage.toNat

/-- The order of a listing: by the name of the category, then by name. -/
def listedBefore (a b : SchemeSummary) : Bool :=
  decide (a.category.name < b.category.name) ||
    (a.category.name == b.category.name && !decide (b.name < a.name))

def listSchemes (settings : Settings) (engine : Engine) (category : Option Category) : Reply :=
  let schemes :=
    match category with
    | some category => engine.registry.summariesOf category
    | none => engine.registry.summaries
  Reply.shown engine
    ((schemes.mergeSort listedBefore).map fun scheme => .plain (describe settings scheme))

def rankText (rank : Nat) : String :=
  let ds := Text.Decimal.digits rank
  String.ofList (List.replicate (3 - ds.length) ' ' ++ ds)

def popularSchemes (settings : Settings) (engine : Engine) (limit : Nat) : Reply :=
  Reply.shown engine
    ((engine.registry.mostUsed limit).mapIdx fun index scheme =>
      .plain (rankText (index + 1) ++ ". " ++ describe settings scheme))

/-! ### Words -/

def equation (settings : Settings) (word root scheme : String) : Message :=
  .success (settings.display word ++ " = " ++ settings.display root ++ " + " ++
    settings.display scheme)

def validate (settings : Settings) (now : Occasion) (engine : Engine) (root word : String) :
    Reply :=
  Reply.ofOutcome engine
    (fun (names, next) =>
      if names.isEmpty then
        Reply.shown next
          [.failure (settings.display word ++ " does not derive from " ++ settings.display root)]
      else Reply.made next (equation settings word root (now.choose names)))
    (engine.validate now root word)

/-- Analyzes a word, unless there are too many pairs of a root and a scheme to try. -/
def analyze (settings : Settings) (now : Occasion) (engine : Engine) (word : String) : Reply :=
  if settings.maxSearchSpace < engine.searchSpace then
    Reply.failed engine
      (.usage ("search space " ++ Text.Decimal.text engine.searchSpace ++
        " exceeds max_search_space " ++ Text.Decimal.text settings.maxSearchSpace))
  else
    Reply.shown engine
      [match engine.analyze word with
        | some found => equation settings word found.root.text (now.choose found.schemes)
        | none => .failure ("no root/scheme produces " ++ settings.display word)]

/-- One line on a derivation: word, scheme and time, with tabs between them. -/
def derivationLine (settings : Settings) (derivation : Derivation) : Message :=
  .plain (settings.display derivation.word ++ "\t" ++ settings.display derivation.scheme ++
    "\t" ++ derivation.recordedAt.plainText)

variable {m : Type → Type} [Monad m] [Files m]

def loadRoots (engine : Engine) (path : String) : m Reply := do
  match ← (Storage.loadRoots path engine : ExceptT Failure m (LoadReport × Engine)).run with
  | .ok (report, next) =>
    return ⟨loadMessages path report, next, decide (0 < report.added), none⟩
  | .error failure => return Reply.failed engine failure

def EngineCommand.perform (settings : Settings) (now : Occasion) (engine : Engine) :
    EngineCommand → m Reply
  | .addRoots texts => pure (Command.addRoots settings engine texts)
  | .listRoots =>
    pure (Reply.shown engine
      (engine.listRoots.map fun root => .plain (settings.display root)))
  | .showRoot text => pure (Command.showRoot settings engine text)
  | .loadRoots path => Command.loadRoots engine path
  | .drawTree => pure (Reply.shown engine [.plain engine.tree.draw])
  | .countRoots => pure (Reply.shown engine [.plain (Text.Decimal.text engine.rootCount)])
  | .addScheme pattern category =>
    pure (Reply.ofOutcome engine
      (fun next => Reply.made next (.success ("added scheme " ++ settings.display pattern)))
      (engine.addScheme pattern category))
  | .modifyScheme name pattern =>
    pure (Reply.ofOutcome engine
      (fun next =>
        Reply.made next
          (.success ("scheme " ++ settings.display name ++ " now uses " ++
            settings.display pattern)))
      (engine.modifyScheme name pattern))
  | .removeScheme name =>
    pure (Reply.ofOutcome engine
      (fun next => Reply.made next (.success ("removed scheme " ++ settings.display name)))
      (engine.removeScheme name))
  | .listSchemes category => pure (Command.listSchemes settings engine category)
  | .popularSchemes limit => pure (Command.popularSchemes settings engine limit)
  | .generate root scheme =>
    pure (Reply.ofOutcome engine
      (fun (word, next) => Reply.made next (.plain (settings.display word)))
      (engine.generate now root scheme))
  | .validate root word => pure (Command.validate settings now engine root word)
  | .analyze word => pure (Command.analyze settings now engine word)
  | .derivations root =>
    pure (Reply.ofOutcome engine
      (fun history => Reply.shown engine (history.map (derivationLine settings)))
      (engine.derivations root))

end Command

end Triliteral
