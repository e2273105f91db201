import TokenLedger.Host.Arguments
import TokenLedger.Host.Folder
import TokenLedger.Host.Settings
import TokenLedger.Ledger.Contract
import TokenLedger.Store.Snapshot

/-! The command: one operation on a ledger that is kept in a snapshot, new keys, and signatures. The
snapshot is written beside its place and then moved there, and only when an operation has changed the
ledger. -/

namespace TokenLedger.Host

/-- A step in keeping a snapshot that the system refuses. -/
inductive StateError where
  | read (p : Path) (e : FileError)
  | parse (p : Path) (e : Json.Error)
  | createDirectory (p : Path) (e : FileError)
  | write (p : Path) (e : FileError)
  | rename (p : Path) (e : FileError)
  deriving DecidableEq, Repr

def StateError.message : StateError → String
  | .read p e => "store failure: read " ++ p.text ++ ": " ++ e.message
  | .parse p e => (Failure.unreadableSnapshot p.text e).message
  | .createDirectory p e => "store failure: mkdir " ++ p.text ++ ": " ++ e.message
  | .write p e => "store failure: write " ++ p.text ++ ": " ++ e.message
  | .rename p e => "store failure: rename to " ++ p.text ++ ": " ++ e.message

/-- Why a command ends without a verdict of the ledger. -/
inductive Error where
  | configMissing (p : Path)
  | configUnreadable (p : Path) (e : FileError)
  | configInvalid (p : Path)
  | stateUnreadable (p : Path) (e : StateError)
  | stateUnwritable (p : Path) (e : StateError)
  | directory (p : Path) (e : FileError)
  | keyFile (p : Path) (e : FileError)
  | secretDigits (e : Hex.Error)
  | secretSize (n : Nat)
  | transfer (e : Json.Error)
  | otherSender (sender key : String)
  deriving DecidableEq, Repr

def Error.message : Error → String
  | .configMissing p => "configuration file not found: " ++ p.text
  | .configUnreadable p e => "read config " ++ p.text ++ ": " ++ e.message
  | .configInvalid p => "invalid config " ++ p.text
  | .stateUnreadable p e => "open state " ++ p.text ++ ": " ++ e.message
  | .stateUnwritable p e => "write state " ++ p.text ++ ": " ++ e.message
  | .directory p e => "mkdir " ++ p.text ++ ": " ++ e.message
  | .keyFile p e => "write " ++ p.text ++ ": " ++ e.message
  | .secretDigits e => "invalid --sk-hex: " ++ e.message
  | .secretSize n => "--sk-hex must be 32 bytes (64 hex chars), got " ++ toString n
  | .transfer e => "parse transfer JSON: " ++ e.message
  | .otherSender s k =>
    "transfer From " ++ s ++ " is not the public key of this secret (" ++ k ++ ")"

def versionLine : String := "coinbal 0.1.0\n"

def helpText : String :=
  "coinbal [--config FILE] [--state FILE] [--role ROLE] invoke OPERATION [ARGUMENT]...\n"
    ++ "coinbal keygen --out-dir DIRECTORY\n"
    ++ "coinbal sign --sk-hex DIGITS TRANSFER\n"

/-- How a command ends. -/
inductive Outcome where
  | printed (text : Bytes)
  | rejected (f : Failure)
  | failed (e : Error)
  | misused
  deriving DecidableEq, Repr

namespace Outcome

def exitCode : Outcome → UInt8
  | .printed _ => 0
  | .rejected _ => 1
  | .failed _ | .misused => 2

def report (f : Failure) : Bytes :=
  (Json.Codec.entries .text).write [("error", f.kind.name), ("message", f.message)]

def output : Outcome → Bytes
  | .printed b => b
  | .rejected f => report f ++ [10]
  | .failed _ | .misused => []

def complaint : Outcome → Bytes
  | .printed _ | .rejected _ => []
  | .failed e => Text.utf8 ("error: " ++ e.message ++ "\n")
  | .misused => Text.utf8 helpText

end Outcome

variable {m : Type → Type} [Monad m]

/-- The settings of a configuration file. Only the one with the usual name may be missing. -/
def settings (disk : Disk m) (config : Option Path) : m (Except Error Settings) := do
  let p := config.getD ⟨"coinbal.toml"⟩
  if !(← disk.isThere p) then
    return if config.isSome then .error (.configMissing p) else .ok .default
  match ← disk.read p with
  | .error e => return .error (.configUnreadable p e)
  | .ok b => match Text.ofUtf8? b with
    | none => return .error (.configUnreadable p .notText)
    | some t => match Settings.ofText? t with
      | none => return .error (.configInvalid p)
      | some s => return .ok s

/-- The store in the snapshot at a path, empty if there is none. -/
def loadState (disk : Disk m) (p : Path) : m (Except StateError Store) := do
  if !(← disk.isThere p) then return .ok .empty
  match ← disk.read p with
  | .error e => return .error (.read p e)
  | .ok b => match Snapshot.load b with
    | .error e => return .error (.parse p e)
    | .ok s => return .ok s

def replace (disk : Disk m) (p beside : Path) (b : Bytes) : m (Except StateError Unit) := do
  match ← disk.write beside b with
  | .error e => return .error (.write beside e)
  | .ok _ => match ← disk.rename beside p with
    | .error e => return .error (.rename p e)
    | .ok _ => return .ok ()

/-- Puts the snapshot of a store in its place, once the way to it is there. -/
def saveState (disk : Disk m) (p : Path) (s : Store) : m (Except StateError Unit) := do
  let made ← if p.parent.text.isEmpty then pure (.ok ()) else disk.createDirectory p.parent
  match made with
  | .error e => return .error (.createDirectory p.parent e)
  | .ok _ => replace disk p (p.withExtension "tmp") (Snapshot.save s)

def lineOf (b : Bytes) : Bytes := if b.isEmpty then [] else b ++ [10]

def invoke (disk : Disk m) (s : Settings) (operation : String) (args : List String) :
    m Outcome := do
  let p := s.statePath
  match ← loadState disk p with
  | .error e => return .failed (.stateUnreadable p e)
  | .ok store =>
    let c : Contract := ⟨ed25519Verifier, s.knownActors.contains⟩
    match c.execute store s.callerRole operation args with
    | (.error f, _) => return .rejected f
    | (.ok payload, after) =>
      if after.height = store.height then return .printed (lineOf payload)
      match ← saveState disk p after with
      | .error e => return .failed (.stateUnwritable p e)
      | .ok _ => return .printed (lineOf payload)

def keygen (disk : Disk m) (secret : Bytes) (directory : Path) : m Outcome := do
  match ← disk.createDirectory directory with
  | .error e => return .failed (.directory directory e)
  | .ok _ =>
    let p := directory.join "sk.hex"
    match ← disk.write p (Hex.encode secret) with
    | .error e => return .failed (.keyFile p e)
    | .ok _ =>
      let p := directory.join "pk.hex"
      match ← disk.write p (Hex.encode (Ed25519.publicKey secret)) with
      | .error e => return .failed (.keyFile p e)
      | .ok _ => return .printed (Text.utf8 ("keypair written → " ++ directory.text ++ "\n"))

/-- The 32 octets of a secret that digits spell. -/
def secretOf (s : String) : Except Error Bytes :=
  match Hex.decode (Text.utf8 (String.ofList (Text.withoutMark (Text.trim s.toList)))) with
  | .error e => .error (.secretDigits e)
  | .ok b => if b.length = 32 then .ok b else .error (.secretSize b.length)

/-- The digest of a transfer and its signature, if the secret is the sender's. -/
def signTransfer (secret : Bytes) (document : String) : Except Error (Bytes × Bytes) :=
  match Transfer.codec.decodeText document with
  | .error e => .error (.transfer e)
  | .ok t =>
    let key := Hex.text (Ed25519.publicKey secret)
    if sameLetters (Text.withoutMarks t.sender.toList) key.toList then
      .ok (t.digest, Ed25519.sign secret t.digest)
    else .error (.otherSender t.sender key)

def sign (secret document : String) : Outcome :=
  match secretOf secret with
  | .error e => .failed e
  | .ok k => match signTransfer k document with
    | .error e => .failed e
    | .ok (d, s) => .printed (Hex.encode d ++ 10 :: Hex.encode s ++ [10])

/-- Carries out a command. `fresh` holds 32 octets for a new secret. -/
def run (disk : Disk m) (fresh : Bytes) (args : List String) : m Outcome := do
  match Arguments.parse args with
  | none => return .misused
  | some .version => return .printed (Text.utf8 versionLine)
  | some .help => return .printed (Text.utf8 helpText)
  | some (.run o task) =>
    match ← settings disk o.config with
    | .error e => return .failed e
    | .ok s =>
      let s := { s with stateFile := o.state.or s.stateFile, callerRole := o.role.or s.callerRole }
      match task with
      | .invoke operation args => invoke disk s operation args
      | .keygen directory => keygen disk fresh directory
      | .sign secret document => return sign secret document

def isTask (args : List String) : Bool :=
  match Arguments.parse args with
  | some (.run _ _) => true
  | _ => false

def say (shows : Bytes → m Bool) (text : Bytes) : m Bool :=
  if text.isEmpty then return true else shows text

/-- The exit code of a task that breaks off. -/
def brokenOff : UInt8 := 101

/-- Carries out a command, says what comes of it, and gives the exit code. A task breaks off where what it has to
say is refused. -/
def program (disk : Disk m) (terminal : Terminal m) (fresh : Bytes) (args : List String) : m UInt8 := do
  let o ← run disk fresh args
  let printed ← say terminal.print o.output
  let complained ← say terminal.complain o.complaint
  return if isTask args && !(printed && complained) then brokenOff else o.exitCode

end TokenLedger.Host
