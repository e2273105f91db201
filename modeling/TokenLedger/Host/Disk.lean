import TokenLedger.Host.Path
import TokenLedger.Text.Utf8

/-! Files as commands see them: the operations that a disk offers, and what is made of them. -/

namespace TokenLedger

/-- Why the system refuses an operation on a path. -/
inductive FileError where
  | missing
  | alreadyThere
  | notDirectory
  | isDirectory
  | busy
  | nameTooLong
  | nullCharacter
  | notText
  /-- Any other reason, in the words of the system. -/
  | other (text : String)
  deriving DecidableEq, Repr

def FileError.tooManyLinks : FileError := .other "Too many levels of symbolic links (os error 40)"

def FileError.message : FileError → String
  | .missing => "No such file or directory (os error 2)"
  | .alreadyThere => "File exists (os error 17)"
  | .notDirectory => "Not a directory (os error 20)"
  | .isDirectory => "Is a directory (os error 21)"
  | .busy => "Device or resource busy (os error 16)"
  | .nameTooLong => "File name too long (os error 36)"
  | .nullCharacter => "file name contained an unexpected NUL byte"
  | .notText => "stream did not contain valid UTF-8"
  | .other t => t

structure Disk (m : Type → Type) where
  isThere : Path → m Bool
  isDirectory : Path → m Bool
  read : Path → m (Except FileError Bytes)
  write : Path → Bytes → m (Except FileError Unit)
  /-- Creates one directory in a directory that is there. -/
  makeDirectory : Path → m (Except FileError Unit)
  rename : Path → Path → m (Except FileError Unit)

namespace Disk

variable {m : Type → Type} [Monad m]

def ensureDirectory (disk : Disk m) (p : Path) : m (Except FileError Unit) := do
  match ← disk.makeDirectory p with
  | .ok _ => return .ok ()
  | .error e => return if ← disk.isDirectory p then .ok () else .error e

/-- Creates a directory and those that lead to it, at most `fuel` of them, unless they are there. What
was created before an error stays. -/
def makeWay (disk : Disk m) : (fuel : Nat) → Path → m (Except FileError Unit)
  | 0, _ => return .ok ()
  | fuel + 1, p => do
    if p.text.isEmpty then return .ok ()
    match ← disk.ensureDirectory p with
    | .error .missing => match ← makeWay disk fuel p.parent with
      | .ok _ => disk.ensureDirectory p
      | .error e => return .error e
    | r => return r

def createDirectory (disk : Disk m) (p : Path) : m (Except FileError Unit) :=
  disk.makeWay (p.text.length + 1) p

end Disk

/-- Where a text is shown, false if that is refused: what comes of a command, and what it has to complain of. -/
structure Terminal (m : Type → Type) where
  print : Bytes → m Bool
  complain : Bytes → m Bool

end TokenLedger
