import TokenLedger.Host.Command

/-! The program: carries out the command that its arguments give, on the files of the system. -/

namespace TokenLedger.Host

/-- The reason of a refusal by the number that the system gives it, with either sign. -/
def fileError (number : UInt32) (text : String) : FileError :=
  let number := min number (-number)
  if number = 2 then .missing
  else if number = 16 then .busy
  else if number = 17 then .alreadyThere
  else if number = 20 then .notDirectory
  else if number = 21 then .isDirectory
  else if number = 36 then .nameTooLong
  else .other (text ++ " (os error " ++ toString number ++ ")")

def fileErrorOf : IO.Error → FileError
  | .noFileOrDirectory _ n t | .interrupted _ n t | .alreadyExists _ n t | .invalidArgument _ n t
  | .permissionDenied _ n t | .resourceExhausted _ n t | .inappropriateType _ n t
  | .noSuchThing _ n t | .otherError n t | .resourceBusy n t | .resourceVanished n t
  | .unsupportedOperation n t | .hardwareFault n t | .unsatisfiedConstraints n t
  | .illegalOperation n t | .protocolError n t | .timeExpired n t => fileError n t
  | .unexpectedEof => .other "unexpected end of file"
  | .userError t => .other t

/-- What an action on a path gives, or why the system refuses it. -/
def attempt {α : Type} (p : Path) (act : IO α) : IO (Except FileError α) := do
  if p.hasNull then return .error .nullCharacter
  return (← act.toBaseIO).mapError fileErrorOf

def metadata (p : Path) : IO (Except FileError IO.FS.Metadata) :=
  attempt p (IO.FS.DirEntry.mk p.text "").root.metadata

def systemDisk : Disk IO where
  isThere p := return (← metadata p).isOk
  isDirectory p := return (← metadata p).toOption.any (·.type == .dir)
  read p := attempt p (return (← IO.FS.readBinFile p.text).toList)
  write p b := attempt p (IO.FS.writeBinFile p.text ⟨b.toArray⟩)
  makeDirectory p := attempt p (IO.FS.createDir p.text)
  rename p q := attempt (if p.hasNull then p else q) (IO.FS.rename p.text q.text)

/-- Whether a text could be written out. -/
def written (stream : IO IO.FS.Stream) (text : Bytes) : IO Bool := do
  let out ← stream
  return (← (do out.write ⟨text.toArray⟩; out.flush : IO Unit).toBaseIO).isOk

def systemTerminal : Terminal IO where
  print := written IO.getStdout
  complain := written IO.getStderr

end TokenLedger.Host

open TokenLedger in
def main (args : List String) : IO UInt32 := do
  let fresh ← IO.getRandomBytes 32
  return (← Host.program Host.systemDisk Host.systemTerminal fresh.toList args).toUInt32
