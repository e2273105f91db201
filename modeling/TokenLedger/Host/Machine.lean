import TokenLedger.Host.Command
import TokenLedger.Host.Volume

/-! A machine on which steps may go wrong: an operation on its files is refused, a file is written in part, or a
text cannot be shown. -/

namespace TokenLedger

/-- What goes wrong in a step: why it is refused, and of what was to be written how much was written before,
if anything could be written to. -/
structure Mishap where
  error : FileError
  written : Option Nat
  deriving DecidableEq

structure Machine where
  volume : Volume
  /-- What befalls the steps to come, one after the other. Nothing befalls those behind them. -/
  ahead : List (Option Mishap)
  printed : Bytes
  complained : Bytes

namespace Machine

def befalls (x : Machine) : Option Mishap := x.ahead.head?.join

/-- The machine after a step that has left this volume. -/
def after (x : Machine) (v : Volume) : Machine := { x with volume := v, ahead := x.ahead.tail }

/-- A step that gives `refused` where something goes wrong. -/
def attempt {α : Type} (refused : FileError → α) (act : Volume → α × Volume) : StateM Machine α := fun x =>
  match x.befalls with
  | some a => (refused a.error, x.after x.volume)
  | none => ((act x.volume).1, x.after (act x.volume).2)

def keep (act : Volume → Except FileError Volume) (v : Volume) : Except FileError Unit × Volume :=
  match act v with
  | .ok w => (.ok (), w)
  | .error e => (.error e, v)

/-- Writes to a file. Where that goes wrong once the file is open, it holds what was written before. -/
def write (p : Path) (b : Bytes) : StateM Machine (Except FileError Unit) := fun x =>
  match x.befalls with
  | none => let (r, v) := keep (·.write p b) x.volume; (r, x.after v)
  | some ⟨e, none⟩ => (.error e, x.after x.volume)
  | some ⟨e, some n⟩ => let (r, v) := keep (·.write p (b.take n)) x.volume; (r.bind fun _ => .error e, x.after v)

def shown (x : Machine) (text : Bytes) : Bytes :=
  match x.befalls with
  | none => text
  | some a => text.take (a.written.getD 0)

def disk : Disk (StateM Machine) where
  isThere p := attempt (fun _ => false) fun v => (v.isThere p, v)
  isDirectory p := attempt (fun _ => false) fun v => (v.isDirectory p, v)
  read p := attempt .error fun v => (v.read p, v)
  write := write
  makeDirectory p := attempt .error (keep (·.makeDirectory p))
  rename p q := attempt .error (keep (·.rename p q))

def terminal : Terminal (StateM Machine) where
  print b x := (x.befalls.isNone, { x.after x.volume with printed := x.printed ++ x.shown b })
  complain b x := (x.befalls.isNone, { x.after x.volume with complained := x.complained ++ x.shown b })

end Machine
end TokenLedger
