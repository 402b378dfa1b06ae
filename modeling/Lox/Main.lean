import Lox.Cli
import Lox.Text.Lines
import Std.Time.DateTime.Timestamp

/-!
# The program

The host of the command line: files and lines come from the system, text goes
to the standard streams, and machines run in slices, between which the time
is read and what was printed is passed on.
-/

namespace Lox.Program

/-- The time in seconds, to the millisecond. -/
def now : IO Float := do
  let time ← Std.Time.Timestamp.now
  let milliseconds := time.toMillisecondsSinceUnixEpoch.val
  return Float.ofInt milliseconds / 1000.0

/-- How many steps are done between two looks at the clock. -/
def slice : Nat := 20000

/-- Passes on what a machine has printed. -/
def passOutput (m : Machine) : IO Machine := do
  let stdout ← IO.getStdout
  stdout.write m.state.sink.accepted
  stdout.flush
  return { m with state := { m.state with sink := m.state.sink.clear } }

/-- Drives a machine to its end. -/
partial def drive (setting : Float → Machine.Setting) (m : Machine) :
    IO Machine := do
  let m := Machine.run (setting (← now)) slice m
  let halted := m.halted
  let m ← passOutput m
  if halted then return m else drive setting m

/-- The number of a fault of the system, which may come negated. -/
def faultNumber (code : UInt32) : Nat :=
  min code.toNat (0 - code).toNat

/-- What a fault of the system says about a file. -/
def fileFault : IO.Error → FileFault
  | .noFileOrDirectory .. => .missing
  | .inappropriateType _ code _ =>
    if faultNumber code = 21 then .directory else .notDirectory
  | .invalidArgument file code details =>
    if faultNumber code = 36 then .tooLong
    else .other (toString (IO.Error.invalidArgument file code details))
  | fault => .other (toString fault)

/-- The bytes of a file, or why there are none. -/
def contents (name : String) : IO (Except FileFault ByteArray) := do
  match ← (IO.FS.readBinFile name).toBaseIO with
  | .ok bytes => return .ok bytes
  | .error fault => return .error (fileFault fault)

/-- The next line of the input. -/
def readLine : IO (Option String) := do
  let line ← (← IO.getStdin).getLine
  return if line.isEmpty then none else some (Text.chomp line)

/-- Writes and flushes, because a prompt has no line end. -/
def write (text : String) : IO Unit := do
  let stdout ← IO.getStdout
  stdout.putStr text
  stdout.flush

/-- The command line on this system. -/
def host : Cli.Host IO where
  contents := contents
  readLine := readLine
  write := write
  writeError := fun text => do (← IO.getStderr).putStr text
  drive := drive

/-- Runs the prompt to the end of the input. -/
partial def prompt (session : Session) : IO Unit := do
  match ← Cli.promptLine host session with
  | some session => prompt session
  | none => return

end Lox.Program

/-- Runs the command line. -/
def main (arguments : List String) : IO UInt32 := do
  match ← Lox.Cli.begin Lox.Program.host arguments with
  | .exit status => return status.toUInt32
  | .prompt session =>
    Lox.Program.prompt session
    return 0
