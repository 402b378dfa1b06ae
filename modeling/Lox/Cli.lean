import Lox.Expr.Printer
import Lox.Files
import Lox.Json.Tree
import Lox.Session
import Lox.Text.Utf8

/-!
# The command line

Four commands read a file: `tokenize` lists its tokens, `parse` prints it as
one expression, `evaluate` evaluates it as one expression and `run` runs it
as a program.  `run` without a file is a prompt, which runs one line after
the other in one session.

The commands are written against a `Host`, which reads files and lines,
writes text and drives machines.  What they write and which status they exit
with is decided here.
-/

namespace Lox.Cli

/-- What a command does. -/
inductive Command where
  | tokenize
  | parse
  | evaluate
  | run
  deriving Repr, DecidableEq

/-- The arguments of the command line. -/
structure Options where
  command : Command
  file : Option String
  json : Bool
  maxDepth : Nat
  deriving Repr, DecidableEq

/-! ## Reading the arguments -/

/-- The options as far as the arguments have been read. -/
structure Draft where
  command : Option Command
  file : Option String
  json : Bool
  maxDepth : Nat
  /-- The options given on this side of the command. -/
  given : List String

/-- The command of a name. -/
def Command.ofName? : String → Option Command
  | "tokenize" => some .tokenize
  | "parse" => some .parse
  | "evaluate" => some .evaluate
  | "run" => some .run
  | _ => none

/-- The option that sets the depth of calls. -/
def depthOption : String := "--max-call-depth"

/-- The digits of a number, which may have a plus sign. -/
def unsigned : List Char → List Char
  | '+' :: digits => digits
  | digits => digits

/-- A decimal number that fits into sixty-four bits. -/
def number? (text : String) : Option Nat :=
  let digits := unsigned text.toList
  let value := digits.foldl
    (fun total digit => 10 * total + (digit.toNat - '0'.toNat)) 0
  if digits.isEmpty || !digits.all Char.isDigit || Nat.pow 2 64 ≤ value then none
  else some value

/-- Takes a word that is no option: the command first, then the file, whose
name is not empty. -/
def Draft.word (p : Draft) (text : String) : Option Draft :=
  match p.command, p.file with
  | none, _ =>
    (Command.ofName? text).map fun c => { p with command := some c, given := [] }
  | some _, none =>
    if text.isEmpty then none else some { p with file := some text }
  | some _, some _ => none

/-- Takes an option, which may stand once before the command and once after
it. -/
def Draft.option (p : Draft) (name : String) : Option Draft :=
  if name ∈ p.given then none else some { p with given := name :: p.given }

/-- Takes the depth of calls. -/
def Draft.depth (p : Draft) (value : String) : Option Draft := do
  let p ← p.option depthOption
  let depth ← number? value
  return { p with maxDepth := depth }

/-- Takes the choice of JSON, which only `parse` has. -/
def Draft.chooseJson (p : Draft) : Option Draft :=
  if p.command = some .parse then
    (p.option "--json").map fun p => { p with json := true }
  else none

/-- Takes an argument that needs no other one. -/
def Draft.single (p : Draft) (text : String) : Option Draft :=
  match text.dropPrefix? (depthOption ++ "=") with
  | some value => p.depth value.toString
  | none =>
    if text = "-" || !text.startsWith "-" then p.word text else none

/-- Reads the arguments one after the other.  After `--`, which must follow
the command, all of them are words. -/
def readArguments : List String → Draft → Option Draft
  | [], p => some p
  | "--" :: rest, p =>
    if p.command.isSome then rest.foldlM Draft.word p else none
  | "--log" :: rest, p => do readArguments rest (← p.option "--log")
  | "--json" :: rest, p => do readArguments rest (← p.chooseJson)
  | "--max-call-depth" :: value :: rest, p => do
    readArguments rest (← p.depth value)
  | text :: rest, p => do readArguments rest (← p.single text)

/-- The options that the arguments ask for. -/
def Options.ofArguments? (arguments : List String) : Option Options := do
  let p ← readArguments arguments ⟨none, none, false, Session.defaultMaxDepth, []⟩
  let command ← p.command
  return ⟨command, p.file, p.json, p.maxDepth⟩

/-! ## The host -/

/-- What the commands need from outside. -/
structure Host (μ : Type → Type) where
  /-- The bytes of a file, or the reason why there are none. -/
  contents : String → μ (Except FileFault ByteArray)
  /-- The next line of the input, without its end. -/
  readLine : μ (Option String)
  write : String → μ Unit
  writeError : String → μ Unit
  drive : Session.Drive μ

/-- Everything went well. -/
def success : Nat := 0
/-- The arguments make no sense. -/
def usageFault : Nat := 2
/-- The source was rejected. -/
def staticFault : Nat := 65
/-- The program failed. -/
def runtimeFault : Nat := 70
/-- The source could not be read. -/
def inputFault : Nat := 74

variable {μ : Type → Type} [Monad μ]

/-- Writes the messages of diagnostics, one a line. -/
def reportAll (host : Host μ) : List Diagnostic → μ Unit
  | [] => pure ()
  | d :: rest => do
    host.writeError (d.message ++ "\n")
    reportAll host rest

/-! ## The commands -/

/-- Lists the tokens and the faults of a source. -/
def listItems (host : Host μ) : List Token.Item → μ Unit
  | [] => pure ()
  | .token t :: rest => do
    host.write (t.text ++ "\n")
    listItems host rest
  | .fault line cause :: rest => do
    host.writeError ((Diagnostic.lexical line cause).message ++ "\n")
    listItems host rest

/-- Lists the tokens of a source. -/
def tokenize (host : Host μ) (source : String) : μ Nat := do
  let scan := Token.scan source
  listItems host scan.items
  host.write (Token.endText ++ "\n")
  return if scan.diagnostics.isEmpty then success else staticFault

/-- Prints a source as one expression. -/
def parse (host : Host μ) (json : Bool) (session : Session) (source : String) :
    μ Nat := do
  match (session.loadExpr source).2 with
  | .error diagnostics =>
    reportAll host diagnostics
    return staticFault
  | .ok e =>
    host.write ((if json then e.toJson.pretty else e.print) ++ "\n")
    return success

/-- Writes what became of a source, and gives the status that goes with it. -/
def conclude (host : Host μ) (answer : Session.Answer) : μ Nat := do
  host.write answer.output
  match answer.result with
  | .rejected diagnostics =>
    reportAll host diagnostics
    return staticFault
  | .failed f =>
    host.writeError (f.message ++ "\n")
    return runtimeFault
  | .value v =>
    host.write (v.display ++ "\n")
    return success
  | .completed => return success
  | .unfinished => return success

/-- Evaluates a source as one expression. -/
def evaluate (host : Host μ) (session : Session) (source : String) : μ Nat := do
  let (_, answer) ← session.evalWith host.drive source
  conclude host answer

/-- Runs a source as a program. -/
def run (host : Host μ) (session : Session) (source : String) : μ Nat := do
  let (_, answer) ← session.runWith host.drive source
  conclude host answer

/-- What the prompt shows before it reads a line. -/
def promptText : String := "> "

/-- Runs one line at the prompt and gives the session after it, or none at
the end of the input. -/
def promptLine (host : Host μ) (session : Session) : μ (Option Session) := do
  host.write promptText
  match ← host.readLine with
  | none =>
    host.write "\n"
    return none
  | some line =>
    let (session, answer) ← session.runWith host.drive line
    let _ ← conclude host answer
    return some session

/-- What a command without a file has to say. -/
def noFileText : String := "No input filepath was provided. Exiting...\n"

/-- Does a command on the text of its file. -/
def onText (host : Host μ) (options : Options) (source : String) : μ Nat :=
  let session := Session.new options.maxDepth .unlimited
  match options.command with
  | .tokenize => tokenize host source
  | .parse => parse host options.json session source
  | .evaluate => evaluate host session source
  | .run => run host session source

/-- Does a command on its file. -/
def onFile (host : Host μ) (options : Options) (file : String) : μ Nat := do
  match ← host.contents file with
  | .error fault =>
    host.writeError (fault.message file ++ "\n")
    return inputFault
  | .ok bytes =>
    match Utf8.decode bytes with
    | .error fault =>
      host.writeError s!"Source is not valid UTF-8: {fault.message}\n"
      return inputFault
    | .ok source => onText host options source

/-- What the command line asks for: the prompt, or a status at once. -/
inductive Plan where
  | prompt (session : Session)
  | exit (status : Nat)

/-- Starts what the arguments ask for. -/
def begin (host : Host μ) (arguments : List String) : μ Plan := do
  match Options.ofArguments? arguments with
  | none =>
    host.writeError "Usage: lox <tokenize|parse|evaluate|run> [FILE]\n"
    return .exit usageFault
  | some options =>
    match options.command, options.file with
    | .run, none => return .prompt (.new options.maxDepth .unlimited)
    | _, none =>
      host.write noFileText
      return .exit success
    | _, some file => return .exit (← onFile host options file)

end Lox.Cli
