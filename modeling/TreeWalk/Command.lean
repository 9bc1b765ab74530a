import TreeWalk.FileTree
import TreeWalk.Session
import TreeWalk.Syntax.Outline
import TreeWalk.Text.Quoted
import TreeWalk.Token.Listing

/-!
The command line as a function from arguments, files and input to output and exit status.
-/

namespace TreeWalk

/-- What a command writes, and the status it ends with. -/
structure Response where
  stdout : ByteArray
  stderr : String
  exitCode : Nat

namespace Response

def output (text : ByteArray) : Response :=
  ⟨text, "", 0⟩

/-- Writes one after the other, and ends as the later one does. -/
def append (earlier later : Response) : Response :=
  ⟨earlier.stdout ++ later.stdout, earlier.stderr ++ later.stderr, later.exitCode⟩

end Response

inductive Command where
  | tokenize (file : String) (json : Bool)
  | parse (file : String)
  | run (file : String)
  /-- Reads source texts from the input, a line each. -/
  | prompt

namespace Command

/-- The file that a command reads. -/
def file? : Command → Option String
  | tokenize file _ => some file
  | parse file => some file
  | run file => some file
  | prompt => none

/-- Whether an argument is an option. A lone dash is not. -/
def isOption (argument : String) : Bool :=
  match argument.toList with
  | '-' :: _ :: _ => true
  | _ => false

/-- A command by its name, with the options and the files given after it. -/
def named? (name : String) (options files : List String) : Option Command :=
  match name, options, files with
  | "tokenize", [], [file] => some (.tokenize file false)
  | "tokenize", ["--json"], [file] => some (.tokenize file true)
  | "parse", [], [file] => some (.parse file)
  | "run", [], [file] => some (.run file)
  | "run", [], [] => some .prompt
  | _, _, _ => none

/-- Understands the arguments. Logging leaves no trace in what a command writes, a double dash ends
the options, and no file has the empty name. -/
def ofArguments? (arguments : List String) : Option Command :=
  let leading := arguments.takeWhile (· ≠ "--")
  let trailing := (arguments.dropWhile (· ≠ "--")).drop 1
  match leading.filter (· ≠ "--log") with
  | [] => none
  | name :: rest =>
    let files := rest.filter (!isOption ·) ++ trailing
    if files.contains "" then none else named? name (rest.filter isOption) files

/-- A failure to open or read something, and what caused it. -/
def readFailure (what : String) (cause : FileFailure) : Response :=
  let act := if cause.opened then "read " else "open "
  ⟨ByteArray.empty,
    "Error: Failed to " ++ act ++ what ++ "\n\nCaused by:\n    " ++ cause.message ++ "\n", 1⟩

/-- Hands the text of a file on, or tells why there is none. -/
def withFile (read : String → Except FileFailure ByteArray) (file : String)
    (use : String → Response) : Response :=
  let source : Except FileFailure String := do
    match String.fromUTF8? (← read file) with
    | some source => return source
    | none => throw .invalidText
  match source with
  | .ok source => use source
  | .error cause => readFailure ("file " ++ Text.quoted file) cause

def lines (texts : List String) : String :=
  String.join (texts.map (· ++ "\n"))

/-- Reports for the user, each on a line of its own. -/
def reportLines (ds : List Diagnostic) : String :=
  lines (ds.map Diagnostic.text)

/-- Lists all tokens of a source, also if there are errors. -/
def tokenizeSource (json : Bool) (source : String) : Response :=
  let tokens := Source.tokens source
  let errors := Source.errors source
  let listing :=
    if json then (Json.array (tokens.map Token.toJson)).indented 0 ++ "\n"
    else lines (tokens.map Token.listing)
  ⟨listing.toUTF8, reportLines errors, if errors.isEmpty then 0 else 65⟩

/-- The outline of a source that is a single expression. -/
def parseSource (source : String) : Response :=
  let errors := Source.errors source
  if errors.isEmpty then
    match (parseExpression (Source.tokens source) 0).1 with
    | .ok e => ⟨(lines [e.outline]).toUTF8, "", 0⟩
    | .error d => ⟨ByteArray.empty, reportLines [d], 65⟩
  else ⟨ByteArray.empty, reportLines errors, 65⟩

/-- What an outcome adds to the error output. -/
def outcomeText : Outcome → String
  | .done => ""
  | outcome => outcome.text ++ "\n"

def runSource (source : String) : Response :=
  let (outcome, session) := (Session.initial .unlimited).run Session.ampleFuel source
  ⟨session.printed, outcomeText outcome, outcome.exitCode⟩

def promptText : ByteArray := "> ".toUTF8

/-- What one line of input to the prompt writes, and the session after it; no session if the line
is not text. -/
def promptLine (line : ByteArray) (session : Session) : Response × Option Session :=
  match String.fromUTF8? line with
  | none => (readFailure "from stdin" .invalidText, none)
  | some source =>
    let before := session.printed.size
    let (outcome, session) := session.run Session.ampleFuel source
    (⟨session.printed.extract before session.printed.size, outcomeText outcome, 0⟩, some session)

/-- A dialogue over lines, however they are come by: prompts for each line and for the end, and
answers a line before it prompts for the next. What it writes is emitted as it goes along; it ends
with an exit code. -/
def dialogue {m : Type → Type} {ρ : Type} [Monad m] [ForIn m ρ ByteArray]
    (emit : Response → m Unit) (lines : ρ) : m Nat := do
  let mut session := Session.initial .unlimited
  emit (.output promptText)
  for line in lines do
    match promptLine line session with
    | (answer, some next) =>
      emit answer
      session := next
      emit (.output promptText)
    | (answer, none) =>
      emit answer
      return answer.exitCode
  emit (.output "\n".toUTF8)
  return 0

def newlineByte : UInt8 := 10

/-- A line without the newline that ends it, and without a carriage return before that. -/
def chomp (line : List UInt8) : List UInt8 :=
  if line.getLast? = some newlineByte then
    let line := line.dropLast
    if line.getLast? = some 13 then line.dropLast else line
  else line

/-- Lines with the newlines that end them; the last one may have none. -/
def rawLines : List UInt8 → List (List UInt8)
  | [] => []
  | b :: bs =>
    if b = newlineByte then [b] :: rawLines bs
    else
      match rawLines bs with
      | [] => [[b]]
      | line :: rest => (b :: line) :: rest

def inputLines (input : ByteArray) : List ByteArray :=
  (rawLines input.toList).map fun line => ⟨(chomp line).toArray⟩

/-- Carries out a command, given how to read files and the whole input. -/
def respond (read : String → Except FileFailure ByteArray) (input : ByteArray) :
    Command → Response
  | tokenize file json => withFile read file (tokenizeSource json)
  | parse file => withFile read file parseSource
  | run file => withFile read file runSource
  | prompt =>
    let emit (r : Response) : StateM Response Unit := modify (·.append r)
    let (exitCode, response) := (dialogue emit (inputLines input)).run (.output ByteArray.empty)
    { response with exitCode }

end Command

end TreeWalk
