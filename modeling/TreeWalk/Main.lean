import TreeWalk.Command

/-!
The program: hands arguments, files and input to the command line and writes what it responds.
-/

namespace TreeWalk

def Response.emit (r : Response) : IO Unit := do
  let out ← IO.getStdout
  out.write r.stdout
  out.flush
  IO.eprint r.stderr

/-- The next line of input with its newline, empty at the end of the input. -/
def inputLine : IO ByteArray := do
  let input ← IO.getStdin
  let mut line := ByteArray.empty
  repeat
    let next ← input.read 1
    line := line ++ next
    if next.isEmpty || next.data.contains Command.newlineByte then break
  return line

/-- The lines of the input, each one read when it is asked for. -/
inductive ComingLines where
  | ofInput

instance : ForIn IO ComingLines ByteArray where
  forIn _ start step := do
    let mut state := start
    repeat
      match Command.inputLines (← inputLine) with
      | [] => break
      | line :: _ =>
        match ← step line state with
        | .done last => return last
        | .yield next => state := next
    return state

/-- The cause that a failing system call tells of. -/
def fileFailure : IO.Error → FileFailure
  | .inappropriateType _ code _ => if code = 21 then .isDirectory else .notDirectory
  | .invalidArgument _ _ _ => .nameTooLong
  | _ => .missing

def readFile (file : String) : IO (Except FileFailure ByteArray) := do
  try
    return .ok (← IO.FS.readBinFile file)
  catch e => return .error (fileFailure e)

def usage : String :=
  "Usage: treewalk [--log] tokenize FILE [--json] | parse FILE | run [FILE]\n"

end TreeWalk

open TreeWalk in
def main (arguments : List String) : IO UInt32 := do
  match Command.ofArguments? arguments with
  | none =>
    IO.eprint usage
    return 2
  | some command =>
    match command.file? with
    | none => return (← Command.dialogue Response.emit ComingLines.ofInput).toUInt32
    | some file =>
      let result ← readFile file
      let response := command.respond (fun _ => result) ByteArray.empty
      response.emit
      return response.exitCode.toUInt32
