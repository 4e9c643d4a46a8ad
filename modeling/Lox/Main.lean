import Std.Time.DateTime.Timestamp
import Lox.CommandLine

/-!
The program itself: it fetches arguments, files and lines, and hands answers
on. All decisions are made elsewhere.
-/

namespace Lox

/-- More units than a run can use up in practice. -/
def ample : Nat := Nat.pow 2 60

/-- The words of the system for an error, with its number. -/
def systemReason : IO.Error → String
  | .noFileOrDirectory _ code details | .permissionDenied _ code details
  | .inappropriateType _ code details | .invalidArgument _ code details =>
      details ++ " (os error " ++ toString code ++ ")"
  | other => toString other

def fetchFile (name : String) : IO FileContent := do
  match ← (IO.FS.Handle.mk name .read).toBaseIO with
  | .error problem => return .unopenable (systemReason problem)
  | .ok _ =>
      match ← (IO.FS.readBinFile name).toBaseIO with
      | .error problem => return .unreadable (systemReason problem)
      | .ok content => return .bytes content

/-- Microseconds since the epoch. -/
def currentTime : IO Nat := do
  let now ← Std.Time.Timestamp.now
  return now.toNanosecondsSinceUnixEpoch.val.toNat / 1000

def handOn (answer : Answer) : IO UInt32 := do
  (← IO.getStdout).putStr answer.output
  (← IO.getStderr).putStr answer.errors
  return answer.exitCode.toUInt32

/-- Read lines and answer them until the input ends. -/
partial def converse (session : Session) : IO Unit := do
  let output ← IO.getStdout
  output.putStr Answer.promptText
  output.flush
  let line ← (← IO.getStdin).getLine
  if line.isEmpty then
    output.putStr "\n"
  else
    match session.runLine ample line with
    | none => return
    | some (result, session) =>
        let _ ← handOn (.ofLine result)
        converse session

def usageText : String :=
  "usage: [--log] COMMAND\n"
    ++ "commands: tokenize [--json] FILE, parse FILE, evaluate FILE, run FILE, repl"

/-- Carry out a command that the arguments ask for. -/
def carryOut (command : Command) : IO UInt32 := do
  let time ← currentTime
  match command with
  | .prompt =>
      converse (.start ⟨.unlimited, []⟩ time)
      return 0
  | .tokenize file _ | .parse file | .evaluate file | .run file =>
      let content ← fetchFile file
      match command.answer ample time (fun _ => content) "" with
      | some answer => handOn answer
      | none => return 70

end Lox

def main (arguments : List String) : IO UInt32 := do
  match Lox.Command.ofArguments? arguments with
  | some command => Lox.carryOut command
  | none =>
      IO.eprintln Lox.usageText
      Lox.handOn Lox.Answer.usageError
