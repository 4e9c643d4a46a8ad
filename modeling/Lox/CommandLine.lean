import Lox.Session
import Lox.Syntax.PrefixForm
import Lox.Token.Structured

/-!
The command line: which command the arguments ask for, and what each command
answers on its two output channels and as its exit status. Files are looked up
through a function, so nothing here touches a file system.
-/

namespace Lox

inductive Command where
  /-- List the tokens of a file, possibly in structured form. -/
  | tokenize (file : String) (structured : Bool)
  /-- Show the prefix form of the expression in a file. -/
  | parse (file : String)
  /-- Show the value of the expression in a file. -/
  | evaluate (file : String)
  | run (file : String)
  /-- Read lines and run them as they come. -/
  | prompt
deriving DecidableEq, Repr

/-- Arguments sorted into the flags and the operands of a command. -/
structure Arguments where
  log : Bool
  structured : Bool
  /-- In order. -/
  operands : List String
deriving DecidableEq, Repr

/-- Sort the arguments after the name of a command; each flag may come once,
and after a lone double dash all arguments are operands. -/
def Arguments.sort? : List String → Option Arguments
  | [] => some ⟨false, false, []⟩
  | "--" :: rest => some ⟨false, false, rest⟩
  | first :: rest => do
      let sorted ← Arguments.sort? rest
      if first = "--log" then
        if sorted.log then none else some { sorted with log := true }
      else if first = "--json" then
        if sorted.structured then none else some { sorted with structured := true }
      else if first.startsWith "-" && first ≠ "-" then none
      else some { sorted with operands := first :: sorted.operands }

/-- The command that some arguments ask for, or nothing if they make no sense.
Logging can be switched on everywhere and changes no answer. -/
def Command.ofArguments? (arguments : List String) : Option Command := do
  let (name, rest) ← match arguments with
    | "--log" :: name :: rest => some (name, rest)
    | name :: rest => some (name, rest)
    | [] => none
  let sorted ← Arguments.sort? rest
  match name, sorted.operands with
  | "tokenize", [file] => if file.isEmpty then none else some (.tokenize file sorted.structured)
  | "parse", [file] => if file.isEmpty || sorted.structured then none else some (.parse file)
  | "evaluate", [file] =>
      if file.isEmpty || sorted.structured then none else some (.evaluate file)
  | "run", [file] => if file.isEmpty || sorted.structured then none else some (.run file)
  | "repl", [] => if sorted.structured then none else some .prompt
  | _, _ => none

/-- What looking up a file gives. A reason is in the words of the system. -/
inductive FileContent where
  | bytes (content : ByteArray)
  | unopenable (reason : String)
  | unreadable (reason : String)

/-- What a command leaves behind. -/
structure Answer where
  exitCode : Nat
  output : String
  errors : String
deriving DecidableEq, Repr

/-- Each line with a line end. -/
def unlines (lines : List String) : String := String.join (lines.map (· ++ "\n"))

/-- Diagnostics as they are shown, one after the other. -/
def diagnosticLines (diagnostics : List Diagnostic) : String :=
  unlines (diagnostics.map Diagnostic.text)

/-- A character of a file name inside of quotes. -/
def quotedNameCharacter (character : Char) : String :=
  if character = '"' then "\\\""
  else if character = '\\' then "\\\\"
  else if character = '\n' then "\\n"
  else if character = '\r' then "\\r"
  else if character = '\t' then "\\t"
  else if character = '\x00' then "\\0"
  else if character.toNat < 32 || character.toNat = 127 then
    "\\u\x7b" ++ String.ofList (Nat.toDigits 16 character.toNat) ++ "\x7d"
  else character.toString

/-- The lines of a text, each with its line end; the last may lack one. -/
def linesWithEnds (text : List Char) : List String :=
  let finish (line : List Char) (lines : List String) :=
    if line.isEmpty then lines else String.ofList line.reverse :: lines
  let (line, lines) := text.foldl
    (fun (line, lines) character =>
      if character = '\n' then ([], String.ofList ('\n' :: line).reverse :: lines)
      else (character :: line, lines))
    ([], [])
  (finish line lines).reverse

/-- The one expression that a source text consists of; here the tokens left
after lexical errors are not read. -/
def readExpression (source : String) : Except (List Diagnostic) Expression :=
  let items := scan source
  let lexical := lexicalDiagnostics items
  if lexical.isEmpty then
    (parseExpression (tokensOf items) 0).outcome.mapError (·.map Complaint.diagnostic)
  else .error lexical

namespace Answer

/-- The answer to arguments that ask for no command. -/
def usageError : Answer := ⟨64, "", ""⟩

/-- The answer when a step on a file fails. -/
def fileFailure (step file reason : String) : Answer :=
  let name := String.join (file.toList.map quotedNameCharacter)
  ⟨1, "", "Error: Failed to " ++ step ++ " file \"" ++ name ++ "\"\n\nCaused by:\n    " ++ reason
    ++ "\n"⟩

/-- The answer to a source text that is not run. -/
def staticFailure (diagnostics : List Diagnostic) : Answer :=
  ⟨65, "", diagnosticLines diagnostics⟩

/-- Answer from the text of a file. -/
def fromFile (files : String → FileContent) (file : String)
    (answer : String → Option Answer) : Option Answer :=
  match files file with
  | .unopenable reason => some (fileFailure "open" file reason)
  | .unreadable reason => some (fileFailure "read" file reason)
  | .bytes content =>
      match String.fromUTF8? content with
      | some text => answer text
      | none => some (fileFailure "read" file "stream did not contain valid UTF-8")

def tokens (structured : Bool) (source : String) : Answer :=
  let items := scan source
  let lexical := lexicalDiagnostics items
  { exitCode := if lexical.isEmpty then 0 else 65
    output := unlines ((tokensOf items).map fun token =>
      if structured then token.structured else token.listing)
    errors := diagnosticLines lexical }

def prefixForm (source : String) : Answer :=
  match readExpression source with
  | .error diagnostics => staticFailure diagnostics
  | .ok tree => ⟨0, tree.prefixForm ++ "\n", ""⟩

def value (supply : Nat) (machine : Machine) (source : String) : Option Answer :=
  match readExpression source with
  | .error diagnostics => some (staticFailure diagnostics)
  | .ok tree =>
      let found := Bindings.ofExpression tree
      if found.violations.isEmpty then
        match evaluate supply tree (machine.bondAll found.bonds) with
        | .ok value after => some ⟨0, after.sink.text ++ value.text ++ "\n", ""⟩
        | .error (.failed diagnostic) after =>
            some ⟨70, after.sink.text, diagnosticLines [diagnostic]⟩
        | .error .exhausted _ => none
      else some (staticFailure (found.violations.map Violation.diagnostic))

def program (supply : Nat) (session : Session) (source : String) : Option Answer :=
  (session.run supply source).map fun (report, _) =>
    ⟨report.outcome.exitCode, report.output, diagnosticLines report.diagnostics⟩

/-- What is shown before a line is read. -/
def promptText : String := "> "

/-- What a line leaves behind at the prompt. -/
def ofLine (report : LineReport) : Answer :=
  ⟨0, report.output ++ unlines report.echo.toList, diagnosticLines report.diagnostics⟩

/-- A conversation at the prompt, continued over some lines to the end of the
input. -/
def conversation (supply : Nat) (session : Session) (before : Answer) :
    List String → Option Answer
  | [] => some ⟨before.exitCode, before.output ++ promptText ++ "\n", before.errors⟩
  | line :: rest =>
      match session.runLine supply line with
      | none => none
      | some (report, session) =>
          let answer := ofLine report
          let shown := before.output ++ promptText ++ answer.output
          conversation supply session ⟨0, shown, before.errors ++ answer.errors⟩ rest

end Answer

/-- Carry out a command; nothing if the supply does not suffice. -/
def Command.answer (supply time : Nat) (files : String → FileContent) (input : String)
    (command : Command) : Option Answer :=
  let session : Session := .start ⟨.unlimited, []⟩ time
  match command with
  | .tokenize file structured =>
      Answer.fromFile files file fun source => some (.tokens structured source)
  | .parse file => Answer.fromFile files file fun source => some (.prefixForm source)
  | .evaluate file => Answer.fromFile files file (Answer.value supply session.machine)
  | .run file => Answer.fromFile files file (Answer.program supply session)
  | .prompt => Answer.conversation supply session ⟨0, "", ""⟩ (linesWithEnds input.toList)

end Lox
