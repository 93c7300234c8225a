import SyntaxChart.Source

/-!
# The command line

A command line names at most one file, a direction at most once, and asks for a log any number of
times. The program reads the file, or the standard input if none is named, and writes the chart it
holds. The log goes to the standard error and has no influence on anything else.

Help is left out: `-h` and `--help` ask for no chart, and are unknown arguments here, which are
refused like any other.
-/

namespace SyntaxChart

/-- What a command line asks for. -/
structure Request where
  file : Option String
  direction : Direction
  verbosity : Nat

namespace Command

/-- What was found in the arguments so far. -/
structure Settings where
  file : Option String
  direction : Option Direction
  verbosity : Nat

namespace Settings

def empty : Settings := ⟨none, none, 0⟩

/-- Adds a file name; a second one or an empty one is refused. -/
def addFile? (s : Settings) (name : String) : Option Settings :=
  if s.file.isNone ∧ name ≠ "" then some { s with file := some name } else none

/-- Adds a direction by its code; a second one is refused. -/
def addDirection? (s : Settings) (code : String) : Option Settings :=
  if s.direction.isNone then
    (Direction.ofCode? code).map fun d => { s with direction := some d }
  else none

/-- Counts calls for a log. -/
def addVerbosity (s : Settings) (n : Nat) : Settings :=
  { s with verbosity := s.verbosity + n }

/-- The request; without a direction the chart grows downwards. -/
def request (s : Settings) : Request :=
  ⟨s.file, s.direction.getD .topDown, s.verbosity⟩

end Settings

/-- What a single argument says. -/
inductive Argument where
  /-- All further arguments are file names. -/
  | endOfOptions
  | file (name : String)
  | verbosity (n : Nat)
  /-- A direction behind `n` calls for a log; without a code, the next argument is the code. -/
  | direction (n : Nat) (code : Option String)
  | unknown

/-- What short options joined behind one hyphen say, after `n` calls for a log. -/
def shortOptions (n : Nat) : List Char → Argument
  | [] => .verbosity n
  | c :: cs =>
    if c = 'v' then shortOptions (n + 1) cs
    else if c = 'd' then
      match cs with
      | [] => .direction n none
      | '=' :: cs => .direction n (some (String.ofList cs))
      | cs => .direction n (some (String.ofList cs))
    else .unknown

/-- What a long option says. -/
def longOption (name : List Char) : Argument :=
  if name = [] then .endOfOptions
  else if name = "verbose".toList then .verbosity 1
  else if name = "direction".toList then .direction 0 none
  else if "direction=".toList.isPrefixOf name then
    .direction 0 (some (String.ofList (name.drop "direction=".length)))
  else .unknown

/-- What an argument says; a hyphen on its own is a file name. -/
def argument (arg : String) : Argument :=
  match arg.toList with
  | '-' :: '-' :: name => longOption name
  | '-' :: c :: cs => shortOptions 0 (c :: cs)
  | _ => .file arg

def readFiles? (s : Settings) : List String → Option Settings
  | [] => some s
  | name :: names => (s.addFile? name).bind (readFiles? · names)

def readArguments? (s : Settings) : List String → Option Settings
  | [] => some s
  | arg :: args =>
    match argument arg with
    | .endOfOptions => readFiles? s args
    | .file name => (s.addFile? name).bind (readArguments? · args)
    | .verbosity n => readArguments? (s.addVerbosity n) args
    | .direction n (some code) =>
      ((s.addVerbosity n).addDirection? code).bind (readArguments? · args)
    | .direction n none =>
      match args with
      | [] => none
      | code :: args => ((s.addVerbosity n).addDirection? code).bind (readArguments? · args)
    | .unknown => none

/-- The request that a command line makes, or `none` if it is refused. -/
def request? (args : List String) : Option Request :=
  (readArguments? .empty args).map Settings.request

end Command

end SyntaxChart
