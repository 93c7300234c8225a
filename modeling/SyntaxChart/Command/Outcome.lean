import SyntaxChart.Command

/-!
# The outcome of a run

What a run writes and the code it ends with, from its request and the bytes it read.
-/

namespace SyntaxChart

inductive InputError where
  | missing
  | directory
  | notDirectory
  | nameTooLong
  | notUtf8
  | other (reason : String)

def InputError.message : InputError → String
  | missing => "No such file or directory (os error 2)"
  | directory => "Is a directory (os error 21)"
  | notDirectory => "Not a directory (os error 20)"
  | nameTooLong => "File name too long (os error 36)"
  | notUtf8 => "stream did not contain valid UTF-8"
  | other reason => reason

/-- The text that bytes encode. -/
def decodeInput (bytes : ByteArray) : Except InputError String :=
  match String.fromUTF8? bytes with
  | some text => .ok text
  | none => .error .notUtf8

structure Inputs where
  file : String → Except InputError ByteArray
  standard : Except InputError ByteArray

structure Outcome where
  code : Nat
  output : String
  /-- The lines on the standard error. -/
  messages : List String

def Outcome.usage : Outcome := ⟨2, "", []⟩

def failureLine (message : String) : String :=
  "ERROR: " ++ message

namespace Request

/-- What an input error calls the input. -/
def inputName (request : Request) : String :=
  request.file.getD "stdin"

/-- The text that a request is about. -/
def input (request : Request) (inputs : Inputs) : Except InputError String :=
  (match request.file with
    | some name => inputs.file name
    | none => inputs.standard).bind decodeInput

/-- Whether a request wants an event in its log. -/
def wants (request : Request) (event : Event) : Bool :=
  if event.isFine then decide (2 ≤ request.verbosity) else decide (1 ≤ request.verbosity)

/-- The log that a request wants of a text. -/
def log (request : Request) (text : String) : List String :=
  ((Source.events text).filter request.wants).map Event.line

def outcome (request : Request) (inputs : Inputs) : Outcome :=
  match request.input inputs with
  | .error error =>
    ⟨1, "", [failureLine ("failed to read " ++ request.inputName ++ ": " ++ error.message)]⟩
  | .ok text =>
    match Source.chartText text request.direction with
    | .ok chart => ⟨0, chart ++ "\n", request.log text⟩
    | .error rejection => ⟨1, "", request.log text ++ [failureLine rejection.message]⟩

end Request

def Command.run (args : List String) (inputs : Inputs) : Outcome :=
  match request? args with
  | some request => request.outcome inputs
  | none => .usage

end SyntaxChart
