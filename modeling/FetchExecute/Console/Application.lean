import FetchExecute.Console.Arguments
import FetchExecute.Console.Stepping

/-!
# The console program

What the program prints for its arguments and its input, and the code it exits
with: zero if it did what it was asked, one if the request or the input was
unusable, two if a simulated program failed. Where the arguments do not name a
machine and a program, menus offer them.
-/

namespace FetchExecute.Console

open Text

/-- How the process ends: its exit code, and lines for the error stream. -/
structure Exit where
  code : Nat
  errors : List String
deriving DecidableEq, Repr

namespace Exit

def success : Exit := ⟨0, []⟩

/-- There is nothing to run, which the user can see or has been told. -/
def declined : Exit := ⟨1, []⟩

def garbledInput : Exit := ⟨1, ["error: stream did not contain valid UTF-8"]⟩

def badArguments (e : ArgumentError) : Exit := ⟨1, ("error: " ++ e.message) :: usage⟩

def ofVerdict : Verdict → Exit
  | .finished => success
  | .faulted fault => ⟨2, ["error: " ++ fault.message]⟩
  | .garbled => garbledInput

end Exit

/-! ## Menus -/

/-- Where the process waits for input. -/
inductive Stage where
  | machineMenu (auto : Bool)
  | programMenu (auto : Bool) (a : Architecture)
  | stepping (s : Session)
deriving DecidableEq, Repr

def machineQuestion : Question Architecture where
  wording := "Select a machine: "
  parse text := (ofNumber? (trim text)).bind fun n => Architecture.all[n]?

def programQuestion (a : Architecture) : Question Nat where
  wording := "Select a program: "
  parse text := (ofNumber? (trim text)).filter fun n => n < (Catalog.programs a).length

def offerMachines : List Output :=
  [.line (rule '='), .line "COMPUTER ARCHITECTURE SIMULATOR", .line (rule '=')] ++
    (Architecture.all.zipIdx.map fun numbered =>
      .line (Numeral.decimal (numbered.2 + 1) ++ ". " ++ numbered.1.name)) ++
    [.question machineQuestion.wording]

def offerPrograms (a : Architecture) : List Output :=
  [.line "\nAvailable programs:", .line (rule '-')] ++
    (Catalog.entries a).map (fun e => .line e.line) ++
    [.line (rule '-'), .question (programQuestion a).wording]

/-! ## The process -/

namespace Stage

/-- A turn of the step loop, as one of the process. -/
def ofStepping (t : Turn Session Ending) : Turn Stage Exit :=
  t.bind stepping fun ending => .done [] (.ofVerdict ending.verdict)

/-- Starts stepping through a program of the catalog. -/
def openSession (auto : Bool) (a : Architecture) (id : Nat) : Turn Stage Exit :=
  match Session.ofCatalog a id with
  | .ok s => ofStepping (Stepping.opening auto s)
  | .error fault => .done [.line ("error: " ++ fault.message)] .declined

/-- Chooses a program of a machine, from the menu unless it is given. -/
def chooseProgram (auto : Bool) (a : Architecture) : Option Nat → Turn Stage Exit
  | some id => openSession auto a id
  | none => .wait (offerPrograms a) (.programMenu auto a)

/-- Chooses a machine and then a program. -/
def choose (o : Options) : Turn Stage Exit :=
  match o.architecture with
  | some a => chooseProgram o.auto a o.program
  | none => .wait offerMachines (.machineMenu o.auto)

def receive (stage : Stage) (line : Line) : Turn Stage Exit :=
  match stage with
  | .machineMenu auto => (machineQuestion.receive line).bind (fun _ => stage) fun
    | .accepted a => chooseProgram auto a none
    | .garbled => .done [] .garbledInput
    | .missing => .done [] .declined
  | .programMenu auto a => ((programQuestion a).receive line).bind (fun _ => stage) fun
    | .accepted id => openSession auto a id
    | .garbled => .done [] .garbledInput
    | .missing => .done [] .declined
  | .stepping s => ofStepping (Stepping.dialogue.receive s line)

def close : Stage → List Output × Exit
  | .machineMenu _ | .programMenu .. => ([], .declined)
  | .stepping s =>
    let (out, ending) := Stepping.dialogue.close s
    (out, .ofVerdict ending.verdict)

end Stage

def process : Dialogue Stage Exit := ⟨Stage.receive, Stage.close⟩

/-- What the process does before it reads any input. -/
def opening (args : List String) : Turn Stage Exit :=
  match Request.parse args with
  | .error e => .done [] (.badArguments e)
  | .ok .help => .done (usage.map .line) .success
  | .ok (.run o) =>
    if o.list then .done ((Listing.lines Listing.all).map .line) .success else Stage.choose o

/-- The whole process on its arguments and the bytes of its input. -/
def run (args : List String) (input : List UInt8) : Transcript Exit :=
  process.runFrom (opening args) (linesOf input)

/-- What is printed in the course of a transcript. -/
def Transcript.text {α : Type} (t : Transcript α) : String := String.join (t.output.map Output.text)

end FetchExecute.Console
