import FetchExecute.Profile

/-!
# Faults

Where a simulation stands between loading a program and its end, and the causes for
which a request is refused or a step fails, with their wording.
-/

namespace FetchExecute

/-! ## Run states -/

inductive RunState where
  /-- No step has been taken. -/
  | loaded
  /-- Some steps have been taken, and some remain. -/
  | running
  /-- Every step has been taken. -/
  | completed
  /-- Stopped before the last step, on request or by a fault. -/
  | aborted
deriving DecidableEq, Repr

namespace RunState

def name : RunState → String
  | .loaded => "loaded"
  | .running => "running"
  | .completed => "completed"
  | .aborted => "aborted"

/-- Whether a further step may be taken. -/
def isLive : RunState → Bool
  | .loaded | .running => true
  | .completed | .aborted => false

/-- The state of a program of `total` steps before its first one. -/
def initial (total : Nat) : RunState := if total = 0 then .completed else .loaded

/-- The state after a step that moved the cursor to `cursor`. -/
def afterStep (cursor total : Nat) : RunState := if total ≤ cursor then .completed else .running

end RunState

/-! ## Faults -/

inductive Fault where
  /-- The catalog of the machine has no program of that number. -/
  | unknownProgram (architecture : Architecture) (id : Nat)
  /-- The engine holds no program yet. -/
  | notLoaded
  /-- The simulation is over. -/
  | finished (state : RunState)
  | addressOutOfRange (address size : Nat)
  /-- The divisor was held by the register. -/
  | divisionByZero (register : Register)
  | registerAbsent (register : Register) (architecture : Architecture)
  /-- The step reads a register that nothing has given a value. -/
  | unpopulated (step : Nat) (register : Register)
deriving DecidableEq, Repr

/-- Who has to act on a fault. -/
inductive FaultClass where
  /-- The user, by another choice. -/
  | selection
  /-- The host program, which called out of turn. -/
  | integration
  /-- The author of the simulated program. -/
  | programData
deriving DecidableEq, Repr

namespace Fault

def message : Fault → String
  | .unknownProgram architecture id =>
    "unknown program id " ++ Numeral.decimal id ++ " for " ++ architecture.name
  | .notLoaded => "no program is loaded into the step engine"
  | .finished state => "session is " ++ state.name ++ " and cannot advance"
  | .addressOutOfRange address size =>
    "address " ++ Numeral.decimal address ++ " is outside memory of " ++ Numeral.decimal size ++
      " words"
  | .divisionByZero register => "division by zero: " ++ register.name ++ " holds 0"
  | .registerAbsent register architecture =>
    "register " ++ register.name ++ " is not part of the " ++ architecture.name ++ " register set"
  | .unpopulated step register =>
    "step " ++ Numeral.decimal step ++ " reads " ++ register.name ++
      " before any step populates it"

def kind : Fault → FaultClass
  | .unknownProgram .. => .selection
  | .notLoaded | .finished _ => .integration
  | .addressOutOfRange .. | .divisionByZero _ | .registerAbsent .. | .unpopulated .. => .programData

/-- Whether the simulation cannot go on after it. -/
def isFatal (f : Fault) : Bool := f.kind ≠ .selection

end Fault

end FetchExecute
