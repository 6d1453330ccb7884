import FetchExecute.Effect

/-!
# Machines

A machine runs one program step by step. It stops after the last step, at the
first step that fails, or on request, and can be set back to its start at any
time. A step that fails changes nothing but the run state, and its fault is kept.
-/

namespace FetchExecute

/-!
## Unit status

What the arithmetic and the control unit are shown doing. A unit keeps its
status while decoding and arithmetic steps follow one another; a transfer sets
both idle.
-/

/-- The units whose status is shown. -/
inductive ProcessorUnit where
  | alu
  | control
deriving DecidableEq, Repr

def ProcessorUnit.name : ProcessorUnit → String
  | .alu => "ALU"
  | .control => "Control"

inductive UnitStatus where
  | idle
  | decoding
  | adding
  | subtracting
  | multiplying
  | dividing
deriving DecidableEq, Repr

namespace UnitStatus

def ofAluOp : AluOp → UnitStatus
  | .add => .adding
  | .sub => .subtracting
  | .mul => .multiplying
  | .div => .dividing

def label : UnitStatus → String
  | .idle => "IDLE"
  | .decoding => "DECODING"
  | .adding => "ADDING"
  | .subtracting => "SUBTRACTING"
  | .multiplying => "MULTIPLYING"
  | .dividing => "DIVIDING"

end UnitStatus

/-- The status of both units. -/
structure ControlState where
  alu : UnitStatus
  control : UnitStatus
deriving DecidableEq, Repr

namespace ControlState

def idle : ControlState := ⟨.idle, .idle⟩

/-- The units with their status, in the order they are shown. -/
def rows (s : ControlState) : List (ProcessorUnit × UnitStatus) :=
  [(.alu, s.alu), (.control, s.control)]

/-- The status while a step of this kind runs. -/
def track (s : ControlState) : StepKind → ControlState
  | .alu op => { s with alu := .ofAluOp op }
  | .decode => { s with control := .decoding }
  | .transfer => idle

@[simp] theorem track_transfer (s : ControlState) : s.track .transfer = idle := rfl
@[simp] theorem track_decode (s : ControlState) :
    s.track .decode = { s with control := .decoding } := rfl
@[simp] theorem track_alu (s : ControlState) (op : AluOp) :
    s.track (.alu op) = { s with alu := .ofAluOp op } := rfl

end ControlState

/-! ## Machines -/

/-- Registers and memory as a program finds them: registers of its own, the given memory cleared,
and overrides and words written in the order they are declared. -/
def Program.initialStorage (program : Program) (p : Profile) (memory : Memory) :
    Except Fault Storage := do
  let registers ← program.overrides.foldlM
    (fun file entry => file.write p.architecture entry.1 entry.2) (RegisterFile.zero p)
  let memory ← program.words.foldlM (fun memory entry => memory.write entry.1 entry.2) memory.clear
  return ⟨registers, memory⟩

structure Machine where
  profile : Profile
  program : Program
  storage : Storage
  control : ControlState
  /-- The index of the next step. -/
  cursor : Nat
  state : RunState
  /-- The fault that stopped the machine. -/
  fault : Option Fault
deriving DecidableEq, Repr

/-- What a step did. -/
structure StepRecord where
  index : Nat
  step : MicroStep
  effect : Effect
  /-- The unit status while it ran. -/
  control : ControlState
  /-- The run state after it. -/
  state : RunState
deriving DecidableEq, Repr

namespace Machine

/-- The number of steps of the program. -/
def total (m : Machine) : Nat := m.program.steps.length

/-! ### Start -/

/-- The machine as its program finds it. -/
def restore (m : Machine) : Except Fault Machine := do
  let storage ← m.program.initialStorage m.profile m.storage.memory
  return { m with
    storage := storage
    control := .idle
    cursor := 0
    state := .initial m.total
    fault := none }

/-- A machine at the start of a program. -/
def start (p : Profile) (program : Program) : Except Fault Machine :=
  restore {
    profile := p
    program := program
    storage := ⟨.zero p, .zero p.memoryWords p.wordBits⟩
    control := .idle
    cursor := 0
    state := .loaded
    fault := none }

/-- A machine at the start of a program that suits it. -/
def load (p : Profile) (program : Program) : Except Fault Machine := do
  program.validate p
  start p program

/-! ### Operations -/

/-- The machine after a step whose effect left this storage. -/
def advanced (m : Machine) (step : MicroStep) (storage : Storage) : Machine :=
  { m with
    storage := storage
    control := m.control.track step.kind
    cursor := m.cursor + 1
    state := .afterStep (m.cursor + 1) m.total }

/-- Takes one step and commits its effect. -/
def apply (m : Machine) (step : MicroStep) : Machine × Except Fault StepRecord :=
  match step.effect m.profile m.storage with
  | .error fault => ({ m with state := .aborted, fault := some fault }, .error fault)
  | .ok effect =>
    match effect.commit m.profile.architecture m.storage with
    | (storage, .error fault) => ({ m with storage := storage }, .error fault)
    | (storage, .ok ()) =>
      let m' := m.advanced step storage
      (m', .ok ⟨m.cursor, step, effect, m'.control, m'.state⟩)

/-- Takes the step under the cursor. -/
def advance (m : Machine) : Machine × Except Fault StepRecord :=
  if m.state.isLive then
    match m.program.steps[m.cursor]? with
    | some step => m.apply step
    | none => (m, .error (.finished m.state))
  else (m, .error (.finished m.state))

/-- Stops the machine before its last step. -/
def abort (m : Machine) : Machine × Except Fault Unit :=
  if m.state.isLive then ({ m with state := .aborted }, .ok ())
  else (m, .error (.finished m.state))

/-- Sets the machine back to the start of its program. -/
def reset (m : Machine) : Machine × Except Fault Unit :=
  match m.restore with
  | .ok m' => (m', .ok ())
  | .error fault => (m, .error fault)

end Machine

end FetchExecute
