import FetchExecute.Catalog
import FetchExecute.Snapshot

/-!
# Engines and sessions

The two ways in which a host holds a machine.  An engine is a place for one.  A session is a
machine with what its host wants to know of each step.
-/

namespace FetchExecute

/-!
## Engines

A place for a machine, empty until a program is loaded. Every operation other
than loading needs a machine; a program that cannot be loaded leaves the one
that is there.
-/

structure Engine where
  machine? : Option Machine
deriving DecidableEq, Repr

namespace Engine

def empty : Engine := ⟨none⟩

/-- The machine that is loaded. -/
def machine (e : Engine) : Except Fault Machine :=
  match e.machine? with
  | some m => .ok m
  | none => .error .notLoaded

def load (e : Engine) (p : Profile) (program : Program) : Engine × Except Fault Unit :=
  match Machine.load p program with
  | .ok m => (⟨some m⟩, .ok ())
  | .error fault => (e, .error fault)

/-- An operation of the machine, on the engine that holds it. -/
def lift {α : Type} (f : Machine → Machine × Except Fault α) (e : Engine) :
    Engine × Except Fault α :=
  match e.machine? with
  | some m => let (m', result) := f m; (⟨some m'⟩, result)
  | none => (e, .error .notLoaded)

def advance : Engine → Engine × Except Fault StepRecord := lift Machine.advance

def abort : Engine → Engine × Except Fault Unit := lift Machine.abort

def reset : Engine → Engine × Except Fault Unit := lift Machine.reset

end Engine

/-!
## Sessions

A session is a machine as its host sees it. It reports what each step did,
emits the trace of a run to a sink if one is attached and tracing is on, and
runs a program to its end in one go.
-/

/-! ### Traces -/

inductive Event where
  | applied (index : Nat) (step : MicroStep)
  /-- A step that was applied read or wrote a word. -/
  | accessed (address value : Nat) (isWrite : Bool)
  | faulted (index : Nat) (fault : Fault)
deriving DecidableEq, Repr

/-- The events of a step: that it was applied, then what it read, then what it wrote. -/
def StepRecord.trace (r : StepRecord) : List Event :=
  [.applied r.index r.step] ++
    (r.effect.memoryRead.map fun access => .accessed access.1 access.2 false).toList ++
    (r.effect.memoryWrite.map fun access => .accessed access.1 access.2 true).toList

/-! ### Reports -/

structure Config where
  /-- Whether events go to the sink. -/
  tracing : Bool := false
  /-- Whether snapshots have rows for words of zero. -/
  showZeros : Bool := false
deriving DecidableEq, Repr

/-- What the host learns of a step. -/
structure StepReport where
  index : Nat
  description : String
  /-- Whether it was the last one of the program. -/
  isLast : Bool
  control : ControlState
deriving DecidableEq, Repr

def StepRecord.report (r : StepRecord) : StepReport :=
  { index := r.index
    description := r.effect.description
    isLast := r.state = .completed
    control := r.control }

/-- Why a run ended. -/
inductive RunEnd where
  | completed
  | faulted (fault : Fault)
deriving DecidableEq, Repr

structure RunReport where
  /-- The number of steps that were applied. -/
  steps : Nat
  ending : RunEnd
deriving DecidableEq, Repr

/-! ### Opening and showing -/

structure Session where
  machine : Machine
  config : Config
  /-- Whether a sink for events is attached. -/
  hasSink : Bool
deriving DecidableEq, Repr

/-- What an operation leaves: the session, the events it emitted, and its result. -/
structure Response (α : Type) where
  session : Session
  events : List Event
  result : Except Fault α

namespace Session

def ofProgram (p : Profile) (program : Program) (config : Config) : Except Fault Session := do
  let machine ← Machine.load p program
  return ⟨machine, config, false⟩

/-- A session on a program of the catalog. -/
def ofCatalog (a : Architecture) (id : Nat) : Except Fault Session := do
  let program ← Catalog.load a id
  ofProgram (.ofArchitecture a) program {}

def withConfig (s : Session) (config : Config) : Session := { s with config := config }

def attachSink (s : Session) : Session := { s with hasSink := true }

def state (s : Session) : RunState := s.machine.state

def cursor (s : Session) : Nat := s.machine.cursor

def total (s : Session) : Nat := s.machine.total

def steps (s : Session) : List MicroStep := s.machine.program.steps

def fault (s : Session) : Option Fault := s.machine.fault

def snapshot (s : Session) : Snapshot := s.machine.snapshot s.config.showZeros

/-- Where the session stands, as a line. -/
def statusLine (s : Session) : String :=
  match s.state with
  | .completed => "Simulation completed"
  | .aborted => "Simulation aborted"
  | .loaded => "Waiting to start"
  | .running =>
    match s.cursor with
    | 0 => ""
    | last + 1 =>
      match s.steps[last]? with
      | some step =>
        "Step " ++ Numeral.decimal s.cursor ++ "/" ++ Numeral.decimal s.total ++ ": " ++ step.label
      | none => ""

/-- Of these events, those that reach the sink. -/
def emitted (s : Session) (events : List Event) : List Event :=
  if s.config.tracing ∧ s.hasSink then events else []

/-! ### Operations -/

/-- Takes one step. Only a fault that stopped the machine is traced. -/
def advance (s : Session) : Response StepReport :=
  match s.machine.advance with
  | (m, .ok r) =>
    { session := { s with machine := m }
      events := s.emitted r.trace
      result := .ok r.report }
  | (m, .error fault) =>
    { session := { s with machine := m }
      events := if m.fault = some fault then s.emitted [.faulted s.cursor fault] else []
      result := .error fault }

def abort (s : Session) : Session × Except Fault Unit :=
  let (m, result) := s.machine.abort
  ({ s with machine := m }, result)

def reset (s : Session) : Session × Except Fault Unit :=
  let (m, result) := s.machine.reset
  ({ s with machine := m }, result)

/-- Takes up to `n` steps, stopping after the last one of the program or at a fault. -/
def runSteps : Nat → Session → Response RunReport
  | 0, s => ⟨s, [], .error (.finished s.state)⟩
  | n + 1, s =>
    let r := s.advance
    match r.result with
    | .ok report =>
      if report.isLast then ⟨r.session, r.events, .ok ⟨1, .completed⟩⟩
      else
        let rest := runSteps n r.session
        { session := rest.session
          events := r.events ++ rest.events
          result := rest.result.map fun run => { run with steps := run.steps + 1 } }
    | .error fault =>
      if fault.isFatal ∧ r.session.fault.isSome then
        ⟨r.session, r.events, .ok ⟨0, .faulted fault⟩⟩
      else ⟨r.session, r.events, .error fault⟩

/-- Takes all steps that remain. -/
def runToCompletion (s : Session) : Response RunReport :=
  if s.state.isLive then s.runSteps (s.total - s.cursor)
  else ⟨s, [], .error (.finished s.state)⟩

end Session

end FetchExecute
