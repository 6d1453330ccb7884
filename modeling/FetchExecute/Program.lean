import FetchExecute.Fault

/-!
# Micro-steps and programs

A micro-step is the smallest thing a machine does: it moves a value between two
places, decodes an instruction, or drives the arithmetic unit. What it does is
fixed by its operation; its phase tells only which half of the instruction cycle
it belongs to. A program is a list of micro-steps.
-/

namespace FetchExecute

/-! ## Micro-steps -/

/-- The halves of the instruction cycle. -/
inductive Phase where
  | fetch
  | execute
deriving DecidableEq, Repr

def Phase.label : Phase → String
  | .fetch => "Fetch cycle"
  | .execute => "Execute cycle"

/-- The operations of the arithmetic unit. -/
inductive AluOp where
  | add
  | sub
  | mul
  | div
deriving DecidableEq, Repr

namespace AluOp

def noun : AluOp → String
  | .add => "addition"
  | .sub => "subtraction"
  | .mul => "multiplication"
  | .div => "division"

/-- Whether the result has two parts, so that a second destination makes sense. -/
def splits : AluOp → Bool
  | .add | .sub => false
  | .mul | .div => true

/-- The second destination, of an operation that has use for one. -/
def secondTarget (op : AluOp) (second : Option Register) : Option Register :=
  if op.splits then second else none

end AluOp

/-- What a step is about, as far as the unit status shows it. -/
inductive StepKind where
  | transfer
  | decode
  | alu (op : AluOp)
deriving DecidableEq, Repr

/-- Whether the step keeps the arithmetic or the control unit busy. -/
def StepKind.isActive : StepKind → Bool
  | .transfer => false
  | .decode | .alu _ => true

inductive MicroOp where
  /-- Points at a register and changes nothing. -/
  | observe (register : Register)
  | copy (source target : Register)
  /-- Reads the word at the address held by `address`. -/
  | readMemory (address target : Register)
  /-- Writes `source` to the word at the address held by `address`. -/
  | writeMemory (address source : Register)
  | increment (register : Register)
  /-- Takes one instruction out of a memory word. -/
  | loadHalf (half : Half) (source target : Register)
  | decode (register : Register)
  /-- Takes the bits of `mask` out of an instruction. -/
  | extractAddress (source : Register) (mask : Nat) (target : Register)
  /-- Announces an operation of the arithmetic unit. -/
  | signal (op : AluOp)
  /-- Performs it; `second` receives the second part of a split result. -/
  | combine (op : AluOp) (left right target : Register) (second : Option Register)
deriving DecidableEq, Repr

namespace MicroOp

def kind : MicroOp → StepKind
  | .decode _ => .decode
  | .signal op | .combine op .. => .alu op
  | _ => .transfer

/-- The registers whose values the operation uses. -/
def reads : MicroOp → List Register
  | .observe r | .increment r | .decode r => [r]
  | .copy source _ | .loadHalf _ source _ | .extractAddress source _ _ => [source]
  | .readMemory address _ => [address]
  | .writeMemory address source => [address, source]
  | .signal _ => []
  | .combine _ left right _ _ => [left, right]

/-- The registers that the operation gives a value. -/
def writes : MicroOp → List Register
  | .copy _ target | .loadHalf _ _ target | .readMemory _ target | .extractAddress _ _ target =>
    [target]
  | .increment r => [r]
  | .combine op _ _ target second =>
    match second with
    | some low => if op.splits then [target, low] else [target]
    | none => [target]
  | .observe _ | .writeMemory .. | .decode _ | .signal _ => []

end MicroOp

structure MicroStep where
  phase : Phase
  op : MicroOp
deriving DecidableEq, Repr

namespace MicroStep

def fetch (op : MicroOp) : MicroStep := ⟨.fetch, op⟩

def execute (op : MicroOp) : MicroStep := ⟨.execute, op⟩

def kind (s : MicroStep) : StepKind := s.op.kind

def reads (s : MicroStep) : List Register := s.op.reads

def writes (s : MicroStep) : List Register := s.op.writes

end MicroStep

/-!
## Step labels

The text of a micro-step before it is taken, which names its operands but not
their values.
-/

/-- An operation on two registers, as a phrase. -/
def AluOp.phrase (op : AluOp) (left right : String) : String :=
  match op with
  | .add => "Add " ++ right ++ " to " ++ left
  | .sub => "Subtract " ++ right ++ " from " ++ left
  | .mul => "Multiply " ++ left ++ " by " ++ right
  | .div => "Divide " ++ left ++ " by " ++ right

namespace MicroOp

/-- A split result names both destinations; any other names a destination unlike the left
operand. -/
def combineAction (op : AluOp) (left right target : Register) (second : Option Register) :
    String :=
  let phrase := op.phrase left.name right.name
  match op, second with
  | .mul, some low => phrase ++ "; high part to " ++ target.name ++ ", low part to " ++ low.name
  | .div, some rest =>
    phrase ++ "; quotient to " ++ target.name ++ ", remainder to " ++ rest.name
  | _, _ => if target = left then phrase else phrase ++ " into " ++ target.name

def action (phase : Phase) : MicroOp → String
  | .observe r => r.name ++ " holds the address of the instruction"
  | .copy source target => "Copy " ++ source.name ++ " to " ++ target.name
  | .readMemory _ target =>
    match phase with
    | .fetch => "Read instruction word from memory into " ++ target.name
    | .execute => "Read data from memory into " ++ target.name
  | .writeMemory address source =>
    "Write " ++ source.name ++ " to memory at " ++ address.name
  | .increment r => "Increment " ++ r.name
  | .loadHalf half source target =>
    "Transfer " ++ half.name ++ " instruction of " ++ source.name ++ " to " ++ target.name
  | .decode r => "Decode instruction in " ++ r.name
  | .extractAddress source _ target =>
    "Extract operand address from " ++ source.name ++ " into " ++ target.name
  | .signal op => "ALU performing " ++ op.noun
  | .combine op left right target second => combineAction op left right target second

end MicroOp

def MicroStep.label (s : MicroStep) : String := s.phase.label ++ " - " ++ s.op.action s.phase

/-!
## Programs

A program is a list of micro-steps with the memory words and register values it
starts from. A program suits a machine if it stays inside its memory and its
registers, and if each step reads only registers that have been given a value,
initially or by an earlier step.
-/

structure Program where
  name : String
  /-- Initial words with their addresses. -/
  words : List (Nat × Nat)
  /-- Initial register values; all other registers start at zero. -/
  overrides : List (Register × Nat)
  steps : List MicroStep
deriving DecidableEq, Repr

namespace Program

/-- The first initial word outside memory. -/
def wordDefect? (p : Profile) (words : List (Nat × Nat)) : Option Fault :=
  (words.find? fun entry => p.memoryWords ≤ entry.1).map fun entry =>
    .addressOutOfRange entry.1 p.memoryWords

def absence? (p : Profile) (r : Register) : Option Fault :=
  if p.hasRegister r then none else some (.registerAbsent r p.architecture)

/-- The first initial value of a register that the machine lacks. -/
def overrideDefect? (p : Profile) (overrides : List (Register × Nat)) : Option Fault :=
  overrides.findSome? fun entry => absence? p entry.1

/-- What is wrong with the step of this index, given the registers populated before it. -/
def stepDefect? (p : Profile) (known : List Register) (index : Nat) (step : MicroStep) :
    Option Fault :=
  (step.reads.findSome? fun r =>
    (absence? p r).or (if r ∈ known then none else some (.unpopulated index r))).or
  (step.writes.findSome? (absence? p))

/-- The first defect of the steps from this index on. -/
def stepsDefect? (p : Profile) : List Register → Nat → List MicroStep → Option Fault
  | _, _, [] => none
  | known, index, step :: rest =>
    (stepDefect? p known index step).or (stepsDefect? p (known ++ step.writes) (index + 1) rest)

/-- The first defect of a program: in its words, then its overrides, then its steps. -/
def defect? (p : Profile) (program : Program) : Option Fault :=
  (wordDefect? p program.words).or <|
    (overrideDefect? p program.overrides).or <|
      stepsDefect? p (program.overrides.map (·.1)) 0 program.steps

def validate (p : Profile) (program : Program) : Except Fault Unit :=
  match program.defect? p with
  | some fault => .error fault
  | none => .ok ()

end Program

end FetchExecute
