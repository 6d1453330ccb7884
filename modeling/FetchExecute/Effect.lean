import FetchExecute.Memory
import FetchExecute.Program
import FetchExecute.RegisterFile

/-!
# Effects

What a micro-step does is computed first, as an effect that changes nothing, and
committed afterwards. A step that fails has no effect. An effect also carries
its description, which names the values that are moved or computed.
-/

namespace FetchExecute

/-!
## The arithmetic unit

An operation on two words has one exact result, of which the destinations keep
what fits them. Products and quotients may fill a second destination, as the
split policy says.
-/

namespace Alu

/-- Bits of the exact result. A difference below zero wraps around at this width. -/
def resultBits : Nat := 128

/-- What the unit is given: operands, and the widths of the destinations. -/
structure Task where
  op : AluOp
  left : Nat
  right : Nat
  /-- Where the right operand comes from, to name it in a fault. -/
  rightRegister : Register
  primaryWidth : Nat
  secondaryWidth : Option Nat
  policy : SplitPolicy
deriving DecidableEq, Repr

structure Result where
  full : Nat
  primary : Nat
  secondary : Option Nat
deriving DecidableEq, Repr

/-- A result with a single destination. -/
def Result.single (t : Task) (full : Nat) : Result :=
  ⟨full, Word.truncate t.primaryWidth full, none⟩

def product (t : Task) : Result :=
  let full := t.left * t.right
  match t.secondaryWidth, t.policy with
  | none, _ => .single t full
  | some _, .simplified => { Result.single t full with secondary := some 0 }
  | some low, .faithful =>
    ⟨full, Word.truncate t.primaryWidth (full >>> low), some (Word.truncate low full)⟩

/-- The quotient goes to the first destination under either policy. -/
def quotient (t : Task) : Result :=
  { Result.single t (t.left / t.right) with
    secondary := t.secondaryWidth.map fun width =>
      match t.policy with
      | .simplified => 0
      | .faithful => Word.truncate width (t.left % t.right) }

def combine (t : Task) : Except Fault Result :=
  match t.op with
  | .add => .ok (.single t (t.left + t.right))
  | .sub => .ok (.single t ((t.left - t.right : Int) % Nat.pow 2 resultBits).toNat)
  | .mul => .ok (product t)
  | .div => if t.right = 0 then .error (.divisionByZero t.rightRegister) else .ok (quotient t)

end Alu

/-! ## Effects -/

/-- The state that steps read and write. -/
structure Storage where
  registers : RegisterFile
  memory : Memory
deriving DecidableEq, Repr

structure Effect where
  /-- In the order of writing, each value within its register. -/
  registerWrites : List (Register × Nat) := []
  /-- The address and the word read. -/
  memoryRead : Option (Nat × Nat) := none
  /-- The address and the word to write. -/
  memoryWrite : Option (Nat × Nat) := none
  description : String := ""
deriving DecidableEq, Repr

/-! ### Computing an effect -/

/-- What a step is carried out in. -/
structure Context where
  profile : Profile
  phase : Phase
  storage : Storage

namespace Context

def read (c : Context) (r : Register) : Except Fault Nat :=
  c.storage.registers.read c.profile.architecture r

def width (c : Context) (r : Register) : Except Fault Nat :=
  c.storage.registers.widthOf c.profile.architecture r

def widthIfAny (c : Context) : Option Register → Except Fault (Option Nat)
  | some r => some <$> c.width r
  | none => .ok none

/-- What a register keeps of a value. -/
def fit (c : Context) (r : Register) (value : Nat) : Except Fault Nat := do
  let width ← c.width r
  return Word.truncate width value

/-- The text of a value in a register: an address in the notation of the machine, an instruction
and anything fetched in hexadecimal, and other data in decimal. -/
def valueText (c : Context) (r : Register) (value : Nat) : String :=
  if r.holdsAddress then c.profile.formatAddress value
  else if r.holdsInstruction ∨ c.phase = .fetch then
    Numeral.hexOfWidth ((c.storage.registers.width? r).getD c.profile.wordBits) value
  else Numeral.decimal value

end Context

/-- An operation on two operands, as a phrase with their values. -/
def AluOp.valuePhrase (op : AluOp) (left right : Register) (l r : Nat) : String :=
  op.phrase (left.name ++ " (" ++ Numeral.decimal l ++ ")")
    (right.name ++ " (" ++ Numeral.decimal r ++ ")")

/-- A sum or difference is shown as stored, a product or quotient in full. -/
def Alu.Result.shown (result : Alu.Result) (op : AluOp) : Nat :=
  if op.splits then result.full else result.primary

namespace MicroOp

def readMemoryEffect (c : Context) (address target : Register) : Except Fault Effect := do
  let location ← c.read address
  let word ← c.storage.memory.read location
  let value ← c.fit target word
  let what := match c.phase with
    | .fetch => "instruction word"
    | .execute => "data"
  return {
    registerWrites := [(target, value)]
    memoryRead := some (location, word)
    description := "Read " ++ what ++ " from memory (" ++ c.profile.formatAddress location ++
      ") into " ++ target.name ++ ": " ++ c.valueText target value }

def writeMemoryEffect (c : Context) (address source : Register) : Except Fault Effect := do
  let location ← c.read address
  c.storage.memory.check location
  let value ← c.read source
  let word := Word.truncate c.storage.memory.wordBits value
  return {
    memoryWrite := some (location, word)
    description := "Write " ++ source.name ++ " (" ++ c.valueText source word ++ ") to memory (" ++
      c.profile.formatAddress location ++ ")" }

/-- What becomes of a result, where `l` and `r` are the operands it was computed from. -/
def combinedEffect (op : AluOp) (left right target : Register) (second : Option Register)
    (l r : Nat) (result : Alu.Result) : Effect :=
  let phrase := op.valuePhrase left right l r ++ " = " ++ Numeral.decimal (result.shown op)
  match second, result.secondary with
  | some low, some value =>
    { registerWrites := [(target, result.primary), (low, value)]
      description := phrase ++ "; " ++ target.name ++ " <- " ++ Numeral.decimal result.primary ++
        ", " ++ low.name ++ " <- " ++ Numeral.decimal value }
  | _, _ =>
    { registerWrites := [(target, result.primary)]
      description := if target = left then phrase else phrase ++ " into " ++ target.name }

def combineEffect (c : Context) (op : AluOp) (left right target : Register)
    (second : Option Register) : Except Fault Effect := do
  let second := op.secondTarget second
  let l ← c.read left
  let r ← c.read right
  let primaryWidth ← c.width target
  let secondaryWidth ← c.widthIfAny second
  let result ← Alu.combine {
    op := op, left := l, right := r, rightRegister := right
    primaryWidth := primaryWidth, secondaryWidth := secondaryWidth
    policy := c.profile.splitPolicy }
  return combinedEffect op left right target second l r result

/-- The effect of an operation, its description without the phase. -/
def effect (c : Context) : MicroOp → Except Fault Effect
  | .observe r => do
    let value ← c.read r
    return {
      description :=
        r.name ++ " holds the address of the instruction (" ++ c.valueText r value ++ ")" }
  | .copy source target => do
    let value ← c.read source
    let kept ← c.fit target value
    return {
      registerWrites := [(target, kept)]
      description :=
        "Copy " ++ source.name ++ " (" ++ c.valueText source kept ++ ") to " ++ target.name }
  | .readMemory address target => readMemoryEffect c address target
  | .writeMemory address source => writeMemoryEffect c address source
  | .increment r => do
    let value ← c.read r
    let next ← c.fit r (value + 1)
    return {
      registerWrites := [(r, next)]
      description := "Increment " ++ r.name ++ " to " ++ c.valueText r next }
  | .loadHalf half source target => do
    let word ← c.read source
    let value ← c.fit target (c.profile.layout.instruction word half)
    return {
      registerWrites := [(target, value)]
      description := "Transfer " ++ half.name ++ " instruction of " ++ source.name ++ " to " ++
        target.name ++ " (" ++ c.valueText target value ++ ")" }
  | .decode r => do
    let instruction ← c.read r
    return { description := "Decode instruction " ++ c.profile.disassemble instruction }
  | .extractAddress source mask target => do
    let instruction ← c.read source
    let value ← c.fit target (instruction &&& mask)
    return {
      registerWrites := [(target, value)]
      description := "Extract operand address (" ++ c.valueText target value ++ ") from " ++
        source.name ++ " into " ++ target.name }
  | .signal op => return { description := "ALU performing " ++ op.noun }
  | .combine op left right target second => combineEffect c op left right target second

end MicroOp

/-- The effect of a step on a machine of this profile. -/
def MicroStep.effect (step : MicroStep) (p : Profile) (s : Storage) : Except Fault Effect := do
  let e ← step.op.effect ⟨p, step.phase, s⟩
  return { e with description := step.phase.label ++ " - " ++ e.description }

/-! ### Committing an effect -/

/-- Writes registers in order, up to the first that the file lacks. -/
def Storage.writeRegisters (owner : Architecture) :
    List (Register × Nat) → Storage → Storage × Except Fault Unit
  | [], s => (s, .ok ())
  | (r, value) :: rest, s =>
    match s.registers.write owner r value with
    | .ok file => writeRegisters owner rest { s with registers := file }
    | .error fault => (s, .error fault)

/-- Writes memory and then registers. Where one write fails, those before it stand. -/
def Effect.commit (e : Effect) (owner : Architecture) (s : Storage) :
    Storage × Except Fault Unit :=
  match e.memoryWrite with
  | none => s.writeRegisters owner e.registerWrites
  | some (address, value) =>
    match s.memory.write address value with
    | .ok memory => { s with memory := memory }.writeRegisters owner e.registerWrites
    | .error fault => (s, .error fault)

end FetchExecute
