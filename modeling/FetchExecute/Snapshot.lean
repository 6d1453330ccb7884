import FetchExecute.Machine

/-!
# Snapshots

What there is to show of a machine: its registers, its units, and the memory
inside the windows of its profile. Rows carry both values and their text.  With a
message below them they make up the screen.
-/

namespace FetchExecute

structure RegisterRow where
  register : Register
  name : String
  value : Nat
  text : String
  width : Nat
deriving DecidableEq, Repr

structure UnitRow where
  unit : ProcessorUnit
  status : UnitStatus
deriving DecidableEq, Repr

structure MemoryRow where
  address : Nat
  addressText : String
  value : Nat
  valueText : String
  /-- The instruction in the word, or its value if it holds data. -/
  content : String
  kind : CellKind
deriving DecidableEq, Repr

structure Snapshot where
  architecture : Architecture
  title : String
  program : String
  registers : List RegisterRow
  units : List UnitRow
  memory : List MemoryRow
  cursor : Nat
  total : Nat
  state : RunState
deriving DecidableEq, Repr

def RegisterRow.ofSlot (slot : Slot) : RegisterRow :=
  { register := slot.register
    name := slot.register.name
    value := slot.value
    text := Numeral.hexOfWidth slot.width slot.value
    width := slot.width }

def MemoryRow.ofWord (p : Profile) (kind : CellKind) (address value : Nat) : MemoryRow :=
  { address := address
    addressText := p.formatAddress address
    value := value
    valueText := match kind with
      | .instruction => Numeral.hexOfWidth p.wordBits value
      | .data => Numeral.decimal value
    content := match kind with
      | .instruction => p.disassembleWord value
      | .data => Numeral.decimal value
    kind := kind }

namespace Snapshot

/-- The value of a register that is shown. -/
def register? (s : Snapshot) (r : Register) : Option Nat :=
  (s.registers.find? fun row => row.register = r).map (·.value)

/-- The memory rows of one kind. -/
def cells (s : Snapshot) (kind : CellKind) : List MemoryRow :=
  s.memory.filter fun row => row.kind = kind

/-- The rows of a window; words of zero only if asked for. -/
def windowRows (p : Profile) (memory : Memory) (showZeros : Bool) (w : Window) :
    List MemoryRow :=
  w.addresses.filterMap fun address =>
    match memory.get? address with
    | some value =>
      if showZeros ∨ value ≠ 0 then some (.ofWord p w.kind address value) else none
    | none => none

end Snapshot

def Machine.snapshot (m : Machine) (showZeros : Bool) : Snapshot where
  architecture := m.profile.architecture
  title := m.profile.title
  program := m.program.name
  registers := m.storage.registers.slots.map .ofSlot
  units := m.control.rows.map fun row => ⟨row.1, row.2⟩
  memory := m.profile.windows.flatMap (Snapshot.windowRows m.profile m.storage.memory showZeros)
  cursor := m.cursor
  total := m.total
  state := m.state

/-!
## The screen

A snapshot and a message as lines of text.
-/

section

open Text

def RegisterRow.line (row : RegisterRow) : String :=
  "  " ++ padRight 4 row.name ++ " " ++ padLeft 14 row.text ++
    "  (" ++ Numeral.decimal row.width ++ " bits)"

def UnitRow.line (row : UnitRow) : String :=
  "  " ++ padRight 8 row.unit.name ++ " " ++ row.status.label

def MemoryRow.line (row : MemoryRow) : String :=
  "    [" ++ padLeft 5 row.addressText ++ "] " ++ padLeft 14 row.valueText ++ "  " ++ row.content

def CellKind.heading : CellKind → String
  | .instruction => "Instructions"
  | .data => "Data"

namespace Snapshot

/-- The memory of one kind under its heading. -/
def memoryLines (s : Snapshot) (kind : CellKind) : List String :=
  ("  " ++ kind.heading ++ ":") ::
    match s.cells kind with
    | [] => ["    (empty)"]
    | rows => rows.map MemoryRow.line

def progressLine (s : Snapshot) : String :=
  "PROGRESS: " ++ Numeral.decimal s.cursor ++ "/" ++ Numeral.decimal s.total ++
    " (" ++ s.state.name ++ ")"

def lines (s : Snapshot) (message : String) : List String :=
  [rule '=', s.title ++ " - " ++ s.program, rule '='] ++
    ["", "REGISTERS:"] ++ s.registers.map RegisterRow.line ++
    ["", "CONTROL UNITS:"] ++ s.units.map UnitRow.line ++
    ["", "RELEVANT MEMORY:"] ++ s.memoryLines .instruction ++ s.memoryLines .data ++
    ["", s.progressLine] ++
    ["", "CURRENT MESSAGE:"] ++ Box.lines message

def render (s : Snapshot) (message : String) : String := unlines (s.lines message)

end Snapshot

end

end FetchExecute
