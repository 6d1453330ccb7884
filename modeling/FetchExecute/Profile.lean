import FetchExecute.Text
import FetchExecute.Word

/-!
# Machine profiles

A profile describes a machine that can be simulated: its word and memory size,
the registers it has and their widths, its opcodes and their layout, and how
its addresses are written. There are two machines, and each is described once.
-/

namespace FetchExecute

/-!
## Registers

The processor registers that the machines draw from. A machine declares which of
them it has, and how wide each is.
-/

inductive Register where
  /-- Program counter. -/
  | pc
  /-- Memory address register. -/
  | mar
  /-- Memory buffer register. -/
  | mbr
  /-- Instruction register. -/
  | ir
  /-- Instruction buffer register. -/
  | ibr
  /-- Accumulator. -/
  | ac
  /-- Multiplier and quotient register. -/
  | mq
deriving DecidableEq, Repr

namespace Register

def all : List Register := [.pc, .mar, .mbr, .ir, .ibr, .ac, .mq]

def name : Register → String
  | .pc => "PC"
  | .mar => "MAR"
  | .mbr => "MBR"
  | .ir => "IR"
  | .ibr => "IBR"
  | .ac => "AC"
  | .mq => "MQ"

/-- The position of a register in `all`. -/
def index (r : Register) : Nat := all.idxOf r

/-- The register of a name, in any case of ASCII letters. -/
def ofName? (text : String) : Option Register :=
  all.find? fun r => text.toLower = r.name.toLower

/-- Whether the register holds an address, which is written in the machine's own notation. -/
def holdsAddress : Register → Bool
  | .pc | .mar => true
  | _ => false

/-- Whether the register holds an instruction, which is always written in hexadecimal. -/
def holdsInstruction : Register → Bool
  | .ir | .ibr => true
  | _ => false

end Register

/-!
## Memory windows

The parts of memory worth showing: a range of addresses and what its cells hold.
-/

/-- What the cells of a window hold. -/
inductive CellKind where
  | instruction
  | data
deriving DecidableEq, Repr

/-- The addresses from `first` to `last`, both included. -/
structure Window where
  kind : CellKind
  first : Nat
  last : Nat
deriving DecidableEq, Repr

namespace Window

def contains (w : Window) (address : Nat) : Bool := w.first ≤ address ∧ address ≤ w.last

/-- Ascending; none if the window ends before it starts. -/
def addresses (w : Window) : List Nat := List.range' w.first (w.last + 1 - w.first)

theorem mem_addresses {w : Window} {a : Nat} : a ∈ w.addresses ↔ w.contains a = true := by
  simp only [addresses, List.mem_range'_1, contains, decide_eq_true_eq]
  omega

end Window

/-! ## The machines -/

inductive Architecture where
  /-- A teaching machine with sixteen-bit words. -/
  | hypothetical
  /-- The IAS machine, with forty-bit words of two instructions. -/
  | ias
deriving DecidableEq, Repr

namespace Architecture

/-- In the order of the menus. -/
def all : List Architecture := [.hypothetical, .ias]

/-- The name that a command line gives. -/
def key : Architecture → String
  | .hypothetical => "hypothetical"
  | .ias => "ias"

def name : Architecture → String
  | .hypothetical => "hypothetical machine"
  | .ias => "IAS machine"

/-- Keys count in any case of ASCII letters, and one of them has a short form. -/
def ofKey? (text : String) : Option Architecture :=
  match text.toLower with
  | "hypothetical" | "hyp" => some .hypothetical
  | "ias" => some .ias
  | _ => none

end Architecture

/-! ## Profiles -/

/-- How addresses are written. -/
inductive AddressNotation where
  /-- In hexadecimal, with at least this many digits. -/
  | hex (least : Nat)
  | decimal
deriving DecidableEq, Repr

/-- What a multiplication or division leaves in its two destinations. -/
inductive SplitPolicy where
  /-- The low part of the product, or the quotient, in the first; zero in the second. -/
  | simplified
  /-- High and low part of the product, or quotient and remainder. -/
  | faithful
deriving DecidableEq, Repr

structure Profile where
  architecture : Architecture
  title : String
  wordBits : Nat
  memoryWords : Nat
  /-- The registers, in the order they are shown, with their widths. -/
  registers : List (Register × Nat)
  opcodes : List Opcode
  layout : Layout
  addresses : AddressNotation
  windows : List Window
  splitPolicy : SplitPolicy
deriving DecidableEq, Repr

namespace Profile

def hypothetical : Profile where
  architecture := .hypothetical
  title := "HYPOTHETICAL MACHINE"
  wordBits := 16
  memoryWords := 4096
  registers := [(.pc, 12), (.mar, 12), (.mbr, 16), (.ir, 16), (.ac, 16)]
  opcodes :=
    [⟨0x1, "LOAD", .memory⟩, ⟨0x2, "STOR", .memory⟩, ⟨0x3, "LOADIO", .memory⟩,
     ⟨0x4, "STORIO", .memory⟩, ⟨0x5, "ADD", .memory⟩, ⟨0x6, "SUB", .memory⟩,
     ⟨0x7, "JUMP", .memory⟩, ⟨0x8, "JNEG", .memory⟩, ⟨0x9, "JPOS", .memory⟩,
     ⟨0xA, "JZERO", .memory⟩]
  layout := { instructionBits := 16, opcodeBits := 4, addressBits := 12, perWord := 1 }
  addresses := .hex 3
  windows := [⟨.instruction, 0x100, 0x123⟩, ⟨.data, 0x200, 0x223⟩]
  splitPolicy := .simplified

def ias : Profile where
  architecture := .ias
  title := "IAS COMPUTER"
  wordBits := 40
  memoryWords := 1000
  registers := [(.pc, 12), (.mar, 12), (.mbr, 40), (.ir, 20), (.ibr, 20), (.ac, 40), (.mq, 40)]
  opcodes :=
    [⟨0x01, "LOAD", .memory⟩, ⟨0x02, "LOAD", .negated⟩, ⟨0x03, "LOAD", .absolute⟩,
     ⟨0x04, "LOAD", .negatedAbsolute⟩, ⟨0x05, "STOR", .memory⟩, ⟨0x06, "JUMP", .leftHalf⟩,
     ⟨0x07, "JUMP", .rightHalf⟩, ⟨0x08, "JUMP+", .leftHalf⟩, ⟨0x09, "JUMP+", .rightHalf⟩,
     ⟨0x0A, "ADD", .memory⟩, ⟨0x0B, "ADD", .absolute⟩, ⟨0x0C, "SUB", .memory⟩,
     ⟨0x0D, "SUB", .absolute⟩, ⟨0x0E, "MUL", .memory⟩, ⟨0x0F, "DIV", .memory⟩,
     ⟨0x10, "LSH", .implied⟩, ⟨0x11, "RSH", .implied⟩, ⟨0x12, "STOR", .addressField⟩]
  layout := { instructionBits := 20, opcodeBits := 8, addressBits := 12, perWord := 2 }
  addresses := .decimal
  windows := [⟨.instruction, 0, 5⟩, ⟨.data, 10, 13⟩]
  splitPolicy := .simplified

/-- The profile that simulates a machine. -/
def ofArchitecture : Architecture → Profile
  | .hypothetical => hypothetical
  | .ias => ias

/-- A profile is one of the machine it was made for. -/
@[simp] theorem architecture_ofArchitecture (a : Architecture) :
    (ofArchitecture a).architecture = a := by
  cases a <;> rfl

def withSplit (p : Profile) (policy : SplitPolicy) : Profile := { p with splitPolicy := policy }

/-- The declared width of a register, if the machine has it. -/
def width? (p : Profile) (r : Register) : Option Nat :=
  (p.registers.find? fun declared => declared.1 = r).map (·.2)

def hasRegister (p : Profile) (r : Register) : Bool :=
  p.registers.any fun declared => declared.1 = r

/-- The opcode of a code, if the machine has one. -/
def opcode? (p : Profile) (code : Nat) : Option Opcode := p.opcodes.find? fun op => op.code = code

end Profile

/-!
## Disassembly

The text of addresses, opcodes and instructions, as each machine writes them.
-/

namespace Profile

def formatAddress (p : Profile) (address : Nat) : String :=
  match p.addresses with
  | .hex least => Numeral.hex least address
  | .decimal => Numeral.decimal address

def mnemonic (p : Profile) (code : Nat) : String :=
  match p.opcode? code with
  | some op => op.mnemonic
  | none => Opcode.unknownMnemonic

/-- The mnemonic of a code written in binary, with as many digits as the opcode field has. -/
def mnemonicOfPattern (p : Profile) (pattern : String) : String :=
  match Numeral.ofBinary? p.layout.opcodeBits pattern with
  | some code => p.mnemonic code
  | none => Opcode.unknownMnemonic

/-- The text of one instruction. An unknown code still shows its address. -/
def disassemble (p : Profile) (instruction : Nat) : String :=
  let address := p.formatAddress (p.layout.address instruction)
  match p.opcode? (p.layout.opcode instruction) with
  | some op => op.render address
  | none => Opcode.unknownMnemonic ++ OperandForm.memory.suffix address

/-- The text of a memory word. An empty right side is left out. -/
def disassembleWord (p : Profile) (word : Nat) : String :=
  let left := p.disassemble (p.layout.instruction word .left)
  let right := p.layout.instruction word .right
  if p.layout.perWord < 2 ∨ right = 0 then left
  else left ++ " ; " ++ p.disassemble right

end Profile

end FetchExecute
