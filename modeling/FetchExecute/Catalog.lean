import FetchExecute.Program

/-!
# The catalog

The programs that come with each machine, how they are put together from machine
instructions, and how they are listed.
-/

namespace FetchExecute

/-!
## Assembly

Machine instructions, each with its memory word and with the block of
micro-steps that carries it out: fetching the word, decoding it, and its own
work. A list of instructions becomes a program whose words lie side by side in
memory.

| operation | its own work |
|---|---|
| `load` | `AC := M[X]` |
| `add`, `sub` | `AC := AC ± M[X]` |
| `store` | `M[X] := AC` |
| `multiply` | `AC, MQ := AC * M[X]` |
| `divide` | `MQ, AC := AC / M[X]` |
| `storeQuotient` | `M[X] := MQ` |
-/

section

open Register

/-! ### Blocks of micro-steps -/

namespace Block

/-- Points out the instruction about to be fetched. -/
def observeCounter : MicroStep := .fetch (.observe pc)

/-- Brings the next instruction into the instruction register. -/
def fetch : Architecture → List MicroStep
  | .hypothetical =>
    [.fetch (.copy pc mar), .fetch (.readMemory mar mbr), .fetch (.increment pc),
     .fetch (.copy mbr ir)]
  | .ias =>
    [.fetch (.copy pc mar), .fetch (.readMemory mar mbr), .fetch (.increment pc),
     .fetch (.loadHalf .left mbr ir), .fetch (.loadHalf .right mbr ibr)]

/-- Decodes the instruction and addresses its operand. -/
def decodeOperand (mask : Nat) : List MicroStep :=
  [.execute (.decode ir), .execute (.extractAddress ir mask mar)]

def readOperand : MicroStep := .execute (.readMemory mar mbr)

def loadAccumulator : List MicroStep := [readOperand, .execute (.copy mbr ac)]

def accumulate (op : AluOp) : List MicroStep :=
  [readOperand, .execute (.signal op), .execute (.combine op ac mbr ac none)]

def multiply : List MicroStep :=
  [readOperand, .execute (.signal .mul), .execute (.combine .mul ac mbr ac (some mq))]

def divide : List MicroStep :=
  [readOperand, .execute (.signal .div), .execute (.combine .div ac mbr mq (some ac))]

def storeFrom (source : Register) : List MicroStep :=
  [.execute (.copy source mbr), .execute (.writeMemory mar mbr)]

end Block

/-! ### Instructions -/

inductive Operation where
  | load
  | add
  | sub
  | store
  | multiply
  | divide
  | storeQuotient
deriving DecidableEq, Repr

namespace Operation

/-- The opcode of an operation; zero, which is no opcode, where the machine lacks it. -/
def code : Architecture → Operation → Nat
  | .hypothetical, .load => 0x1
  | .hypothetical, .store => 0x2
  | .hypothetical, .add => 0x5
  | .hypothetical, .sub => 0x6
  | .hypothetical, _ => 0
  | .ias, .load => 0x01
  | .ias, .store | .ias, .storeQuotient => 0x05
  | .ias, .add => 0x0A
  | .ias, .sub => 0x0C
  | .ias, .multiply => 0x0E
  | .ias, .divide => 0x0F

/-- What an operation does once its operand is addressed. -/
def block : Operation → List MicroStep
  | .load => Block.loadAccumulator
  | .add => Block.accumulate .add
  | .sub => Block.accumulate .sub
  | .store => Block.storeFrom ac
  | .multiply => Block.multiply
  | .divide => Block.divide
  | .storeQuotient => Block.storeFrom mq

end Operation

structure Instruction where
  operation : Operation
  address : Nat
deriving DecidableEq, Repr

namespace Instruction

/-- The memory word of an instruction, on the left of a word that holds two. -/
def word (a : Architecture) (i : Instruction) : Nat :=
  (Profile.ofArchitecture a).layout.encode (i.operation.code a) i.address

def steps (a : Architecture) (i : Instruction) : List MicroStep :=
  Block.fetch a ++ Block.decodeOperand (Profile.ofArchitecture a).layout.addressMask ++
    i.operation.block

/-- Instructions side by side, the first one at `base`. -/
def place (a : Architecture) : Nat → List Instruction → List (Nat × Nat)
  | _, [] => []
  | base, i :: rest => (base, i.word a) :: place a (base + 1) rest

end Instruction

/-- The program that carries out `code` on `data`, after showing its start if `observed`. -/
def Program.assemble (a : Architecture) (name : String) (base : Nat) (observed : Bool)
    (code : List Instruction) (data : List (Nat × Nat)) : Program where
  name := name
  words := Instruction.place a base code ++ data
  overrides := [(pc, base)]
  steps := (if observed then [Block.observeCounter] else []) ++ code.flatMap (·.steps a)

end

/-!
## The programs of the catalog

The programs that come with each machine. A program is chosen by its place in
the list of its machine.
-/

namespace Catalog

def hypotheticalSum : Program :=
  .assemble .hypothetical "Basic Sum (5 + 10)" 0x100 true
    [⟨.load, 0x200⟩, ⟨.add, 0x201⟩, ⟨.store, 0x202⟩]
    [(0x200, 5), (0x201, 10), (0x202, 0)]

def hypotheticalSubtraction : Program :=
  .assemble .hypothetical "Basic Subtraction (20 - 8)" 0x110 true
    [⟨.load, 0x210⟩, ⟨.sub, 0x211⟩, ⟨.store, 0x212⟩]
    [(0x210, 20), (0x211, 8), (0x212, 0)]

def hypotheticalTripleSum : Program :=
  .assemble .hypothetical "Triple Sum (4 + 7 + 9)" 0x120 false
    [⟨.load, 0x220⟩, ⟨.add, 0x221⟩, ⟨.add, 0x222⟩, ⟨.store, 0x223⟩]
    [(0x220, 4), (0x221, 7), (0x222, 9), (0x223, 0)]

def iasSum : Program :=
  .assemble .ias "Basic Sum (5 + 10)" 0 true
    [⟨.load, 10⟩, ⟨.add, 11⟩, ⟨.store, 12⟩]
    [(10, 5), (11, 10), (12, 0)]

def iasMultiplyDivide : Program :=
  .assemble .ias "Multiply and Divide (20 * 4, 20 / 4)" 0 true
    [⟨.load, 10⟩, ⟨.multiply, 11⟩, ⟨.store, 12⟩, ⟨.load, 10⟩, ⟨.divide, 11⟩, ⟨.storeQuotient, 13⟩]
    [(10, 20), (11, 4), (12, 0), (13, 0)]

def programs : Architecture → List Program
  | .hypothetical => [hypotheticalSum, hypotheticalSubtraction, hypotheticalTripleSum]
  | .ias => [iasSum, iasMultiplyDivide]

/-- The program of a number, counted from zero. -/
def load (a : Architecture) (id : Nat) : Except Fault Program :=
  match (programs a)[id]? with
  | some program => .ok program
  | none => .error (.unknownProgram a id)

/-- A line of the list of programs. -/
structure Entry where
  id : Nat
  name : String
deriving DecidableEq, Repr

/-- The number by which a menu offers the program, counted from one. -/
def Entry.menuNumber (e : Entry) : Nat := e.id + 1

def entries (a : Architecture) : List Entry :=
  (programs a).zipIdx.map fun numbered => ⟨numbered.2, numbered.1.name⟩

end Catalog

/-!
## The catalog listing

The programs of each machine, and its opcodes in binary.
-/

section

open Text

def Catalog.Entry.line (e : Entry) : String := Numeral.decimal e.menuNumber ++ ". " ++ e.name

/-- The code of an opcode, with as many digits as the opcode field has. -/
def Profile.codeText (p : Profile) (op : Opcode) : String :=
  Numeral.binary p.layout.opcodeBits op.code

namespace Listing

def machineLines (a : Architecture) (entries : List Catalog.Entry) : List String :=
  let p := Profile.ofArchitecture a
  [a.name ++ " (" ++ a.key ++ "):"] ++
    entries.map (fun e => "  " ++ e.line) ++
    ["  Instruction set:"] ++
    p.opcodes.map fun op => "    " ++ p.codeText op ++ "  " ++ op.template

/-- The lines of all machines that are listed. -/
def lines (catalog : List (Architecture × List Catalog.Entry)) : List String :=
  catalog.flatMap fun part => machineLines part.1 part.2

def render (catalog : List (Architecture × List Catalog.Entry)) : String := unlines (lines catalog)

/-- Every machine with its programs. -/
def all : List (Architecture × List Catalog.Entry) :=
  Architecture.all.map fun a => (a, Catalog.entries a)

end Listing

end

end FetchExecute
