/-!
# Words

What memory cells and registers hold: numbers of a bounded width, and in them
instructions, each an opcode beside an address.
-/

namespace FetchExecute

/-!
## Words of bounded width

Registers and memory cells hold natural numbers of a declared number of bits.
Storing a number keeps its low bits only. No cell is wider than `Word.maxWidth`
bits, and a declared width beyond that counts as `Word.maxWidth`.
-/

namespace Word

/-- The widest cell, in bits. -/
def maxWidth : Nat := 64

/-- One more than the largest number that a cell of `width` bits holds. -/
def bound (width : Nat) : Nat := Nat.pow 2 (min width maxWidth)

/-- The number whose binary form is `width` ones. -/
def mask (width : Nat) : Nat := bound width - 1

/-- The low `width` bits of a number. -/
def truncate (width value : Nat) : Nat := value % bound width

theorem bound_pos (width : Nat) : 0 < bound width := Nat.two_pow_pos _

/-- What is kept of a value is below the bound of its width. -/
theorem truncate_lt (width value : Nat) : truncate width value < bound width :=
  Nat.mod_lt _ (bound_pos width)

/-- A value below the bound is kept whole. -/
theorem truncate_of_lt {width value : Nat} (h : value < bound width) :
    truncate width value = value :=
  Nat.mod_eq_of_lt h

/-- Cutting a second time changes nothing. -/
@[simp] theorem truncate_truncate (width value : Nat) :
    truncate width (truncate width value) = truncate width value :=
  truncate_of_lt (truncate_lt width value)

@[simp] theorem truncate_zero (width : Nat) : truncate width 0 = 0 := Nat.zero_mod _

/-- Masking with ones and reducing modulo a power of two are the same operation. -/
theorem and_mask (width value : Nat) : value &&& mask width = truncate width value :=
  Nat.and_two_pow_sub_one_eq_mod value _

end Word

/-!
## Instruction layouts

An instruction is an opcode field above an address field. A memory word holds
one instruction, or two of them side by side.
-/

/-- The side of a memory word that an instruction is taken from. -/
inductive Half where
  | left
  | right
deriving DecidableEq, Repr

def Half.name : Half → String
  | .left => "left"
  | .right => "right"

/-- Field widths of an instruction, and how many instructions fill a word. -/
structure Layout where
  instructionBits : Nat
  opcodeBits : Nat
  addressBits : Nat
  perWord : Nat
deriving DecidableEq, Repr

namespace Layout

/-- The widest opcode that is told apart, in bits. -/
def maxOpcodeBits : Nat := 8

/-- One instruction of a word. A word of a single instruction has nothing on the right. -/
def instruction (l : Layout) (word : Nat) (half : Half) : Nat :=
  if l.perWord = 2 then
    match half with
    | .left => Word.truncate l.instructionBits (word >>> l.instructionBits)
    | .right => Word.truncate l.instructionBits word
  else
    match half with
    | .left => Word.truncate l.instructionBits word
    | .right => 0

def opcode (l : Layout) (instruction : Nat) : Nat :=
  Word.truncate maxOpcodeBits (Word.truncate l.opcodeBits (instruction >>> l.addressBits))

def address (l : Layout) (instruction : Nat) : Nat := Word.truncate l.addressBits instruction

def addressMask (l : Layout) : Nat := Word.mask l.addressBits

/-- The word whose first instruction has this opcode and address, and whose second is zero. -/
def encode (l : Layout) (opcode address : Nat) : Nat :=
  let instruction := (opcode <<< l.addressBits) ||| l.address address
  if l.perWord > 1 then instruction <<< l.instructionBits else instruction

end Layout

/-!
## Opcodes

An opcode names an operation and says how its operand is formed from the
address field.
-/

/-- What the address field of an instruction selects. -/
inductive OperandForm where
  /-- The word at the address. -/
  | memory
  /-- Its negation. -/
  | negated
  /-- Its absolute value. -/
  | absolute
  /-- The negation of its absolute value. -/
  | negatedAbsolute
  /-- The left instruction of the word. -/
  | leftHalf
  /-- The right instruction of the word. -/
  | rightHalf
  /-- The address field of an instruction of the word. -/
  | addressField
  /-- Nothing: the operation has no operand in memory. -/
  | implied
deriving DecidableEq, Repr

/-- The operand text that follows a mnemonic, with its leading blank. -/
def OperandForm.suffix (form : OperandForm) (address : String) : String :=
  match form with
  | .memory => " M(" ++ address ++ ")"
  | .negated => " -M(" ++ address ++ ")"
  | .absolute => " |M(" ++ address ++ ")|"
  | .negatedAbsolute => " -|M(" ++ address ++ ")|"
  | .leftHalf => " M(" ++ address ++ ",0:19)"
  | .rightHalf => " M(" ++ address ++ ",20:39)"
  | .addressField => " M(" ++ address ++ ",8:19)"
  | .implied => ""

structure Opcode where
  code : Nat
  mnemonic : String
  operand : OperandForm
deriving DecidableEq, Repr

namespace Opcode

/-- The text of an instruction with this opcode. -/
def render (op : Opcode) (address : String) : String :=
  op.mnemonic ++ op.operand.suffix address

/-- The text of the opcode itself, an `X` standing for any address. -/
def template (op : Opcode) : String := op.render "X"

/-- Stands for the mnemonic of a code that no opcode has. -/
def unknownMnemonic : String := "???"

end Opcode

end FetchExecute
