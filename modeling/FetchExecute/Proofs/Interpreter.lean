import FetchExecute.Catalog
import FetchExecute.Proofs.Storage

/-!
# The instruction level

What instructions do, without micro-steps: an interpreter over the registers
that a programmer knows and the cells of memory.  The registers in which a word
is fetched and decoded do not appear.

Arithmetic is modulo the word size.  A product takes both registers if it is
kept in full, and a quotient leaves its remainder in the accumulator; under the
other policy the second register is cleared.
-/

namespace FetchExecute

/-- A machine as its instructions see it. -/
@[ext]
structure Processor where
  counter : Nat
  accumulator : Nat
  quotient : Nat
  /-- The words of memory by address, zero outside. -/
  cells : Nat → Nat

namespace Processor

/-- The counter has twelve bits on either machine. -/
def countUp (x : Processor) : Processor := { x with counter := (x.counter + 1) % 2 ^ 12 }

def store (x : Processor) (address value : Nat) : Processor :=
  { x with cells := fun other => if other = address then value else x.cells other }

end Processor

/-! ## Instructions -/

/-- What an operation on a cell makes of the processor, and the fault that keeps it from doing
so. -/
def Operation.execute (p : Profile) (op : Operation) (address : Nat) (x : Processor) :
    Processor × Option Fault :=
  if p.memoryWords ≤ address then (x, some (.addressOutOfRange address p.memoryWords))
  else
    let word := x.cells address
    match op with
    | .load => ({ x with accumulator := word }, none)
    | .add => ({ x with accumulator := (x.accumulator + word) % 2 ^ p.wordBits }, none)
    | .sub =>
      ({ x with accumulator := ((x.accumulator - word : Int) % (2 ^ p.wordBits : Nat)).toNat },
        none)
    | .store => (x.store address x.accumulator, none)
    | .storeQuotient => (x.store address x.quotient, none)
    | .multiply =>
      let product := x.accumulator * word
      match p.splitPolicy with
      | .simplified => ({ x with accumulator := product % 2 ^ p.wordBits, quotient := 0 }, none)
      | .faithful =>
        ({ x with accumulator := product / 2 ^ p.wordBits, quotient := product % 2 ^ p.wordBits },
          none)
    | .divide =>
      if word = 0 then (x, some (.divisionByZero .mbr))
      else
        match p.splitPolicy with
        | .simplified => ({ x with accumulator := 0, quotient := x.accumulator / word }, none)
        | .faithful =>
          ({ x with accumulator := x.accumulator % word, quotient := x.accumulator / word }, none)

/-- Outside memory every operation fails, and the processor stays as it is. -/
theorem Operation.execute_of_le {p : Profile} {op : Operation} {address : Nat} {x : Processor}
    (h : p.memoryWords ≤ address) :
    op.execute p address x = (x, some (.addressOutOfRange address p.memoryWords)) := if_pos h

/-- Fetches an instruction and executes it. -/
def Instruction.interpret (p : Profile) (i : Instruction) (x : Processor) :
    Processor × Option Fault :=
  i.operation.execute p i.address x.countUp

/-- Interprets instructions in order, up to the first that raises a fault. -/
def Instruction.interpretAll (p : Profile) : List Instruction → Processor → Processor × Option Fault
  | [], x => (x, none)
  | i :: rest, x =>
    match i.interpret p x with
    | (y, none) => interpretAll p rest y
    | (y, some fault) => (y, some fault)

/-! ## What an operation leaves alone -/

/-- Whether an operation writes to its cell. -/
def Operation.stores : Operation → Bool
  | .store | .storeQuotient => true
  | _ => false

/-- Whether an operation needs the second register of products and quotients. -/
def Operation.usesQuotient : Operation → Bool
  | .multiply | .divide | .storeQuotient => true
  | _ => false

/-- Only the cell of a storing operation ever changes. -/
theorem Operation.cells_execute (p : Profile) (op : Operation) (address : Nat) (x : Processor)
    {other : Nat} (h : op.stores = true → other ≠ address) :
    (op.execute p address x).1.cells other = x.cells other := by
  unfold execute
  split
  · rfl
  · cases op with
    | store => exact if_neg (h rfl)
    | storeQuotient => exact if_neg (h rfl)
    | multiply => cases hp : p.splitPolicy <;> rfl
    | divide =>
      simp only
      split
      · rfl
      · cases hp : p.splitPolicy <;> rfl
    | _ => rfl

/-- No operation changes the counter. -/
theorem Operation.counter_execute (p : Profile) (op : Operation) (address : Nat) (x : Processor) :
    (op.execute p address x).1.counter = x.counter := by
  unfold execute
  split
  · rfl
  · cases op with
    | multiply => cases hp : p.splitPolicy <;> rfl
    | divide =>
      simp only
      split
      · rfl
      · cases hp : p.splitPolicy <;> rfl
    | _ => rfl

/-! ## Views of storage -/

namespace Processor

def ofStorage (s : Storage) : Processor where
  counter := s.value .pc
  accumulator := s.value .ac
  quotient := s.value .mq
  cells := s.word

@[simp] theorem accumulator_ofStorage (s : Storage) : (ofStorage s).accumulator = s.value .ac := rfl

@[simp] theorem cells_ofStorage (s : Storage) : (ofStorage s).cells = s.word := rfl

/-- Writes a register, if it is one that instructions know of. -/
@[simp] def put (x : Processor) (r : Register) (value : Nat) : Processor :=
  match r with
  | .pc => { x with counter := value }
  | .ac => { x with accumulator := value }
  | .mq => { x with quotient := value }
  | _ => x

/-- A register write is seen by the processor in the registers that it has. -/
@[simp] theorem ofStorage_put (s : Storage) (r : Register) (v : Nat) :
    ofStorage (s.put r v) = (ofStorage s).put r (Word.truncate (s.width r) v) := by
  cases r <;> simp [ofStorage, put]

/-- A memory write is a store of what fits into a word. -/
theorem ofStorage_putWord {s : Storage} {address : Nat} (h : address < s.memory.size) (v : Nat) :
    ofStorage (s.putWord address v) =
      (ofStorage s).store address (Word.truncate s.memory.wordBits v) := by
  simp only [ofStorage, store, Storage.value_putWord]
  congr 1
  funext other
  exact Storage.word_putWord h v other

/-- The end of a course as the instruction level sees it. -/
def ofCourse (c : Storage × Option Fault) : Processor × Option Fault := (ofStorage c.1, c.2)

end Processor

end FetchExecute
