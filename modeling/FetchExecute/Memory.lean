import FetchExecute.Fault
import FetchExecute.Word

/-!
# Memory

A fixed number of words of a fixed width, addressed from zero. A cell keeps the
low bits of what is written to it.
-/

namespace FetchExecute

structure Memory where
  wordBits : Nat
  words : Array Nat
deriving DecidableEq, Repr

namespace Memory

def zero (size wordBits : Nat) : Memory := ⟨wordBits, Array.replicate size 0⟩

def size (m : Memory) : Nat := m.words.size

def get? (m : Memory) (address : Nat) : Option Nat := m.words[address]?

/-- Whether the address is one of this memory. -/
def check (m : Memory) (address : Nat) : Except Fault Unit :=
  if address < m.size then .ok () else .error (.addressOutOfRange address m.size)

def read (m : Memory) (address : Nat) : Except Fault Nat :=
  match m.get? address with
  | some word => .ok word
  | none => .error (.addressOutOfRange address m.size)

def write (m : Memory) (address value : Nat) : Except Fault Memory :=
  if address < m.size then
    .ok { m with words := m.words.setIfInBounds address (Word.truncate m.wordBits value) }
  else .error (.addressOutOfRange address m.size)

/-- Writes, and answers with what the cell keeps. -/
def store (m : Memory) (address value : Nat) : Memory × Except Fault Nat :=
  match m.write address value with
  | .ok m' => (m', .ok (Word.truncate m.wordBits value))
  | .error fault => (m, .error fault)

def clear (m : Memory) : Memory := zero m.size m.wordBits

/-! ## Reading back -/

theorem get?_eq_none_iff {m : Memory} {address : Nat} :
    m.get? address = none ↔ m.size ≤ address := by
  simp [get?, size]

theorem read_eq_ok_iff {m : Memory} {address word : Nat} :
    m.read address = .ok word ↔ m.get? address = some word := by
  cases h : m.get? address <;> simp [read, h]

/-- A write succeeds inside memory, and keeps what fits into a word. -/
theorem write_eq_ok_iff {m m' : Memory} {address value : Nat} :
    m.write address value = .ok m' ↔ address < m.size ∧
      m' = { m with words := m.words.setIfInBounds address (Word.truncate m.wordBits value) } := by
  by_cases hlt : address < m.size <;> simp [write, hlt, eq_comm]

/-- The equation of a write that succeeds: one cell changes. -/
theorem get?_write {m m' : Memory} {address value : Nat} (h : m.write address value = .ok m')
    (other : Nat) :
    m'.get? other =
      if other = address then some (Word.truncate m.wordBits value) else m.get? other := by
  obtain ⟨hlt, rfl⟩ := write_eq_ok_iff.mp h
  simp only [get?, Array.getElem?_setIfInBounds, eq_comm (a := other)]
  split
  · exact if_pos hlt
  · rfl

@[simp] theorem size_zero (size wordBits : Nat) : (zero size wordBits).size = size := by
  simp [zero, Memory.size]

/-- A cleared memory has zero in every cell. -/
theorem get?_zero {size wordBits address : Nat} (h : address < size) :
    (zero size wordBits).get? address = some 0 := by
  simp [zero, get?, h]

/-! ## Contents -/

/-- The words other than zero with their addresses, ascending. -/
def nonzero (m : Memory) : List (Nat × Nat) :=
  (m.words.toList.zipIdx.filter fun entry => entry.1 ≠ 0).map fun entry => (entry.2, entry.1)

end Memory

end FetchExecute
