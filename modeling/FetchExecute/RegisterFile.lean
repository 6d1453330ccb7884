import FetchExecute.Fault
import FetchExecute.Word

/-!
# Register files

The registers of one machine with their widths and values. A register keeps the
low bits of what is written to it, as many as it is wide. A register that the
machine lacks can be neither read nor written; the fault says which machine
asked for it.
-/

namespace FetchExecute

structure Slot where
  register : Register
  width : Nat
  value : Nat
deriving DecidableEq, Repr

structure RegisterFile where
  slots : List Slot
deriving DecidableEq, Repr

namespace RegisterFile

/-- The registers of a profile, all zero. -/
def zero (p : Profile) : RegisterFile :=
  ⟨p.registers.map fun declared => ⟨declared.1, declared.2, 0⟩⟩

def slot? (file : RegisterFile) (r : Register) : Option Slot :=
  file.slots.find? fun slot => slot.register = r

def get? (file : RegisterFile) (r : Register) : Option Nat := (file.slot? r).map (·.value)

def width? (file : RegisterFile) (r : Register) : Option Nat := (file.slot? r).map (·.width)

def contains (file : RegisterFile) (r : Register) : Bool := (file.slot? r).isSome

/-- The slots, the first one of the register with what it keeps of a value. -/
def setFirst (r : Register) (value : Nat) : List Slot → List Slot
  | [] => []
  | slot :: rest =>
    if slot.register = r then { slot with value := Word.truncate slot.width value } :: rest
    else slot :: setFirst r value rest

/-- Writes a register that the file has, and leaves the file as it is otherwise. -/
def set (file : RegisterFile) (r : Register) (value : Nat) : RegisterFile :=
  ⟨setFirst r value file.slots⟩

theorem contains_eq_isSome_get? (file : RegisterFile) (r : Register) :
    file.contains r = (file.get? r).isSome := by
  simp [contains, get?]

/-- A written register keeps its low bits; every other register keeps its value. -/
theorem slot?_set (file : RegisterFile) (r r' : Register) (value : Nat) :
    (file.set r value).slot? r' = (file.slot? r').map fun slot =>
      if r' = r then { slot with value := Word.truncate slot.width value } else slot := by
  obtain ⟨slots⟩ := file
  simp only [slot?, set]
  induction slots with
  | nil => rfl
  | cons slot rest ih =>
    by_cases hr : slot.register = r
    · -- the first slot of the register is this one, and the rest stays as it is
      subst hr
      by_cases h : slot.register = r'
      · simp [setFirst, h]
      · have hne : ¬ r' = slot.register := fun heq ↦ h heq.symm
        simp [setFirst, h, hne]
    · by_cases h : slot.register = r'
      · have hne : ¬ r' = r := fun heq ↦ hr (h.trans heq)
        simp [setFirst, h, hne]
      · simpa [setFirst, hr, h] using ih

/-- The equation of a write: the register keeps what fits, if it is there, and the others their
values. -/
theorem get?_set (file : RegisterFile) (r r' : Register) (value : Nat) :
    (file.set r value).get? r' =
      if r' = r then (file.width? r).map (Word.truncate · value) else file.get? r' := by
  simp only [get?, width?, slot?_set, Option.map_map]
  split
  · subst r'
    rfl
  · rfl

/-- Of two values written one after the other, the first leaves no trace. -/
theorem set_set (file : RegisterFile) (r : Register) (v w : Nat) :
    (file.set r v).set r w = file.set r w := by
  obtain ⟨slots⟩ := file
  simp only [set, RegisterFile.mk.injEq]
  induction slots with
  | nil => rfl
  | cons slot rest ih => by_cases h : slot.register = r <;> simp [setFirst, h, ih]

/-- Writes to two registers can trade places. -/
theorem set_comm (file : RegisterFile) {r r' : Register} (h : r ≠ r') (v w : Nat) :
    (file.set r v).set r' w = (file.set r' w).set r v := by
  obtain ⟨slots⟩ := file
  simp only [set, RegisterFile.mk.injEq]
  induction slots with
  | nil => rfl
  | cons slot rest ih =>
    by_cases hr : slot.register = r
    · simp [setFirst, hr, h]
    · by_cases hr' : slot.register = r'
      · simp [setFirst, hr', h.symm]
      · simp [setFirst, hr, hr', ih]

/-- Writing leaves all widths as they are. -/
@[simp] theorem width?_set (file : RegisterFile) (r r' : Register) (value : Nat) :
    (file.set r value).width? r' = file.width? r' := by
  simp only [width?, slot?_set, Option.map_map]
  congr 1
  funext slot
  simp only [Function.comp]
  split <;> rfl

/-- A cleared file has the widths that the profile declares. -/
theorem width?_zero (p : Profile) (r : Register) : (zero p).width? r = p.width? r := by
  simp only [width?, slot?, zero, Profile.width?, List.find?_map, Option.map_map]
  rfl

/-! ## Access on behalf of a machine -/

def read (file : RegisterFile) (owner : Architecture) (r : Register) : Except Fault Nat :=
  match file.get? r with
  | some value => .ok value
  | none => .error (.registerAbsent r owner)

def widthOf (file : RegisterFile) (owner : Architecture) (r : Register) : Except Fault Nat :=
  match file.width? r with
  | some width => .ok width
  | none => .error (.registerAbsent r owner)

def write (file : RegisterFile) (owner : Architecture) (r : Register) (value : Nat) :
    Except Fault RegisterFile :=
  if file.contains r then .ok (file.set r value) else .error (.registerAbsent r owner)

/-- Writes, and answers with what the register keeps. -/
def store (file : RegisterFile) (owner : Architecture) (r : Register) (value : Nat) :
    RegisterFile × Except Fault Nat :=
  match file.write owner r value with
  | .ok file' => (file', (file.widthOf owner r).map (Word.truncate · value))
  | .error fault => (file, .error fault)

theorem read_eq_ok_iff {file : RegisterFile} {owner : Architecture} {r : Register} {value : Nat} :
    file.read owner r = .ok value ↔ file.get? r = some value := by
  cases h : file.get? r <;> simp [read, h]

theorem widthOf_eq_ok_iff {file : RegisterFile} {owner : Architecture} {r : Register}
    {width : Nat} : file.widthOf owner r = .ok width ↔ file.width? r = some width := by
  cases h : file.width? r <;> simp [widthOf, h]

/-- A write on behalf of a machine fails only if the register is absent. -/
theorem write_eq_ok_iff {file file' : RegisterFile} {owner : Architecture} {r : Register}
    {value : Nat} :
    file.write owner r value = .ok file' ↔ file.contains r = true ∧ file' = file.set r value := by
  by_cases h : file.contains r = true <;> simp [write, h, eq_comm]

end RegisterFile

end FetchExecute
