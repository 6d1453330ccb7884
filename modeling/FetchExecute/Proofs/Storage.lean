import FetchExecute.Effect
import Mathlib.Algebra.Group.Nat.Defs

/-!
# Storage as registers and words

A storage is read here through three total functions, `Storage.value`,
`Storage.width` and `Storage.word`, and changed through two total writes,
`Storage.put` for a register and `Storage.putWord` for a cell of memory.  A
register that the machine lacks has width zero, so it reads as zero after any
write and the equations of `put` need no side condition.

`Storage.Fits` is the shape that a machine of a profile must have: the
registers of the profile in its order, its memory, and every value within the
bits declared for it.  Both writes keep it, and so does every commit, whole or
broken off, of any effect at all: no write leaves out the cut to the width.
-/

namespace FetchExecute

namespace Word

/-- No width exceeds the sixty-four bits of a value, so the bound is at most the power of two. -/
theorem bound_le (width : Nat) : bound width ≤ 2 ^ width :=
  Nat.pow_le_pow_right (by decide) (Nat.min_le_left _ _)

/-- What is kept of a value fits into the width, however wide that is said to be. -/
theorem truncate_lt_two_pow (width value : Nat) : truncate width value < 2 ^ width :=
  Nat.lt_of_lt_of_le (truncate_lt width value) (bound_le width)

/-- Up to sixty-four bits the kept part is the remainder modulo the power of two. -/
theorem truncate_eq_mod {width : Nat} (h : width ≤ maxWidth) (value : Nat) :
    truncate width value = value % 2 ^ width := by
  show value % 2 ^ min width maxWidth = _
  rw [Nat.min_eq_left h]

/-- A value within its width is kept whole. -/
theorem truncate_of_lt_two_pow {width value : Nat} (h : width ≤ maxWidth) (hv : value < 2 ^ width) :
    truncate width value = value := by
  rw [truncate_eq_mod h, Nat.mod_eq_of_lt hv]

/-- Cutting to a wide width first makes no difference to a narrower one. -/
theorem truncate_truncate_of_le {narrow wide : Nat} (h : narrow ≤ wide) (value : Nat) :
    truncate narrow (truncate wide value) = truncate narrow value := by
  refine Nat.mod_mod_of_dvd value (Nat.pow_dvd_pow 2 ?_)
  exact Nat.le_min_of_le_of_le (Nat.le_trans (Nat.min_le_left _ _) h) (Nat.min_le_right _ _)

/-- A width of zero keeps nothing, which is why an absent register reads as zero. -/
theorem truncate_width_zero (value : Nat) : truncate 0 value = 0 := Nat.mod_one value

end Word

/-! ## Layouts -/

namespace RegisterFile

/-- The registers of a file with their widths, in order. -/
def layout (file : RegisterFile) : List (Register × Nat) :=
  file.slots.map fun slot => (slot.register, slot.width)

/-- A cleared file has the registers of its profile. -/
@[simp] theorem layout_zero (p : Profile) : (zero p).layout = p.registers := by
  simp [layout, zero, Function.comp_def]

/-- Writing changes values only. -/
@[simp] theorem layout_set (file : RegisterFile) (r : Register) (value : Nat) :
    (file.set r value).layout = file.layout := by
  obtain ⟨slots⟩ := file
  simp only [layout, set]
  induction slots with
  | nil => rfl
  | cons slot rest ih =>
    rw [setFirst]
    split
    · rfl
    · exact congrArg (_ :: ·) ih

/-- Writing leaves the registers of a file as they are, in their order. -/
@[simp] theorem map_register_set (file : RegisterFile) (r : Register) (value : Nat) :
    (file.set r value).slots.map (·.register) = file.slots.map (·.register) := by
  simpa [layout, Function.comp_def] using congrArg (List.map Prod.fst) (layout_set file r value)

/-- A slot of a written file is an old one, or one with what it keeps of the value. -/
theorem mem_slots_set {file : RegisterFile} {r : Register} {value : Nat} {slot : Slot}
    (h : slot ∈ (file.set r value).slots) :
    slot ∈ file.slots ∨
      ∃ old ∈ file.slots, slot = { old with value := Word.truncate old.width value } := by
  obtain ⟨slots⟩ := file
  simp only [set] at h ⊢
  induction slots with
  | nil => cases h
  | cons first rest ih =>
    rw [setFirst] at h
    split at h
    · rcases List.mem_cons.mp h with rfl | hrest
      · exact .inr ⟨first, List.mem_cons_self, rfl⟩
      · exact .inl (.tail _ hrest)
    · rcases List.mem_cons.mp h with rfl | hrest
      · exact .inl List.mem_cons_self
      · rcases ih hrest with hold | ⟨old, hold, rfl⟩
        · exact .inl (.tail _ hold)
        · exact .inr ⟨old, .tail _ hold, rfl⟩

/-- The width of a register is looked up in the layout. -/
theorem width?_eq_layout (file : RegisterFile) (r : Register) :
    file.width? r = (file.layout.find? fun declared => declared.1 = r).map (·.2) := by
  simp only [width?, slot?, layout, List.find?_map, Option.map_map]
  rfl

theorem contains_eq_isSome_width? (file : RegisterFile) (r : Register) :
    file.contains r = (file.width? r).isSome := by
  simp [contains, width?]

@[simp] theorem contains_set (file : RegisterFile) (r r' : Register) (value : Nat) :
    (file.set r value).contains r' = file.contains r' := by
  rw [contains_eq_isSome_width?, width?_set, ← contains_eq_isSome_width?]

/-- Where no register comes twice, every slot is the one that is found for its register. -/
theorem slot?_of_mem {file : RegisterFile}
    (h : (file.slots.map (·.register)).Nodup) {slot : Slot} (hslot : slot ∈ file.slots) :
    file.slot? slot.register = some slot := by
  obtain ⟨slots⟩ := file
  simp only [slot?] at *
  induction slots with
  | nil => cases hslot
  | cons first rest ih =>
    obtain ⟨hfirst, hrest⟩ := List.nodup_cons.mp h
    rcases List.mem_cons.mp hslot with rfl | hmem
    · simp
    · have hne : first.register ≠ slot.register := by
        intro heq
        exact hfirst (List.mem_map.mpr ⟨slot, hmem, heq.symm⟩)
      simp [hne, ih hrest hmem]

/-- Where no register comes twice, the first slot of a register is the only one. -/
theorem set_eq_map {file : RegisterFile} (h : (file.slots.map (·.register)).Nodup) (r : Register)
    (value : Nat) :
    file.set r value = ⟨file.slots.map fun slot =>
      if slot.register = r then { slot with value := Word.truncate slot.width value }
      else slot⟩ := by
  obtain ⟨slots⟩ := file
  simp only [set, RegisterFile.mk.injEq]
  induction slots with
  | nil => rfl
  | cons first rest ih =>
    obtain ⟨hfirst, hrest⟩ := List.nodup_cons.mp h
    rw [setFirst, List.map_cons]
    split
    · subst r
      have hother : ∀ slot ∈ rest, slot.register ≠ first.register := fun slot hslot heq ↦
        hfirst (List.mem_map.mpr ⟨slot, hslot, heq⟩)
      refine congrArg _ ((List.map_id rest).symm.trans (List.map_congr_left fun slot hslot ↦ ?_))
      exact (if_neg (hother slot hslot)).symm
    · rw [ih hrest]

theorem slot_mem_of_slot? {file : RegisterFile} {r : Register} {slot : Slot}
    (h : file.slot? r = some slot) : slot ∈ file.slots := List.mem_of_find?_eq_some h

end RegisterFile

/-- A profile has the registers for which it declares a width. -/
theorem Profile.hasRegister_eq_isSome_width? (p : Profile) (r : Register) :
    p.hasRegister r = (p.width? r).isSome := by
  rw [Bool.eq_iff_iff, width?, Option.isSome_map, List.find?_isSome, hasRegister, List.any_eq_true]

/-! ## Reading and writing -/

namespace Storage

/-- The value of a register, zero if the machine lacks it. -/
def value (s : Storage) (r : Register) : Nat := (s.registers.get? r).getD 0

/-- The width of a register, zero if the machine lacks it. -/
def width (s : Storage) (r : Register) : Nat := (s.registers.width? r).getD 0

/-- The word at an address, zero outside memory. -/
def word (s : Storage) (address : Nat) : Nat := (s.memory.get? address).getD 0

def put (s : Storage) (r : Register) (value : Nat) : Storage :=
  { s with registers := s.registers.set r value }

def putWord (s : Storage) (address value : Nat) : Storage :=
  { s with memory := { s.memory with
      words := s.memory.words.setIfInBounds address (Word.truncate s.memory.wordBits value) } }

/-- A register that is there reads as its total value. -/
theorem get?_of_contains {s : Storage} {r : Register} (h : s.registers.contains r = true) :
    s.registers.get? r = some (s.value r) := by
  rw [RegisterFile.contains_eq_isSome_get?, Option.isSome_iff_exists] at h
  obtain ⟨v, hv⟩ := h
  simp [value, hv]

theorem width?_of_contains {s : Storage} {r : Register} (h : s.registers.contains r = true) :
    s.registers.width? r = some (s.width r) := by
  rw [RegisterFile.contains_eq_isSome_width?, Option.isSome_iff_exists] at h
  obtain ⟨w, hw⟩ := h
  simp [width, hw]

/-- An address below the size reads as its total word. -/
theorem memory_get?_of_lt {s : Storage} {address : Nat} (h : address < s.memory.size) :
    s.memory.get? address = some (s.word address) := by
  cases hw : s.memory.get? address with
  | none => exact absurd (Memory.get?_eq_none_iff.mp hw) (Nat.not_le_of_lt h)
  | some word => simp [Storage.word, hw]

/-- The equation of a register write: the register keeps what fits, the others their values. -/
@[simp] theorem value_put (s : Storage) (r r' : Register) (v : Nat) :
    (s.put r v).value r' = if r' = r then Word.truncate (s.width r) v else s.value r' := by
  simp only [value, put, width, RegisterFile.get?_set]
  split
  · cases s.registers.width? r with
    | none => exact (Word.truncate_width_zero v).symm
    | some w => rfl
  · rfl

theorem value_put_self (s : Storage) (r : Register) (v : Nat) :
    (s.put r v).value r = Word.truncate (s.width r) v := by
  rw [value_put, if_pos rfl]

theorem value_put_of_ne {r r' : Register} (h : r' ≠ r) (s : Storage) (v : Nat) :
    (s.put r v).value r' = s.value r' := by
  rw [value_put, if_neg h]

@[simp] theorem width_put (s : Storage) (r r' : Register) (v : Nat) :
    (s.put r v).width r' = s.width r' := by
  simp [width, put]

@[simp] theorem contains_put (s : Storage) (r r' : Register) (v : Nat) :
    (s.put r v).registers.contains r' = s.registers.contains r' := by
  simp [put]

@[simp] theorem memory_put (s : Storage) (r : Register) (v : Nat) :
    (s.put r v).memory = s.memory := rfl

@[simp] theorem word_put (s : Storage) (r : Register) (v : Nat) : (s.put r v).word = s.word := rfl

@[simp] theorem registers_putWord (s : Storage) (address v : Nat) :
    (s.putWord address v).registers = s.registers := rfl

@[simp] theorem value_putWord (s : Storage) (address v : Nat) (r : Register) :
    (s.putWord address v).value r = s.value r := rfl

@[simp] theorem width_putWord (s : Storage) (address v : Nat) (r : Register) :
    (s.putWord address v).width r = s.width r := rfl

@[simp] theorem wordBits_putWord (s : Storage) (address v : Nat) :
    (s.putWord address v).memory.wordBits = s.memory.wordBits := rfl

@[simp] theorem size_putWord (s : Storage) (address v : Nat) :
    (s.putWord address v).memory.size = s.memory.size := by
  simp [putWord, Memory.size]

/-- The equation of a memory write: the cell keeps what fits, the others their words. -/
theorem word_putWord {s : Storage} {address : Nat} (h : address < s.memory.size)
    (v address' : Nat) :
    (s.putWord address v).word address' =
      if address' = address then Word.truncate s.memory.wordBits v else s.word address' := by
  have hw : s.memory.write address v = .ok (s.putWord address v).memory :=
    Memory.write_eq_ok_iff.mpr ⟨h, rfl⟩
  simp only [word, Memory.get?_write hw]
  split <;> rfl

/-- The other cells keep their words, also if the address is outside memory. -/
theorem word_putWord_of_ne {s : Storage} {address address' : Nat} (h : address' ≠ address)
    (v : Nat) : (s.putWord address v).word address' = s.word address' := by
  rcases Nat.lt_or_ge address s.memory.size with hin | hout
  · rw [word_putWord hin, if_neg h]
  · simp only [word, putWord, Memory.get?]
    rw [Array.setIfInBounds_eq_of_size_le hout]

/-- Cleared registers and memory. -/
def zero (p : Profile) : Storage := ⟨RegisterFile.zero p, Memory.zero p.memoryWords p.wordBits⟩

/-- Writes registers in order. -/
def putAll (s : Storage) (writes : List (Register × Nat)) : Storage :=
  writes.foldl (fun s entry => s.put entry.1 entry.2) s

@[simp] theorem putAll_nil (s : Storage) : s.putAll [] = s := rfl

@[simp] theorem putAll_cons (s : Storage) (entry : Register × Nat)
    (rest : List (Register × Nat)) :
    s.putAll (entry :: rest) = (s.put entry.1 entry.2).putAll rest := rfl

@[simp] theorem memory_putAll (s : Storage) (writes : List (Register × Nat)) :
    (s.putAll writes).memory = s.memory := by
  induction writes generalizing s with
  | nil => rfl
  | cons entry rest ih => rw [putAll_cons, ih, memory_put]

@[simp] theorem width_putAll (s : Storage) (writes : List (Register × Nat)) (r : Register) :
    (s.putAll writes).width r = s.width r := by
  induction writes generalizing s with
  | nil => rfl
  | cons entry rest ih => rw [putAll_cons, ih, width_put]

@[simp] theorem contains_putAll (s : Storage) (writes : List (Register × Nat)) (r : Register) :
    (s.putAll writes).registers.contains r = s.registers.contains r := by
  induction writes generalizing s with
  | nil => rfl
  | cons entry rest ih => rw [putAll_cons, ih, contains_put]

/-- A register that is not listed keeps its value. -/
theorem value_putAll_of_forall_ne {writes : List (Register × Nat)} {r : Register}
    (h : ∀ entry ∈ writes, entry.1 ≠ r) (s : Storage) :
    (s.putAll writes).value r = s.value r := by
  induction writes generalizing s with
  | nil => rfl
  | cons entry rest ih =>
    rw [putAll_cons, ih (fun e he ↦ h e (by simp [he])),
      value_put_of_ne (h entry (by simp)).symm]

/-- Of several writes to a register, the last one counts. -/
theorem value_putAll_append (s : Storage) (before : List (Register × Nat)) {r : Register}
    (v : Nat) {after : List (Register × Nat)} (h : ∀ entry ∈ after, entry.1 ≠ r) :
    (s.putAll (before ++ (r, v) :: after)).value r = Word.truncate (s.width r) v := by
  have hsplit : s.putAll (before ++ (r, v) :: after) =
      ((s.putAll before).put r v).putAll after := List.foldl_append
  rw [hsplit, value_putAll_of_forall_ne h, value_put_self, width_putAll]

/-- Writes words in order. -/
def putWords (s : Storage) (words : List (Nat × Nat)) : Storage :=
  words.foldl (fun s entry => s.putWord entry.1 entry.2) s

@[simp] theorem putWords_nil (s : Storage) : s.putWords [] = s := rfl

@[simp] theorem putWords_cons (s : Storage) (entry : Nat × Nat) (rest : List (Nat × Nat)) :
    s.putWords (entry :: rest) = (s.putWord entry.1 entry.2).putWords rest := rfl

@[simp] theorem registers_putWords (s : Storage) (words : List (Nat × Nat)) :
    (s.putWords words).registers = s.registers := by
  induction words generalizing s with
  | nil => rfl
  | cons entry rest ih => rw [putWords_cons, ih, registers_putWord]

/-- A cell that is not listed keeps its word. -/
theorem word_putWords_of_forall_ne {words : List (Nat × Nat)} {address : Nat}
    (h : ∀ entry ∈ words, entry.1 ≠ address) (s : Storage) :
    (s.putWords words).word address = s.word address := by
  induction words generalizing s with
  | nil => rfl
  | cons entry rest ih =>
    rw [putWords_cons, ih (fun e he ↦ h e (by simp [he])),
      word_putWord_of_ne (h entry (by simp)).symm]

/-- A cell that is only ever given one value holds it. -/
theorem word_putWords_of_mem {words : List (Nat × Nat)} {address v : Nat}
    (hmem : (address, v) ∈ words) (honly : ∀ entry ∈ words, entry.1 = address → entry.2 = v)
    {s : Storage} (hin : address < s.memory.size) :
    (s.putWords words).word address = Word.truncate s.memory.wordBits v := by
  induction words generalizing s with
  | nil => cases hmem
  | cons entry rest ih =>
    by_cases hlater : ∃ e ∈ rest, e.1 = address
    · obtain ⟨⟨_, v'⟩, he, rfl⟩ := hlater
      obtain rfl : v' = v := honly _ (by simp [he]) rfl
      have honly' := fun e he ↦ honly e (List.mem_cons_of_mem _ he)
      rw [putWords_cons, ih he honly' (by rwa [size_putWord]), wordBits_putWord]
    · have hrest : ∀ e ∈ rest, e.1 ≠ address := fun e he heq ↦ hlater ⟨e, he, heq⟩
      rcases List.mem_cons.mp hmem with rfl | hmem
      · rw [putWords_cons, word_putWords_of_forall_ne hrest, word_putWord hin, if_pos rfl]
      · exact absurd rfl (hrest _ hmem)

/-- Writing registers one after another cannot fail if all of them are there. -/
theorem writeRegisters_of_contains {owner : Architecture} :
    ∀ {writes : List (Register × Nat)} {s : Storage},
      (∀ entry ∈ writes, s.registers.contains entry.1 = true) →
      s.writeRegisters owner writes = (s.putAll writes, .ok ())
  | [], _, _ => rfl
  | entry :: rest, s, h => by
    have hhead : s.registers.write owner entry.1 entry.2 = .ok (s.put entry.1 entry.2).registers :=
      RegisterFile.write_eq_ok_iff.mpr ⟨h entry (by simp), rfl⟩
    have hrest : ∀ e ∈ rest, (s.put entry.1 entry.2).registers.contains e.1 = true := by
      intro e he
      rw [contains_put]
      exact h e (by simp [he])
    simp only [writeRegisters, hhead, putAll_cons]
    exact writeRegisters_of_contains hrest

end Storage

/-! ## Storage that fits a profile -/

/-- The registers of the profile, in its order and each once, its memory, and every value within
the bits declared for it. -/
structure Storage.Fits (p : Profile) (s : Storage) : Prop where
  layout : s.registers.layout = p.registers
  nodup : (s.registers.slots.map (·.register)).Nodup
  value_lt : ∀ slot ∈ s.registers.slots, slot.value < 2 ^ slot.width
  wordBits : s.memory.wordBits = p.wordBits
  size : s.memory.size = p.memoryWords
  word_lt : ∀ word ∈ s.memory.words, word < 2 ^ p.wordBits

namespace Storage.Fits

variable {p : Profile} {s : Storage}

/-- In a machine of a profile a register has the width that the profile declares. -/
theorem width?_eq (h : s.Fits p) (r : Register) : s.registers.width? r = p.width? r := by
  rw [RegisterFile.width?_eq_layout, h.layout]
  rfl

/-- A machine of a profile has just the registers of the profile. -/
theorem contains_eq (h : s.Fits p) (r : Register) :
    s.registers.contains r = p.hasRegister r := by
  rw [RegisterFile.contains_eq_isSome_width?, h.width?_eq, Profile.hasRegister_eq_isSome_width?]

theorem width_eq (h : s.Fits p) (r : Register) : s.width r = (p.width? r).getD 0 := by
  rw [Storage.width, h.width?_eq]

/-- No register exceeds its width. -/
theorem value_lt_width (h : s.Fits p) (r : Register) : s.value r < 2 ^ s.width r := by
  cases hs : s.registers.slot? r with
  | none => simp [value, width, RegisterFile.get?, RegisterFile.width?, hs]
  | some slot =>
    simpa [value, width, RegisterFile.get?, RegisterFile.width?, hs] using
      h.value_lt slot (RegisterFile.slot_mem_of_slot? hs)

/-- No word exceeds the word size of the profile. -/
theorem word_lt_bits (h : s.Fits p) (address : Nat) : s.word address < 2 ^ p.wordBits := by
  cases hw : s.memory.get? address with
  | none =>
    rw [Storage.word, hw]
    exact Nat.two_pow_pos _
  | some word =>
    rw [Storage.word, hw]
    exact h.word_lt word (Array.mem_of_getElem? hw)

/-! ### Writes -/

/-- A register write keeps the shape, since it cuts the value to the width. -/
theorem put (h : s.Fits p) (r : Register) (v : Nat) : (s.put r v).Fits p where
  layout := by rw [Storage.put, RegisterFile.layout_set, h.layout]
  nodup := by
    rw [Storage.put, RegisterFile.map_register_set]
    exact h.nodup
  value_lt := by
    intro slot hslot
    rcases RegisterFile.mem_slots_set hslot with hold | ⟨old, hold, rfl⟩
    · exact h.value_lt slot hold
    · exact Word.truncate_lt_two_pow _ _
  wordBits := h.wordBits
  size := h.size
  word_lt := h.word_lt

theorem putWord (h : s.Fits p) (address v : Nat) : (s.putWord address v).Fits p where
  layout := h.layout
  nodup := h.nodup
  value_lt := h.value_lt
  wordBits := h.wordBits
  size := by rw [size_putWord, h.size]
  word_lt := by
    intro word hword
    rcases Array.mem_or_eq_of_mem_setIfInBounds hword with hold | rfl
    · exact h.word_lt word hold
    · rw [← h.wordBits]
      exact Word.truncate_lt_two_pow _ _

theorem putAll (h : s.Fits p) (writes : List (Register × Nat)) : (s.putAll writes).Fits p := by
  induction writes generalizing s with
  | nil => exact h
  | cons entry rest ih => exact ih (h.put entry.1 entry.2)

theorem putWords (h : s.Fits p) (words : List (Nat × Nat)) : (s.putWords words).Fits p := by
  induction words generalizing s with
  | nil => exact h
  | cons entry rest ih => exact ih (h.putWord entry.1 entry.2)

/-- The cleared storage has the shape of its profile. -/
theorem zero (hp : (p.registers.map (·.1)).Nodup) : (Storage.zero p).Fits p where
  layout := RegisterFile.layout_zero p
  nodup := by simpa [Storage.zero, RegisterFile.zero, Function.comp_def] using hp
  value_lt := by
    intro slot hslot
    obtain ⟨declared, -, rfl⟩ := List.mem_map.mp hslot
    exact Nat.two_pow_pos _
  wordBits := rfl
  size := Memory.size_zero _ _
  word_lt := by
    intro word hword
    rw [(Array.mem_replicate.mp hword).2]
    exact Nat.two_pow_pos _

end Storage.Fits

/-! ## Storages that agree -/

/-- The same memory, and the same registers but for values outside `known`. -/
structure Storage.Agrees (known : List Register) (s s' : Storage) : Prop where
  memory : s.memory = s'.memory
  layout : s.registers.layout = s'.registers.layout
  value : ∀ r ∈ known, s.value r = s'.value r

namespace Storage.Agrees

variable {known : List Register} {s s' : Storage}

/-- Agreement on registers is agreement on any fewer of them. -/
theorem mono (h : s.Agrees known s') {fewer : List Register} (hsub : fewer ⊆ known) :
    s.Agrees fewer s' := ⟨h.memory, h.layout, fun r hr ↦ h.value r (hsub hr)⟩

/-- Widths agree also on registers that are not known, for they come with the layout. -/
theorem width? (h : s.Agrees known s') (r : Register) :
    s.registers.width? r = s'.registers.width? r := by
  rw [RegisterFile.width?_eq_layout, RegisterFile.width?_eq_layout, h.layout]

theorem width (h : s.Agrees known s') (r : Register) : s.width r = s'.width r := by
  rw [Storage.width, Storage.width, h.width? r]

theorem contains (h : s.Agrees known s') (r : Register) :
    s.registers.contains r = s'.registers.contains r := by
  rw [RegisterFile.contains_eq_isSome_width?, RegisterFile.contains_eq_isSome_width?, h.width? r]

/-- Agreement includes all of memory. -/
theorem word (h : s.Agrees known s') (address : Nat) : s.word address = s'.word address := by
  rw [Storage.word, Storage.word, h.memory]

/-- A known register reads the same on both sides. -/
theorem get? (h : s.Agrees known s') {r : Register} (hr : r ∈ known) :
    s.registers.get? r = s'.registers.get? r := by
  cases hc : s.registers.contains r with
  | true =>
    rw [get?_of_contains hc, get?_of_contains (h.contains r ▸ hc), h.value r hr]
  | false =>
    have hc' : s'.registers.contains r = false := h.contains r ▸ hc
    rw [RegisterFile.contains_eq_isSome_get?, Option.isSome_eq_false_iff, Option.isNone_iff_eq_none]
      at hc hc'
    rw [hc, hc']

/-- The same write makes one more register known. -/
theorem put (h : s.Agrees known s') (r : Register) (v : Nat) :
    (s.put r v).Agrees (known ++ [r]) (s'.put r v) where
  memory := h.memory
  layout := by
    rw [Storage.put, Storage.put, RegisterFile.layout_set, RegisterFile.layout_set, h.layout]
  value := by
    intro r' hr'
    rw [value_put, value_put, h.width r]
    split
    · rfl
    · rcases List.mem_append.mp hr' with hold | hnew
      · exact h.value r' hold
      · exact absurd (List.mem_singleton.mp hnew) ‹_›

/-- All that is written on both sides is known from then on. -/
theorem putAll (h : s.Agrees known s') (writes : List (Register × Nat)) :
    (s.putAll writes).Agrees (known ++ writes.map (·.1)) (s'.putAll writes) := by
  induction writes generalizing s s' known with
  | nil => simpa using h
  | cons entry rest ih => simpa using ih (h.put entry.1 entry.2)

theorem putWord (h : s.Agrees known s') (address v : Nat) :
    (s.putWord address v).Agrees known (s'.putWord address v) where
  memory := by rw [Storage.putWord, Storage.putWord, h.memory]
  layout := h.layout
  value := h.value

theorem putWords (h : s.Agrees known s') (words : List (Nat × Nat)) :
    (s.putWords words).Agrees known (s'.putWords words) := by
  induction words generalizing s s' with
  | nil => exact h
  | cons entry rest ih => exact ih (h.putWord entry.1 entry.2)

end Storage.Agrees

end FetchExecute
