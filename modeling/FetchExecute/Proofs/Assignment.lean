import FetchExecute.Proofs.Operands

/-!
# Micro-steps as simultaneous assignments

A step is computed and committed in two phases, and a commit writes one place
after the other.  What comes of it is nevertheless one assignment to all places at
once, whose right-hand sides are read in the storage before the step:

| operation | assigns |
|---|---|
| `copy`, `increment`, `loadHalf`, `extractAddress` | the target |
| `readMemory` | the target, from the word at the address |
| `writeMemory` | the word at the address |
| `combine` | the target and then the second destination, from one result |
| `observe`, `decode`, `signal` | nothing |

`MicroOp.assignment` is that table, and `MicroOp.perform_eq_assign` says that it is
right, whichever registers coincide, on every register file that is
`RegisterFile.Bounded`.
-/

namespace FetchExecute

/-- A value of sixty-four bits is cut to the remainder, however wide the cell is. -/
theorem Word.truncate_eq_mod_of_lt {width value : Nat} (h : value < 2 ^ maxWidth) :
    truncate width value = value % 2 ^ width := by
  rcases Nat.le_total width maxWidth with hle | hle
  · exact truncate_eq_mod hle value
  · have hwide : value < 2 ^ width := Nat.lt_of_lt_of_le h (Nat.pow_le_pow_right (by decide) hle)
    have hbound : value < bound width := by
      rwa [bound, Nat.min_eq_right hle]
    rw [truncate_of_lt hbound, Nat.mod_eq_of_lt hwide]

/-! ## Assignments -/

/-- New values for some registers and some words of memory. -/
structure Assignment where
  register : Register → Option Nat := fun _ => none
  word : Nat → Option Nat := fun _ => none

namespace Assignment

/-- A value for one place only. -/
def only {α : Type} [DecidableEq α] (place : α) (v : Nat) : α → Option Nat :=
  fun x => if x = place then some v else none

end Assignment

open Assignment

def RegisterFile.assign (file : RegisterFile) (f : Register → Option Nat) : RegisterFile :=
  ⟨file.slots.map fun slot => { slot with value := (f slot.register).getD slot.value }⟩

def Memory.assign (m : Memory) (f : Nat → Option Nat) : Memory :=
  { m with words := m.words.mapIdx fun address word => (f address).getD word }

/-- Places without a new value keep the one they have. -/
def Storage.assign (s : Storage) (a : Assignment) : Storage :=
  ⟨s.registers.assign a.register, s.memory.assign a.word⟩

namespace RegisterFile

variable {file : RegisterFile}

/-- An assigned register reads as its new value, any other as before. -/
theorem get?_assign (file : RegisterFile) (f : Register → Option Nat) (r : Register) :
    (file.assign f).get? r = (file.get? r).map (f r).getD := by
  have hslot : (file.assign f).slot? r =
      (file.slot? r).map fun slot => { slot with value := (f slot.register).getD slot.value } := by
    simp only [slot?, assign, List.find?_map]
    rfl
  rw [get?, hslot, get?]
  cases h : file.slot? r with
  | none => rfl
  | some slot =>
    obtain rfl : slot.register = r := by simpa using List.find?_some h
    rfl

@[simp] theorem assign_none (file : RegisterFile) : file.assign (fun _ => none) = file := by
  simp [assign]

/-- Of two assignments in a row, the second one comes first at each register. -/
theorem assign_assign (file : RegisterFile) (f g : Register → Option Nat) :
    (file.assign f).assign g = file.assign fun r => (g r).or (f r) := by
  simp only [assign, List.map_map]
  congr 2
  funext slot
  cases hg : g slot.register <;> simp [hg]

end RegisterFile

namespace Memory

@[simp] theorem assign_none (m : Memory) : m.assign (fun _ => none) = m := by
  have hwords : m.words.mapIdx (fun _ word => word) = m.words := by
    apply Array.ext <;> simp
  simp [assign, hwords]

/-- An assigned cell reads as its new word, any other as before. -/
theorem get?_assign (m : Memory) (f : Nat → Option Nat) (address : Nat) :
    (m.assign f).get? address = (m.get? address).map (f address).getD := by
  simp [assign, get?]

end Memory

/-! ## Register files as machines have them -/

/-- No register twice, none wider than a cell, and no value wider than its register. -/
structure RegisterFile.Bounded (file : RegisterFile) : Prop where
  nodup : (file.slots.map (·.register)).Nodup
  width_le : ∀ slot ∈ file.slots, slot.width ≤ Word.maxWidth
  value_lt : ∀ slot ∈ file.slots, slot.value < 2 ^ slot.width

/-- Where no register comes twice, writing one is an assignment to it. -/
theorem RegisterFile.set_eq_assign {file : RegisterFile}
    (h : (file.slots.map (·.register)).Nodup) (r : Register) (v : Nat) :
    file.set r v = file.assign (only r (Word.truncate ((file.width? r).getD 0) v)) := by
  rw [set_eq_map h, assign]
  congr 1
  apply List.map_congr_left
  intro slot hslot
  by_cases hr : slot.register = r
  · subst hr
    simp [only, width?, slot?_of_mem h hslot]
  · simp [only, hr]

namespace Storage

variable {s : Storage}

/-- A register write is an assignment to one register, if no register comes twice. -/
theorem put_eq_assign (h : (s.registers.slots.map (·.register)).Nodup) (r : Register) (v : Nat) :
    s.put r v = s.assign { register := only r (Word.truncate (s.width r) v) } := by
  simp only [put, assign, Memory.assign_none, RegisterFile.set_eq_assign h]
  rfl

theorem putWord_eq_assign (s : Storage) (address v : Nat) :
    s.putWord address v =
      s.assign { word := only address (Word.truncate s.memory.wordBits v) } := by
  have hwords : s.memory.words.setIfInBounds address (Word.truncate s.memory.wordBits v) =
      s.memory.words.mapIdx fun i word =>
        (only address (Word.truncate s.memory.wordBits v) i).getD word := by
    apply Array.ext
    · simp
    · intro i hi hi'
      by_cases heq : i = address
      · subst heq
        simp [only]
      · rw [Array.getElem_setIfInBounds_ne (by simpa using hi) (Ne.symm heq)]
        simp [only, heq]
  simp only [putWord, assign, RegisterFile.assign_none, Memory.assign, hwords]

@[simp] theorem assign_nothing (s : Storage) : s.assign {} = s := by
  simp [assign]

end Storage

/-! ## What a step assigns -/

/-- The values that an operation gives to registers and words, from the storage before it. -/
def MicroOp.assignment (p : Profile) (s : Storage) : MicroOp → Assignment
  | .copy source target => { register := only target (s.value source % 2 ^ s.width target) }
  | .increment r => { register := only r ((s.value r + 1) % 2 ^ s.width r) }
  | .readMemory address target =>
    { register := only target (s.word (s.value address) % 2 ^ s.width target) }
  | .writeMemory address source =>
    { word := only (s.value address) (s.value source % 2 ^ s.memory.wordBits) }
  | .loadHalf half source target =>
    { register :=
        only target (p.layout.instruction (s.value source) half % 2 ^ s.width target) }
  | .extractAddress source mask target =>
    { register := only target ((s.value source &&& mask) % 2 ^ s.width target) }
  | .combine op left right target second =>
    match Alu.combine (s.task p.splitPolicy op left right target second) with
    | .ok result =>
      { register := fun r =>
          if op.secondTarget second = some r then result.secondary
          else only target result.primary r }
    | .error _ => {}
  | .observe _ | .decode _ | .signal _ => {}

section

variable {p : Profile} {s : Storage} {op : MicroOp} (hs : s.registers.Bounded)
include hs

/-- Registers that are absent included, no width exceeds sixty-four bits. -/
theorem RegisterFile.Bounded.width_le_maxWidth (r : Register) : s.width r ≤ Word.maxWidth := by
  cases hslot : s.registers.slot? r with
  | none => simp [Storage.width, RegisterFile.width?, hslot]
  | some slot =>
    simpa [Storage.width, RegisterFile.width?, hslot] using
      hs.width_le slot (RegisterFile.slot_mem_of_slot? hslot)

theorem RegisterFile.Bounded.value_lt_maxWidth (r : Register) :
    s.value r < 2 ^ Word.maxWidth := by
  cases hslot : s.registers.slot? r with
  | none =>
    rw [Storage.value, RegisterFile.get?, hslot]
    exact Nat.two_pow_pos _
  | some slot =>
    have hmem := RegisterFile.slot_mem_of_slot? hslot
    have hlt : slot.value < 2 ^ Word.maxWidth := Nat.lt_of_lt_of_le (hs.value_lt slot hmem)
      (Nat.pow_le_pow_right (by decide) (hs.width_le slot hmem))
    simpa [Storage.value, RegisterFile.get?, hslot] using hlt

/-- A register that is given what it has room for is assigned the value modulo its width. -/
theorem Storage.put_truncate_eq_assign (r : Register) (v : Nat) :
    s.put r (Word.truncate (s.width r) v) =
      s.assign { register := only r (v % 2 ^ s.width r) } := by
  rw [put_eq_assign hs.nodup, Word.truncate_truncate, Word.truncate_eq_mod (hs.width_le_maxWidth r)]

/-- Words may be wider than cells, as the values written to them are not. -/
theorem Storage.putWord_truncate_eq_assign (address : Nat) (source : Register) :
    s.putWord address (Word.truncate s.memory.wordBits (s.value source)) =
      s.assign { word := only address (s.value source % 2 ^ s.memory.wordBits) } := by
  rw [putWord_eq_assign, Word.truncate_truncate,
    Word.truncate_eq_mod_of_lt (hs.value_lt_maxWidth source)]

/-- Two writes in a row are one assignment, in which the second one has precedence. -/
theorem Storage.put_put_eq_assign {r r' : Register} {v v' : Nat}
    (hv : Word.truncate (s.width r) v = v) (hv' : Word.truncate (s.width r') v' = v') :
    (s.put r v).put r' v' =
      s.assign { register := fun x => if r' = x then some v' else only r v x } := by
  have hnodup : ((s.put r v).registers.slots.map (·.register)).Nodup := by
    rw [put, RegisterFile.map_register_set]
    exact hs.nodup
  rw [put_eq_assign hnodup, width_put, hv', put_eq_assign hs.nodup, hv]
  simp only [assign, RegisterFile.assign_assign, Memory.assign_none]
  congr 2
  funext x
  by_cases hx : r' = x <;> simp [only, hx, eq_comm]

/-- The two results of a combining step are assigned at once, the second one last. -/
theorem MicroOp.perform_combine_eq_assign (aluOp : AluOp) (left right target : Register)
    (second : Option Register) (hdiv : aluOp = .div → s.value right ≠ 0) :
    (combine aluOp left right target second).perform p s =
      s.assign ((combine aluOp left right target second).assignment p s) := by
  generalize ht : s.task p.splitPolicy aluOp left right target second = t
  have hcombine : Alu.combine t = .ok (Alu.outcome t) := by
    subst ht
    exact Alu.combine_eq_ok hdiv
  have hprimary : Word.truncate (s.width target) (Alu.outcome t).primary =
      (Alu.outcome t).primary := by
    subst ht
    exact Alu.truncate_primary _
  cases hsecond : aluOp.secondTarget second with
  | none =>
    have hperform : (combine aluOp left right target second).perform p s =
        s.put target (Alu.outcome t).primary := by
      simp [perform, memoryWrite?, transfers, hsecond, ht]
    rw [hperform, Storage.put_eq_assign hs.nodup, hprimary]
    simp [assignment, ht, hcombine, hsecond]
  | some low =>
    have hwidth : t.secondaryWidth = some (s.width low) := by
      simp [← ht, Storage.task, hsecond]
    have hsome : (Alu.outcome t).secondary.isSome = true := by
      rw [Alu.isSome_secondary, hwidth, ← ht]
      cases hsplits : aluOp.splits with
      | false => simp [AluOp.secondTarget, hsplits] at hsecond
      | true => simp [Storage.task, hsplits]
    obtain ⟨v, hv⟩ := Option.isSome_iff_exists.mp hsome
    have hperform : (combine aluOp left right target second).perform p s =
        (s.put target (Alu.outcome t).primary).put low v := by
      simp [perform, memoryWrite?, transfers, hsecond, ht, hv]
    rw [hperform, Storage.put_put_eq_assign hs hprimary (Alu.truncate_secondary hwidth hv)]
    simp [assignment, ht, hcombine, hsecond, hv]

/-- Whatever an operation performs, it performs at once. -/
theorem MicroOp.perform_eq_assign (hhazard : op.hazard? s = none) :
    op.perform p s = s.assign (op.assignment p s) := by
  cases op with
  | copy source target => exact Storage.put_truncate_eq_assign hs target _
  | increment r => exact Storage.put_truncate_eq_assign hs r _
  | readMemory address target => exact Storage.put_truncate_eq_assign hs target _
  | writeMemory address source => exact Storage.putWord_truncate_eq_assign hs _ source
  | loadHalf half source target => exact Storage.put_truncate_eq_assign hs target _
  | extractAddress source mask target => exact Storage.put_truncate_eq_assign hs target _
  | combine aluOp left right target second =>
    refine perform_combine_eq_assign hs aluOp left right target second ?_
    rintro rfl
    simpa [hazard?] using hhazard
  | observe r => exact s.assign_nothing.symm
  | decode r => exact s.assign_nothing.symm
  | signal op => exact s.assign_nothing.symm

end

namespace MicroOp

variable {p : Profile} {s : Storage} {op : MicroOp}

/-- An operation assigns nothing to registers that it does not write. -/
theorem assignment_register_of_not_mem {r : Register} (h : r ∉ op.writes) :
    (op.assignment p s).register r = none := by
  cases op with
  | combine aluOp left right target second =>
    rw [writes_combine, List.mem_cons, Option.mem_toList, not_or] at h
    obtain ⟨htarget, hsecond⟩ := h
    rw [assignment]
    cases Alu.combine (s.task p.splitPolicy aluOp left right target second) with
    | error fault => rfl
    | ok result => simp [only, htarget, hsecond]
  | observe _ => rfl
  | writeMemory _ _ => rfl
  | decode _ => rfl
  | signal _ => rfl
  | _ =>
    have hne := mt List.mem_singleton.mpr h
    simp [assignment, only, hne]

theorem assignment_word_of_ne {address : Nat} (h : (op.memoryWrite? s).map (·.1) ≠ some address) :
    (op.assignment p s).word address = none := by
  cases op with
  | writeMemory register source =>
    have hne : s.value register ≠ address := by simpa [memoryWrite?] using h
    simp [assignment, only, hne.symm]
  | combine aluOp left right target second =>
    rw [assignment]
    cases Alu.combine (s.task p.splitPolicy aluOp left right target second) <;> rfl
  | _ => rfl

end MicroOp

/-- What is committed of a step is the simultaneous assignment that the step stands for, whichever
of its registers coincide.  Registers that it does not write and words that it does not address
stay as they are. -/
theorem micro_step_assigns_simultaneously {p : Profile} {s : Storage} {step : MicroStep}
    {e : Effect} (hs : s.registers.Bounded) (he : step.effect p s = .ok e)
    (owner : Architecture) :
    ∃ s', e.commit owner s = (s', .ok ()) ∧ s' = s.assign (step.op.assignment p s) ∧
      (∀ r ∉ step.writes, s'.registers.get? r = s.registers.get? r) ∧
      ∀ address, e.memoryWrite.map (·.1) ≠ some address →
        s'.memory.get? address = s.memory.get? address := by
  obtain ⟨hhazard, -, hmemory, hcommit⟩ := MicroStep.effect_spec he
  refine ⟨_, hcommit owner, MicroOp.perform_eq_assign hs hhazard, ?_, ?_⟩
  · intro r hr
    rw [MicroOp.perform_eq_assign hs hhazard, Storage.assign, RegisterFile.get?_assign,
      MicroOp.assignment_register_of_not_mem hr]
    exact Option.map_id'
  · intro address haddress
    rw [hmemory] at haddress
    rw [MicroOp.perform_eq_assign hs hhazard, Storage.assign, Memory.get?_assign,
      MicroOp.assignment_word_of_ne haddress]
    exact Option.map_id'

/-! ## Storage of a registered profile -/

theorem Storage.Fits.bounded {p : Profile} {s : Storage} (h : s.Fits p) (hp : p.Registered) :
    s.registers.Bounded where
  nodup := h.nodup
  width_le := by
    intro slot hslot
    have hmem : (slot.register, slot.width) ∈ p.registers := by
      rw [← h.layout]
      exact List.mem_map_of_mem hslot
    exact hp.width_le _ hmem
  value_lt := h.value_lt

/-- Multiplies crosswise: each operand is replaced by one half of the product. -/
def MicroStep.multiplyCrosswise : MicroStep := .execute (.combine .mul .ac .mq .mq (some .ac))

/-- Operands whose product is one bit too long for one of them. -/
def Storage.crosswise : Storage := ((Storage.zero .ias).put .ac (2 ^ 39 + 1)).put .mq 6

theorem multiplyCrosswise_assigns :
    ∃ e s, MicroStep.multiplyCrosswise.effect (Profile.ias.withSplit .faithful) .crosswise = .ok e ∧
      e.commit .ias .crosswise = (s, .ok ()) ∧
      s = Storage.crosswise.assign
        (MicroStep.multiplyCrosswise.op.assignment (Profile.ias.withSplit .faithful) .crosswise) ∧
      s.value .mq = 3 ∧ s.value .ac = 6 ∧
      s.registers.get? .mbr = Storage.crosswise.registers.get? .mbr := by
  have hp : Profile.ias.Registered := ⟨.ias, .simplified, rfl⟩
  have hfits : Storage.crosswise.Fits .ias := ((Storage.Fits.zero hp.nodup).put _ _).put _ _
  have hexecutable : MicroStep.multiplyCrosswise.Executable .crosswise :=
    ⟨by decide, nofun, nofun⟩
  obtain ⟨e, he⟩ := (MicroStep.exists_effect_iff
    (p := Profile.ias.withSplit .faithful)).mpr hexecutable
  obtain ⟨s, hs, hassign, hregisters, -⟩ :=
    micro_step_assigns_simultaneously (hfits.bounded hp) he .ias
  refine ⟨e, s, he, hs, hassign, ?_, ?_, hregisters .mbr (by decide)⟩
  · rw [hassign]
    decide +kernel
  · rw [hassign]
    decide +kernel

end FetchExecute
