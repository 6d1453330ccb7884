import FetchExecute.Proofs.Arithmetic
import FetchExecute.Proofs.Faults

/-!
# Operands

What validation knows of a step are two lists, the registers that it reads and
the registers that it writes.  Here they are compared with what executing the
step really uses, on any register file and any memory, whatever the profile:

* a step is executed exactly where it is `MicroStep.Executable`: the registers of
  both lists are there, its address lies in memory, and its divisor is not zero
  (`MicroStep.exists_effect_iff`);
* it writes the registers of the second list, in that order, and nothing that a
  register would have to cut (`MicroOp.truncate_of_mem_transfers`), so a commit
  stores what the effect lists (`MicroStep.stored_of_effect`);
* of the values in the file it uses those of the first list only
  (`MicroStep.effect_congr`).
-/

namespace FetchExecute

/-! ## A step that succeeds has its registers -/

/-- Only a computation that succeeds can be gone on with. -/
theorem exists_of_bind_eq_ok {α β : Type} {x : Except Fault α} {f : α → Except Fault β} {b : β}
    (h : x >>= f = .ok b) : ∃ a, x = .ok a ∧ f a = .ok b := by
  cases x with
  | error fault => cases h
  | ok a => exact ⟨a, rfl, h⟩

namespace Context

variable {c : Context} {r : Register} {v : Nat}

theorem contains_of_read (h : c.read r = .ok v) : c.storage.registers.contains r = true := by
  rw [RegisterFile.contains_eq_isSome_get?, RegisterFile.read_eq_ok_iff.mp h]
  rfl

theorem contains_of_width (h : c.width r = .ok v) : c.storage.registers.contains r = true := by
  rw [RegisterFile.contains_eq_isSome_width?, RegisterFile.widthOf_eq_ok_iff.mp h]
  rfl

theorem contains_of_fit {value : Nat} (h : c.fit r value = .ok v) :
    c.storage.registers.contains r = true := by
  obtain ⟨width, hwidth, -⟩ := exists_of_bind_eq_ok h
  exact contains_of_width hwidth

theorem contains_of_widthIfAny {second : Option Register} {width : Option Nat}
    (h : c.widthIfAny second = .ok width) :
    ∀ r ∈ second.toList, c.storage.registers.contains r = true := by
  cases second with
  | none => exact nofun
  | some low =>
    cases hwidth : c.width low with
    | error fault =>
      rw [widthIfAny, hwidth] at h
      cases h
    | ok width =>
      intro r hr
      obtain rfl : r = low := by simpa using hr
      exact contains_of_width hwidth

end Context

namespace MicroOp

/-- An operation that has an effect has all of its registers. -/
theorem present_of_effect {c : Context} {op : MicroOp} {e : Effect} (h : op.effect c = .ok e) :
    op.Present c.storage := by
  -- every computation that has been gone on with shows one more register to be there
  cases op with
  | observe r =>
    obtain ⟨value, hread, -⟩ := exists_of_bind_eq_ok h
    simp [Present, reads, writes, Context.contains_of_read hread]
  | copy source target =>
    obtain ⟨value, hread, h⟩ := exists_of_bind_eq_ok h
    obtain ⟨kept, hfit, -⟩ := exists_of_bind_eq_ok h
    simp [Present, reads, writes, Context.contains_of_read hread, Context.contains_of_fit hfit]
  | readMemory address target =>
    obtain ⟨location, hread, h⟩ := exists_of_bind_eq_ok h
    obtain ⟨word, -, h⟩ := exists_of_bind_eq_ok h
    obtain ⟨value, hfit, -⟩ := exists_of_bind_eq_ok h
    simp [Present, reads, writes, Context.contains_of_read hread, Context.contains_of_fit hfit]
  | writeMemory address source =>
    obtain ⟨location, haddress, h⟩ := exists_of_bind_eq_ok h
    obtain ⟨_, -, h⟩ := exists_of_bind_eq_ok h
    obtain ⟨value, hread, -⟩ := exists_of_bind_eq_ok h
    simp [Present, reads, writes, Context.contains_of_read haddress,
      Context.contains_of_read hread]
  | increment r =>
    obtain ⟨value, hread, -⟩ := exists_of_bind_eq_ok h
    simp [Present, reads, writes, Context.contains_of_read hread]
  | loadHalf half source target =>
    obtain ⟨word, hread, h⟩ := exists_of_bind_eq_ok h
    obtain ⟨value, hfit, -⟩ := exists_of_bind_eq_ok h
    simp [Present, reads, writes, Context.contains_of_read hread, Context.contains_of_fit hfit]
  | decode r =>
    obtain ⟨instruction, hread, -⟩ := exists_of_bind_eq_ok h
    simp [Present, reads, writes, Context.contains_of_read hread]
  | extractAddress source mask target =>
    obtain ⟨instruction, hread, h⟩ := exists_of_bind_eq_ok h
    obtain ⟨value, hfit, -⟩ := exists_of_bind_eq_ok h
    simp [Present, reads, writes, Context.contains_of_read hread, Context.contains_of_fit hfit]
  | signal op => simp [Present, reads, writes]
  | combine op left right target second =>
    obtain ⟨l, hleft, h⟩ := exists_of_bind_eq_ok h
    obtain ⟨r, hright, h⟩ := exists_of_bind_eq_ok h
    obtain ⟨width, htarget, h⟩ := exists_of_bind_eq_ok h
    obtain ⟨low, hsecond, -⟩ := exists_of_bind_eq_ok h
    have hlow := Context.contains_of_widthIfAny hsecond
    simp only [Present, reads, writes_combine, List.forall_mem_append, List.forall_mem_cons]
    exact ⟨⟨Context.contains_of_read hleft, Context.contains_of_read hright,
      List.forall_mem_nil _⟩, Context.contains_of_width htarget, hlow⟩

/-- The register that an operation divides by. -/
def divisor? : MicroOp → Option Register
  | .combine .div _ right _ _ => some right
  | _ => none

/-- The register with the address is one that is read. -/
theorem mem_reads_of_address? {op : MicroOp} {r : Register} (h : op.address? = some r) :
    r ∈ op.reads := by
  cases op with
  | readMemory address target => simp_all [address?, reads]
  | writeMemory address source => simp_all [address?, reads]
  | _ => cases h

theorem mem_reads_of_divisor? {op : MicroOp} {r : Register} (h : op.divisor? = some r) :
    r ∈ op.reads := by
  cases op with
  | combine op left right target second => cases op <;> simp_all [divisor?, reads]
  | _ => cases h

/-- There is no hazard if the address is in memory and the divisor is not zero. -/
theorem hazard?_eq_none_iff {op : MicroOp} {s : Storage} :
    op.hazard? s = none ↔
      (∀ r, op.address? = some r → s.value r < s.memory.size) ∧
        ∀ r, op.divisor? = some r → s.value r ≠ 0 := by
  cases op with
  | combine op left right target second => cases op <;> simp [hazard?, address?, divisor?]
  | _ => simp [hazard?, address?, divisor?]

/-! ## Nothing is cut a second time -/

section

variable {op : MicroOp} {p : Profile} {s : Storage} {r : Register} {v : Nat}

/-- What an operation gives a register is cut to its width already. -/
theorem truncate_of_mem_transfers (h : (r, v) ∈ op.transfers p s) :
    Word.truncate (s.width r) v = v := by
  cases op with
  | combine op left right target second =>
    rcases List.mem_cons.mp h with hprimary | hsecondary
    · obtain ⟨rfl, rfl⟩ := Prod.mk.inj hprimary
      exact Alu.truncate_primary (s.task p.splitPolicy op left right r second)
    · obtain ⟨low, hlow, hv⟩ := List.mem_map.mp hsecondary
      obtain ⟨rfl, rfl⟩ := Prod.mk.inj hv
      have hwidth : (s.task p.splitPolicy op left right target second).secondaryWidth =
          some (s.width low) := by
        simp [Storage.task, Option.mem_toList.mp hlow]
      cases hresult :
        (Alu.outcome (s.task p.splitPolicy op left right target second)).secondary with
      | none => exact Word.truncate_zero _
      | some value => exact Alu.truncate_secondary hwidth hresult
  | observe _ => cases h
  | writeMemory _ _ => cases h
  | decode _ => cases h
  | signal _ => cases h
  | _ =>
    obtain ⟨rfl, rfl⟩ := Prod.mk.inj (List.mem_singleton.mp h)
    exact Word.truncate_truncate _ _

theorem contains_perform (op : MicroOp) (p : Profile) (s : Storage) (r : Register) :
    (op.perform p s).registers.contains r = s.registers.contains r := by
  rw [perform]
  cases op.memoryWrite? s with
  | none => exact s.contains_putAll _ r
  | some entry => exact (s.putWord entry.1 entry.2).contains_putAll _ r

/-- The last value that an operation gives a register is the one that stays. -/
theorem value_perform_of_transfers {before after : List (Register × Nat)}
    (h : op.transfers p s = before ++ (r, v) :: after) (hlast : ∀ entry ∈ after, entry.1 ≠ r) :
    (op.perform p s).value r = v := by
  have hmem : (r, v) ∈ op.transfers p s := by simp [h]
  rw [← truncate_of_mem_transfers hmem, perform, h]
  cases op.memoryWrite? s with
  | none => exact s.value_putAll_append before v hlast
  | some entry => exact (s.putWord entry.1 entry.2).value_putAll_append before v hlast

/-- What an operation leaves in memory is cut to the word already. -/
theorem memory_get?_perform (hs : op.hazard? s = none) {address : Nat}
    (h : op.memoryWrite? s = some (address, v)) :
    (op.perform p s).memory.get? address = some v := by
  have hlt := op.lt_size_of_memoryWrite? hs h
  have hwrite : s.memory.write address v = .ok (s.putWord address v).memory :=
    Memory.write_eq_ok_iff.mpr ⟨hlt, rfl⟩
  have hcut : Word.truncate s.memory.wordBits v = v := by
    cases op with
    | writeMemory register source =>
      obtain ⟨-, rfl⟩ : _ ∧ Word.truncate s.memory.wordBits (s.value source) = v := by
        simpa [memoryWrite?] using h
      exact Word.truncate_truncate _ _
    | _ => cases h
  rw [memory_perform, h, Memory.get?_write hwrite, if_pos rfl, hcut]

end

end MicroOp

/-! ## Execution and commit -/

/-- What a step needs in order to be executed. -/
structure MicroStep.Executable (step : MicroStep) (s : Storage) : Prop where
  present : ∀ r ∈ step.reads ++ step.writes, s.registers.contains r = true
  address : ∀ r, step.op.address? = some r →
    ∃ v, s.registers.get? r = some v ∧ v < s.memory.size
  divisor : ∀ r, step.op.divisor? = some r → s.registers.get? r ≠ some 0

/-- What an effect lists is there: of several values for one register the last, and the word. -/
structure Effect.Stored (e : Effect) (s : Storage) : Prop where
  register : ∀ {before after : List (Register × Nat)} {r : Register} {v : Nat},
    e.registerWrites = before ++ (r, v) :: after → (∀ entry ∈ after, entry.1 ≠ r) →
      s.registers.get? r = some v
  word : ∀ {address v : Nat}, e.memoryWrite = some (address, v) → s.memory.get? address = some v

namespace MicroStep

variable {step : MicroStep} {p : Profile} {s : Storage} {e : Effect}

/-- To be executable is to have all registers and no hazard. -/
theorem executable_iff : step.Executable s ↔ step.op.Present s ∧ step.op.hazard? s = none := by
  rw [MicroOp.hazard?_eq_none_iff]
  constructor
  · rintro ⟨hpresent, haddress, hdivisor⟩
    refine ⟨hpresent, ?_, ?_⟩
    · intro r hr
      obtain ⟨v, hget, hlt⟩ := haddress r hr
      simpa [Storage.value, hget] using hlt
    · intro r hr hzero
      have hread := hpresent r (List.mem_append_left _ (MicroOp.mem_reads_of_divisor? hr))
      exact hdivisor r hr (hzero ▸ Storage.get?_of_contains hread)
  · rintro ⟨hpresent, haddress, hdivisor⟩
    refine ⟨hpresent, ?_, ?_⟩
    · intro r hr
      have hread := hpresent r (List.mem_append_left _ (MicroOp.mem_reads_of_address? hr))
      exact ⟨_, Storage.get?_of_contains hread, haddress r hr⟩
    · intro r hr hget
      exact hdivisor r hr (by rw [Storage.value, hget]; rfl)

/-- A step is executed exactly where everything that it names is there and no fault is left. -/
theorem exists_effect_iff : (∃ e, step.effect p s = .ok e) ↔ step.Executable s := by
  rw [executable_iff]
  constructor
  · rintro ⟨e, he⟩
    obtain ⟨action, hop, -⟩ := exists_of_bind_eq_ok he
    have hpresent := MicroOp.present_of_effect hop
    refine ⟨hpresent, ?_⟩
    cases hhazard : step.op.hazard? s with
    | none => rfl
    | some fault => simp [effect_of_hazard hpresent hhazard] at he
  · rintro ⟨hpresent, hhazard⟩
    obtain ⟨e, he, -⟩ := effect_of_safe (p := p) hpresent hhazard
    exact ⟨e, he⟩

/-- The effect of a step is what the step transfers, and committing it performs the step. -/
theorem effect_spec (he : step.effect p s = .ok e) :
    step.op.hazard? s = none ∧ e.registerWrites = step.op.transfers p s ∧
      e.memoryWrite = step.op.memoryWrite? s ∧
      ∀ owner, e.commit owner s = (step.op.perform p s, .ok ()) := by
  obtain ⟨hpresent, hhazard⟩ := executable_iff.mp (exists_effect_iff.mp ⟨e, he⟩)
  obtain ⟨e', he', hwrites, -, hmemory, hcommit⟩ := effect_of_safe (p := p) hpresent hhazard
  obtain rfl : e' = e := Except.ok.inj (he'.symm.trans he)
  exact ⟨hhazard, hwrites, hmemory, hcommit⟩

/-- What an effect lists is stored by what the operation performs. -/
theorem stored_of_effect (he : step.effect p s = .ok e) : e.Stored (step.op.perform p s) := by
  obtain ⟨hhazard, hwrites, hmemory, -⟩ := effect_spec he
  have hpresent := (exists_effect_iff.mp ⟨e, he⟩).present
  constructor
  · intro before after r v hsplit hlast
    rw [hwrites] at hsplit
    have hr : r ∈ step.writes := by
      rw [writes, ← MicroOp.map_fst_transfers step.op p s, hsplit]
      simp
    have hcontains : (step.op.perform p s).registers.contains r = true := by
      rw [MicroOp.contains_perform]
      exact hpresent r (List.mem_append_right _ hr)
    rw [Storage.get?_of_contains hcontains, MicroOp.value_perform_of_transfers hsplit hlast]
  · intro address v hv
    exact MicroOp.memory_get?_perform hhazard (hmemory ▸ hv)

/-- Every value of an effect is within the width of its register. -/
theorem lt_of_mem_registerWrites (he : step.effect p s = .ok e) {entry : Register × Nat}
    (h : entry ∈ e.registerWrites) :
    ∃ width, s.registers.width? entry.1 = some width ∧ entry.2 < 2 ^ width := by
  obtain ⟨-, hwrites, -⟩ := effect_spec he
  have hpresent := (exists_effect_iff.mp ⟨e, he⟩).present
  rw [hwrites] at h
  have hr : entry.1 ∈ step.writes := by
    rw [writes, ← MicroOp.map_fst_transfers step.op p s]
    exact List.mem_map_of_mem h
  refine ⟨s.width entry.1, ?_, ?_⟩
  · exact Storage.width?_of_contains (hpresent _ (List.mem_append_right _ hr))
  · rw [← MicroOp.truncate_of_mem_transfers h]
    exact Word.truncate_lt_two_pow _ _

end MicroStep

/-- The two lists of a step are what its execution uses.  It succeeds exactly where their registers
are there and its address and its divisor are in order.  It then writes the second list in order and
within the widths, and can be committed on behalf of any machine, with all that it lists in place.
Files of the same shape that agree on the first list give it the same outcome, its text or its fault
included. -/
theorem execution_uses_its_operands (step : MicroStep) (p : Profile) (s : Storage) :
    ((∃ e, step.effect p s = .ok e) ↔ step.Executable s) ∧
    (∀ e, step.effect p s = .ok e →
      e.registerWrites.map (·.1) = step.writes ∧
      (∀ entry ∈ e.registerWrites,
        ∃ width, s.registers.width? entry.1 = some width ∧ entry.2 < 2 ^ width) ∧
      ∀ owner, ∃ s', e.commit owner s = (s', .ok ()) ∧ e.Stored s') ∧
    ∀ s' : Storage, s'.registers.layout = s.registers.layout → s'.memory = s.memory →
      (∀ r ∈ step.reads, s'.registers.get? r = s.registers.get? r) →
      step.effect p s' = step.effect p s := by
  refine ⟨MicroStep.exists_effect_iff, ?_, ?_⟩
  · intro e he
    obtain ⟨-, hwrites, -, hcommit⟩ := MicroStep.effect_spec he
    refine ⟨?_, fun entry hentry ↦ MicroStep.lt_of_mem_registerWrites he hentry, ?_⟩
    · rw [hwrites, MicroOp.map_fst_transfers]
      rfl
    · intro owner
      exact ⟨_, hcommit owner, MicroStep.stored_of_effect he⟩
  · intro s' hlayout hmemory hreads
    have hagrees : s'.Agrees step.reads s :=
      ⟨hmemory, hlayout, fun r hr ↦ congrArg (·.getD 0) (hreads r hr)⟩
    exact MicroStep.effect_congr hagrees

/-- Divides into a register twice over: the quotient first, then the remainder. -/
def MicroStep.divideTwice : MicroStep := .execute (.combine .div .ac .mq .ac (some .ac))

/-- Registers of the one machine, with a memory of three narrow words. -/
def Storage.narrow : Storage :=
  ⟨((RegisterFile.zero .ias).set .ac 7).set .mq 2, Memory.zero 3 5⟩

/-- Executed for the other machine, and with another counter. -/
theorem execution_of_divideTwice :
    ∃ e s, MicroStep.divideTwice.effect (Profile.hypothetical.withSplit .faithful) .narrow = .ok e ∧
      e.registerWrites.map (·.1) = [.ac, .ac] ∧ e.commit .ias .narrow = (s, .ok ()) ∧
      e.Stored s ∧ Storage.narrow.value .pc ≠ (Storage.narrow.put .pc 9).value .pc ∧
      MicroStep.divideTwice.effect (Profile.hypothetical.withSplit .faithful)
        (Storage.narrow.put .pc 9) = .ok e := by
  have hexecutable : MicroStep.divideTwice.Executable .narrow :=
    ⟨by decide, nofun, by rintro r ⟨rfl⟩; decide⟩
  obtain ⟨hiff, hok, hcongr⟩ := execution_uses_its_operands .divideTwice
    (Profile.hypothetical.withSplit .faithful) .narrow
  obtain ⟨e, he⟩ := hiff.mpr hexecutable
  obtain ⟨hwrites, -, hcommit⟩ := hok e he
  obtain ⟨s, hs, hstored⟩ := hcommit .ias
  have hother := hcongr (Storage.narrow.put .pc 9) rfl rfl (by decide)
  exact ⟨e, s, he, hwrites, hs, hstored, by decide, hother.trans he⟩

end FetchExecute
