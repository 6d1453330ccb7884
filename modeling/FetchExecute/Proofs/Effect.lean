import FetchExecute.Proofs.Storage

/-!
# What a micro-step does

A step is computed as an effect and then committed, with an error exit at every
register and every memory access.  Where all the registers that the step names
are there, only two of these exits remain, and the rest is arithmetic:

* `MicroOp.hazard?` is the fault that is left: an address register that points
  outside memory, or a divisor of zero;
* `MicroOp.transfers`, `MicroOp.memoryRead?` and `MicroOp.memoryWrite?` are what
  the step moves otherwise, as functions of the storage before it;
* `MicroOp.perform` is the storage after it.

`MicroOp.effect_of_hazard` and `MicroOp.effect_of_safe` say that computing an
effect agrees with these, and `MicroStep.effect_of_safe` that committing it
agrees too and cannot fail.  `MicroOp.effect_congr` is the other half of what
`MicroOp.reads` promises: registers outside that list do not matter at all.
-/

namespace FetchExecute

/-! ## Registers that are there -/

namespace Context

variable {c : Context} {r : Register}

theorem read_of_contains (h : c.storage.registers.contains r = true) :
    c.read r = .ok (c.storage.value r) :=
  RegisterFile.read_eq_ok_iff.mpr (Storage.get?_of_contains h)

theorem width_of_contains (h : c.storage.registers.contains r = true) :
    c.width r = .ok (c.storage.width r) :=
  RegisterFile.widthOf_eq_ok_iff.mpr (Storage.width?_of_contains h)

/-- What is written to a register that is there is cut to its width. -/
theorem fit_of_contains (h : c.storage.registers.contains r = true) (value : Nat) :
    c.fit r value = .ok (Word.truncate (c.storage.width r) value) := by
  rw [fit, width_of_contains h]
  rfl

end Context

theorem Memory.check_of_lt {m : Memory} {address : Nat} (h : address < m.size) :
    m.check address = .ok () := if_pos h

/-- An address outside memory is refused, with the size of memory in the message. -/
theorem Memory.check_of_le {m : Memory} {address : Nat} (h : m.size ≤ address) :
    m.check address = .error (.addressOutOfRange address m.size) := if_neg (Nat.not_lt.mpr h)

theorem Memory.read_of_le {m : Memory} {address : Nat} (h : m.size ≤ address) :
    m.read address = .error (.addressOutOfRange address m.size) := by
  rw [read, get?_eq_none_iff.mpr h]

theorem Storage.memory_read_of_lt {s : Storage} {address : Nat} (h : address < s.memory.size) :
    s.memory.read address = .ok (s.word address) :=
  Memory.read_eq_ok_iff.mpr (Storage.memory_get?_of_lt h)

/-! ## The arithmetic unit -/

/-- What the arithmetic unit is given by a combining step. -/
def Storage.task (s : Storage) (policy : SplitPolicy) (op : AluOp)
    (left right target : Register) (second : Option Register) : Alu.Task where
  op := op
  left := s.value left
  right := s.value right
  rightRegister := right
  primaryWidth := s.width target
  secondaryWidth := (op.secondTarget second).map s.width
  policy := policy

namespace Alu

/-- The result of a task, where the unit has one. -/
def outcome (t : Task) : Result :=
  match t.op with
  | .add => .single t (t.left + t.right)
  | .sub => .single t ((t.left - t.right : Int) % Nat.pow 2 resultBits).toNat
  | .mul => product t
  | .div => quotient t

/-- Only division fails, and only by zero; the fault names the divisor. -/
theorem combine_eq_error {t : Task} (hop : t.op = .div) (hright : t.right = 0) :
    combine t = .error (.divisionByZero t.rightRegister) := by
  simp [combine, hop, hright]

/-- All other tasks have the outcome in closed form. -/
theorem combine_eq_ok {t : Task} (h : t.op = .div → t.right ≠ 0) :
    combine t = .ok (outcome t) := by
  cases hop : t.op with
  | add => simp [combine, outcome, hop]
  | sub => simp [combine, outcome, hop]
  | mul => simp [combine, outcome, hop]
  | div => simp [combine, outcome, hop, h hop]

/-- A splitting operation fills a second destination exactly if there is one. -/
theorem isSome_secondary_outcome {t : Task} (h : t.op.splits = true) :
    (outcome t).secondary.isSome = t.secondaryWidth.isSome := by
  cases hop : t.op with
  | add => simp [hop, AluOp.splits] at h
  | sub => simp [hop, AluOp.splits] at h
  | mul => cases hw : t.secondaryWidth <;> cases hp : t.policy <;>
      simp [outcome, hop, product, Result.single, hw, hp]
  | div => cases hw : t.secondaryWidth <;> simp [outcome, hop, quotient, hw]

end Alu

/-! ## Operations on storage -/

namespace MicroOp

/-- Every register that the operation names is there. -/
def Present (op : MicroOp) (s : Storage) : Prop :=
  ∀ r ∈ op.reads ++ op.writes, s.registers.contains r = true

/-- The fault that an operation raises although its registers are there. -/
def hazard? (op : MicroOp) (s : Storage) : Option Fault :=
  match op with
  | .readMemory address _ | .writeMemory address _ =>
    if s.memory.size ≤ s.value address then
      some (.addressOutOfRange (s.value address) s.memory.size)
    else none
  | .combine .div _ right _ _ =>
    if s.value right = 0 then some (.divisionByZero right) else none
  | _ => none

/-- The registers that an operation writes, in order, and what they keep. -/
def transfers (op : MicroOp) (p : Profile) (s : Storage) : List (Register × Nat) :=
  match op with
  | .copy source target => [(target, Word.truncate (s.width target) (s.value source))]
  | .readMemory address target =>
    [(target, Word.truncate (s.width target) (s.word (s.value address)))]
  | .increment r => [(r, Word.truncate (s.width r) (s.value r + 1))]
  | .loadHalf half source target =>
    [(target, Word.truncate (s.width target) (p.layout.instruction (s.value source) half))]
  | .extractAddress source mask target =>
    [(target, Word.truncate (s.width target) (s.value source &&& mask))]
  | .combine op left right target second =>
    let result := Alu.outcome (s.task p.splitPolicy op left right target second)
    (target, result.primary) ::
      (op.secondTarget second).toList.map fun low => (low, result.secondary.getD 0)
  | .observe _ | .writeMemory .. | .decode _ | .signal _ => []

/-- The address that an operation reads and the word there. -/
def memoryRead? (op : MicroOp) (s : Storage) : Option (Nat × Nat) :=
  match op with
  | .readMemory address _ => some (s.value address, s.word (s.value address))
  | _ => none

/-- The address that an operation writes and the word it leaves there. -/
def memoryWrite? (op : MicroOp) (s : Storage) : Option (Nat × Nat) :=
  match op with
  | .writeMemory address source =>
    some (s.value address, Word.truncate s.memory.wordBits (s.value source))
  | _ => none

/-- The storage after an operation. -/
def perform (op : MicroOp) (p : Profile) (s : Storage) : Storage :=
  match op.memoryWrite? s with
  | some (address, value) => (s.putWord address value).putAll (op.transfers p s)
  | none => s.putAll (op.transfers p s)

/-- An arithmetic step writes its target, and a second register if the operation has a second
result. -/
theorem writes_combine (op : AluOp) (left right target : Register) (second : Option Register) :
    (MicroOp.combine op left right target second).writes =
      target :: (op.secondTarget second).toList := by
  cases second <;> cases op <;> rfl

/-- Without a hazard a write goes to an address inside memory. -/
theorem lt_size_of_memoryWrite? (op : MicroOp) {s : Storage} (hs : op.hazard? s = none)
    {address value : Nat} (hw : op.memoryWrite? s = some (address, value)) :
    address < s.memory.size := by
  cases op with
  | writeMemory register source =>
    obtain ⟨rfl, -⟩ : s.value register = address ∧ _ := by simpa [memoryWrite?] using hw
    simpa [hazard?] using hs
  | _ => simp [memoryWrite?] at hw

/-- Memory changes by the one write of an operation, if there is one. -/
theorem memory_perform (op : MicroOp) (p : Profile) (s : Storage) :
    (op.perform p s).memory =
      match op.memoryWrite? s with
      | some (address, value) => (s.putWord address value).memory
      | none => s.memory := by
  unfold perform
  split <;> simp [*]

/-- The registers that values are transferred to are those that an operation writes. -/
theorem map_fst_transfers (op : MicroOp) (p : Profile) (s : Storage) :
    (op.transfers p s).map (·.1) = op.writes := by
  cases op with
  | combine op left right target second =>
    simp [transfers, writes_combine, Function.comp_def]
  | _ => rfl

/-! ### Computing the effect -/

section

variable {c : Context} {op : MicroOp}

theorem Present.reads (h : op.Present c.storage) {r : Register} (hr : r ∈ op.reads) :
    c.storage.registers.contains r = true := h r (List.mem_append_left _ hr)

theorem Present.writes (h : op.Present c.storage) {r : Register} (hr : r ∈ op.writes) :
    c.storage.registers.contains r = true := h r (List.mem_append_right _ hr)

/-- What an operation asks of its registers succeeds if they are there: reading them, their widths
and the cut to a width. -/
theorem Present.read_eq (h : op.Present c.storage) {r : Register} (hr : r ∈ op.reads) :
    c.read r = .ok (c.storage.value r) := Context.read_of_contains (h.reads hr)

theorem Present.width_eq (h : op.Present c.storage) {r : Register} (hr : r ∈ op.writes) :
    c.width r = .ok (c.storage.width r) := Context.width_of_contains (h.writes hr)

theorem Present.fit_eq (h : op.Present c.storage) {r : Register} (hr : r ∈ op.writes)
    (value : Nat) : c.fit r value = .ok (Word.truncate (c.storage.width r) value) :=
  Context.fit_of_contains (h.writes hr) value

/-- A combining step succeeds and fails with the arithmetic unit. -/
theorem combineEffect_eq {op : AluOp} {left right target : Register} {second : Option Register}
    (h : (combine op left right target second).Present c.storage) :
    combineEffect c op left right target second =
      (combinedEffect op left right target (op.secondTarget second) (c.storage.value left)
        (c.storage.value right)) <$>
      Alu.combine (c.storage.task c.profile.splitPolicy op left right target second) := by
  have hl := h.read_eq (r := left) (by simp [MicroOp.reads])
  have hr := h.read_eq (r := right) (by simp [MicroOp.reads])
  have ht := h.width_eq (r := target) (by simp [writes_combine])
  have hsecond : c.widthIfAny (op.secondTarget second) =
      .ok ((op.secondTarget second).map c.storage.width) := by
    cases hs : op.secondTarget second with
    | none => rfl
    | some low =>
      rw [Context.widthIfAny, h.width_eq (by simp [writes_combine, hs])]
      rfl
  simp only [combineEffect, hl, hr, ht, hsecond, bind, Except.bind]
  rfl

/-- The effect of an arithmetic step lists its one or two results, first the target. -/
theorem registerWrites_combinedEffect {op : AluOp} (left right target : Register)
    (second : Option Register) (l r : Nat) {result : Alu.Result}
    (h : (op.secondTarget second).isSome = true → result.secondary.isSome = true) :
    combinedEffect op left right target (op.secondTarget second) l r result = {
      registerWrites := (target, result.primary) ::
        (op.secondTarget second).toList.map fun low => (low, result.secondary.getD 0)
      description :=
        (combinedEffect op left right target (op.secondTarget second) l r
          result).description } := by
  cases hs : op.secondTarget second with
  | none => rfl
  | some low =>
    obtain ⟨value, hv⟩ := Option.isSome_iff_exists.mp (h (by rw [hs]; rfl))
    simp only [combinedEffect, hv]
    rfl

/-- With a hazard an operation fails with that fault, if its registers are there. -/
theorem effect_of_hazard (h : op.Present c.storage) {fault : Fault}
    (hf : op.hazard? c.storage = some fault) : op.effect c = .error fault := by
  cases op with
  | readMemory address target =>
    obtain ⟨hle, rfl⟩ : c.storage.memory.size ≤ c.storage.value address ∧
        .addressOutOfRange (c.storage.value address) c.storage.memory.size = fault := by
      simpa [hazard?] using hf
    have ha := h.read_eq (r := address) (by simp [MicroOp.reads])
    simp only [effect, readMemoryEffect, ha, bind, Except.bind, Memory.read_of_le hle]
  | writeMemory address source =>
    obtain ⟨hle, rfl⟩ : c.storage.memory.size ≤ c.storage.value address ∧
        .addressOutOfRange (c.storage.value address) c.storage.memory.size = fault := by
      simpa [hazard?] using hf
    have ha := h.read_eq (r := address) (by simp [MicroOp.reads])
    simp only [effect, writeMemoryEffect, ha, bind, Except.bind, Memory.check_of_le hle]
  | combine op left right target second =>
    obtain ⟨rfl, hright, rfl⟩ : op = .div ∧ c.storage.value right = 0 ∧
        .divisionByZero right = fault := by
      cases op <;> simp_all [hazard?]
    rw [effect, combineEffect_eq h, Alu.combine_eq_error rfl hright]
    rfl
  | _ => simp [hazard?] at hf

/-- Without a hazard an operation succeeds, and its effect is known in closed form but for the
description. -/
theorem effect_of_safe (h : op.Present c.storage) (hs : op.hazard? c.storage = none) :
    ∃ text, op.effect c = .ok {
      registerWrites := op.transfers c.profile c.storage
      memoryRead := op.memoryRead? c.storage
      memoryWrite := op.memoryWrite? c.storage
      description := text } := by
  -- registers are there in all cases, so that only accesses to memory and divisions need `hs`
  cases op with
  | observe r =>
    have hr := h.read_eq (r := r) (by simp [MicroOp.reads])
    simp only [effect, hr]
    exact ⟨_, rfl⟩
  | copy source target =>
    have hr := h.read_eq (r := source) (by simp [MicroOp.reads])
    have ht := h.fit_eq (r := target) (by simp [MicroOp.writes])
    simp only [effect, hr, bind, Except.bind, ht]
    exact ⟨_, rfl⟩
  | readMemory address target =>
    have hlt : c.storage.value address < c.storage.memory.size := by
      simpa [hazard?] using hs
    have hr := h.read_eq (r := address) (by simp [MicroOp.reads])
    have ht := h.fit_eq (r := target) (by simp [MicroOp.writes])
    simp only [effect, readMemoryEffect, hr, bind, Except.bind, ht,
      Storage.memory_read_of_lt hlt]
    exact ⟨_, rfl⟩
  | writeMemory address source =>
    have hlt : c.storage.value address < c.storage.memory.size := by
      simpa [hazard?] using hs
    have ha := h.read_eq (r := address) (by simp [MicroOp.reads])
    have hr := h.read_eq (r := source) (by simp [MicroOp.reads])
    simp only [effect, writeMemoryEffect, ha, hr, bind, Except.bind, Memory.check_of_lt hlt]
    exact ⟨_, rfl⟩
  | increment r =>
    have hr := h.read_eq (r := r) (by simp [MicroOp.reads])
    have ht := h.fit_eq (r := r) (by simp [MicroOp.writes])
    simp only [effect, hr, bind, Except.bind, ht]
    exact ⟨_, rfl⟩
  | loadHalf half source target =>
    have hr := h.read_eq (r := source) (by simp [MicroOp.reads])
    have ht := h.fit_eq (r := target) (by simp [MicroOp.writes])
    simp only [effect, hr, bind, Except.bind, ht]
    exact ⟨_, rfl⟩
  | decode r =>
    have hr := h.read_eq (r := r) (by simp [MicroOp.reads])
    simp only [effect, hr]
    exact ⟨_, rfl⟩
  | extractAddress source mask target =>
    have hr := h.read_eq (r := source) (by simp [MicroOp.reads])
    have ht := h.fit_eq (r := target) (by simp [MicroOp.writes])
    simp only [effect, hr, bind, Except.bind, ht]
    exact ⟨_, rfl⟩
  | signal op => exact ⟨_, rfl⟩
  | combine op left right target second =>
    have hdiv : op = .div → c.storage.value right ≠ 0 := by
      rintro rfl
      simpa [hazard?] using hs
    rw [effect, combineEffect_eq h, Alu.combine_eq_ok hdiv]
    refine ⟨_, congrArg Except.ok (registerWrites_combinedEffect _ _ _ _ _ _ ?_)⟩
    intro hsome
    have hsplits : op.splits = true := by
      cases hop : op.splits with
      | true => rfl
      | false => simp [AluOp.secondTarget, hop] at hsome
    rw [Alu.isSome_secondary_outcome hsplits]
    simpa [Storage.task] using hsome

end

/-! ### Independence of everything else -/

/-- Registers that an operation does not read play no part in its effect, text included. -/
theorem effect_congr {c c' : Context} {op : MicroOp} (hprofile : c.profile = c'.profile)
    (hphase : c.phase = c'.phase) (h : c.storage.Agrees op.reads c'.storage) :
    op.effect c = op.effect c' := by
  have hread : ∀ r ∈ op.reads, c.read r = c'.read r := by
    intro r hr
    rw [Context.read, Context.read, RegisterFile.read, RegisterFile.read, h.get? hr, hprofile]
  have hwidth : c.width = c'.width := by
    funext r
    rw [Context.width, Context.width, RegisterFile.widthOf, RegisterFile.widthOf, h.width? r,
      hprofile]
  have hfit : c.fit = c'.fit := by
    funext r value
    rw [Context.fit, Context.fit, hwidth]
  have htext : c.valueText = c'.valueText := by
    funext r value
    simp only [Context.valueText, hprofile, hphase, h.width? r]
  cases op with
  | observe r => simp only [effect, hread r (by simp [reads]), htext]
  | copy source target => simp only [effect, hread source (by simp [reads]), hfit, htext]
  | readMemory address target =>
    simp only [effect, readMemoryEffect, hread address (by simp [reads]), h.memory, hfit, hphase,
      hprofile, htext]
  | writeMemory address source =>
    simp only [effect, writeMemoryEffect, hread address (by simp [reads]),
      hread source (by simp [reads]), h.memory, hprofile, htext]
  | increment r => simp only [effect, hread r (by simp [reads]), hfit, htext]
  | loadHalf half source target =>
    simp only [effect, hread source (by simp [reads]), hprofile, hfit, htext]
  | decode r => simp only [effect, hread r (by simp [reads]), hprofile]
  | extractAddress source mask target =>
    simp only [effect, hread source (by simp [reads]), hfit, htext]
  | signal op => rfl
  | combine op left right target second =>
    have hsecond : c.widthIfAny = c'.widthIfAny := by
      funext r
      cases r with
      | none => rfl
      | some low => rw [Context.widthIfAny, Context.widthIfAny, hwidth]
    simp only [effect, combineEffect, hread left (by simp [reads]),
      hread right (by simp [reads]), hwidth, hsecond, hprofile]

/-- What an operation transfers depends on the registers that it reads only, and on memory. -/
theorem transfers_congr {s s' : Storage} {op : MicroOp} (p : Profile)
    (h : s.Agrees op.reads s') : op.transfers p s = op.transfers p s' := by
  cases op with
  | combine op left right target second =>
    have hwidth : s.width = s'.width := funext h.width
    simp only [transfers, Storage.task, h.value left (by simp [reads]),
      h.value right (by simp [reads]), hwidth]
  | readMemory address target =>
    simp only [transfers, h.value address (by simp [reads]), h.width, h.word]
  | copy source target => simp only [transfers, h.value source (by simp [reads]), h.width]
  | increment r => simp only [transfers, h.value r (by simp [reads]), h.width]
  | loadHalf half source target =>
    simp only [transfers, h.value source (by simp [reads]), h.width]
  | extractAddress source mask target =>
    simp only [transfers, h.value source (by simp [reads]), h.width]
  | _ => rfl

/-- The hazard of an operation depends on what it reads only. -/
theorem hazard?_congr {s s' : Storage} {op : MicroOp} (h : s.Agrees op.reads s') :
    op.hazard? s = op.hazard? s' := by
  cases op with
  | readMemory address target =>
    simp only [hazard?, h.value address (by simp [reads]), h.memory]
  | writeMemory address source =>
    simp only [hazard?, h.value address (by simp [reads]), h.memory]
  | combine op left right target second =>
    have hright := h.value right (by simp [reads])
    cases op with
    | div => simp only [hazard?, hright]
    | _ => rfl
  | _ => rfl

theorem memoryWrite?_congr {s s' : Storage} {op : MicroOp} (h : s.Agrees op.reads s') :
    op.memoryWrite? s = op.memoryWrite? s' := by
  cases op with
  | writeMemory address source =>
    simp only [memoryWrite?, h.value address (by simp [reads]), h.value source (by simp [reads]),
      h.memory]
  | _ => rfl

/-- Storages that agree on what an operation reads agree after it on what it has written, too. -/
theorem perform_agrees {s s' : Storage} {known : List Register} {op : MicroOp} (p : Profile)
    (h : s.Agrees known s') (hreads : op.reads ⊆ known) :
    (op.perform p s).Agrees (known ++ op.writes) (op.perform p s') := by
  have hr := h.mono hreads
  rw [perform, perform, ← memoryWrite?_congr hr, ← transfers_congr p hr,
    ← map_fst_transfers op p s]
  cases op.memoryWrite? s with
  | none => exact h.putAll _
  | some entry => exact (h.putWord entry.1 entry.2).putAll _

end MicroOp

/-! ## Steps -/

namespace MicroStep

variable {step : MicroStep} {p : Profile} {s : Storage}

/-- A step fails as its operation does. -/
theorem effect_of_hazard (h : step.op.Present s) {fault : Fault}
    (hf : step.op.hazard? s = some fault) : step.effect p s = .error fault := by
  rw [MicroStep.effect, MicroOp.effect_of_hazard (c := ⟨p, step.phase, s⟩) h hf]
  rfl

/-- Registers that a step does not read play no part in what becomes of it. -/
theorem effect_congr {s' : Storage} (h : s.Agrees step.reads s') :
    step.effect p s = step.effect p s' := by
  have heffect : step.op.effect ⟨p, step.phase, s⟩ = step.op.effect ⟨p, step.phase, s'⟩ :=
    MicroOp.effect_congr rfl rfl h
  rw [MicroStep.effect, MicroStep.effect, heffect]

/-- Where nothing stands in its way, a step has an effect, and committing it cannot fail. -/
theorem effect_of_safe (h : step.op.Present s) (hs : step.op.hazard? s = none) :
    ∃ e, step.effect p s = .ok e ∧ e.registerWrites = step.op.transfers p s ∧
      e.memoryRead = step.op.memoryRead? s ∧ e.memoryWrite = step.op.memoryWrite? s ∧
      ∀ owner, e.commit owner s = (step.op.perform p s, .ok ()) := by
  obtain ⟨text, he⟩ := MicroOp.effect_of_safe (c := ⟨p, step.phase, s⟩) h hs
  refine ⟨_, by rw [MicroStep.effect, he]; rfl, rfl, rfl, rfl, ?_⟩
  intro owner
  have hkeys : ∀ entry ∈ step.op.transfers p s, s.registers.contains entry.1 = true := by
    intro entry hentry
    refine h.writes (c := ⟨p, step.phase, s⟩) ?_
    rw [← MicroOp.map_fst_transfers step.op p s]
    exact List.mem_map_of_mem hentry
  cases hw : step.op.memoryWrite? s with
  | none =>
    simp only [Effect.commit, MicroOp.perform, hw]
    exact Storage.writeRegisters_of_contains hkeys
  | some entry =>
    obtain ⟨address, value⟩ := entry
    have hlt : address < s.memory.size := step.op.lt_size_of_memoryWrite? hs hw
    have hwrite : s.memory.write address value = .ok (s.putWord address value).memory :=
      Memory.write_eq_ok_iff.mpr ⟨hlt, rfl⟩
    simp only [Effect.commit, MicroOp.perform, hw, hwrite]
    exact Storage.writeRegisters_of_contains (s := s.putWord address value) hkeys

end MicroStep

/-- An operation keeps the shape of a storage. -/
theorem Storage.Fits.perform {p : Profile} {s : Storage} (h : s.Fits p) (op : MicroOp) :
    (op.perform p s).Fits p := by
  unfold MicroOp.perform
  cases op.memoryWrite? s with
  | none => exact h.putAll _
  | some entry => exact (h.putWord entry.1 entry.2).putAll _

end FetchExecute
