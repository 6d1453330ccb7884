import FetchExecute.Proofs.Reachability

/-!
# The faults of programs that suit their machine

Of all the faults that computing and committing an effect can raise, validation
leaves two: an address outside memory and a division by zero.
`MicroOp.Raises` says of a storage when a step raises them, in terms of what its
registers hold, and `Machine.Reachable.advance_fails_iff` that a reachable
machine which may go on fails with exactly these.

On a machine whose address registers cannot hold an address outside memory, only
the division by zero is left (`MicroOp.not_raises_addressOutOfRange`).
-/

namespace FetchExecute

namespace MicroOp

/-- The register that an operation on memory takes its address from. -/
def address? : MicroOp → Option Register
  | .readMemory address _ | .writeMemory address _ => some address
  | _ => none

/-- The faults that are left where all the registers of an operation are there. -/
inductive Raises (p : Profile) (s : Storage) : MicroOp → Fault → Prop
  | read {address target : Register} {v : Nat} :
      s.registers.get? address = some v → p.memoryWords ≤ v →
      Raises p s (.readMemory address target) (.addressOutOfRange v p.memoryWords)
  | write {address source : Register} {v : Nat} :
      s.registers.get? address = some v → p.memoryWords ≤ v →
      Raises p s (.writeMemory address source) (.addressOutOfRange v p.memoryWords)
  | divide {left right target : Register} {second : Option Register} :
      s.registers.get? right = some 0 →
      Raises p s (.combine .div left right target second) (.divisionByZero right)

variable {p : Profile} {s : Storage} {op : MicroOp} {fault : Fault}

/-- What an operation can raise is its hazard, if its registers are there. -/
theorem raises_iff_hazard? (hs : s.Fits p) (h : op.Present s) :
    op.Raises p s fault ↔ op.hazard? s = some fault := by
  constructor
  · rintro (⟨hget, hle⟩ | ⟨hget, hle⟩ | hget)
    · simp [hazard?, Storage.value, hget, hs.size, hle]
    · simp [hazard?, Storage.value, hget, hs.size, hle]
    · simp [hazard?, Storage.value, hget]
  · intro hf
    cases op with
    | readMemory address target =>
      obtain ⟨hle, rfl⟩ : p.memoryWords ≤ s.value address ∧
          .addressOutOfRange (s.value address) p.memoryWords = fault := by
        simpa [hazard?, hs.size] using hf
      exact .read (Storage.get?_of_contains (h address (by simp [reads]))) hle
    | writeMemory address source =>
      obtain ⟨hle, rfl⟩ : p.memoryWords ≤ s.value address ∧
          .addressOutOfRange (s.value address) p.memoryWords = fault := by
        simpa [hazard?, hs.size] using hf
      exact .write (Storage.get?_of_contains (h address (by simp [reads]))) hle
    | combine op left right target second =>
      obtain ⟨rfl, hzero, rfl⟩ : op = .div ∧ s.value right = 0 ∧
          .divisionByZero right = fault := by
        cases op <;> simp_all [hazard?]
      refine .divide ?_
      rw [Storage.get?_of_contains (h right (by simp [reads])), hzero]
    | _ => simp [hazard?] at hf

/-- An address register that is narrow enough always points into memory. -/
theorem not_raises_addressOutOfRange (hs : s.Fits p)
    (hnarrow : ∀ r, op.address? = some r → 2 ^ s.width r ≤ p.memoryWords) (v n : Nat) :
    ¬ op.Raises p s (.addressOutOfRange v n) := by
  have hfits {r : Register} {v : Nat} (hr : op.address? = some r)
      (hget : s.registers.get? r = some v) : v < p.memoryWords := by
    have hlt := hs.value_lt_width r
    rw [Storage.value, hget] at hlt
    exact Nat.lt_of_lt_of_le hlt (hnarrow r hr)
  rintro (⟨hget, hle⟩ | ⟨hget, hle⟩)
  · exact Nat.not_lt_of_le hle (hfits rfl hget)
  · exact Nat.not_lt_of_le hle (hfits rfl hget)

end MicroOp

/-! ## Faults along a run -/

namespace Machine.Reachable

variable {p : Profile} {program : Program} {m : Machine}
  (h : Machine.Reachable p program m) (hp : p.Registered)
include h hp

/-- A machine that may go on fails to do so exactly on the hazards of the step under its
cursor. -/
theorem advance_fails_iff (hlive : m.state.isLive = true) {step : MicroStep}
    (hstep : program.steps[m.cursor]? = some step) (fault : Fault) :
    m.advance.2 = .error fault ↔ step.op.Raises p m.storage fault := by
  have hs := h.sound hp
  have hwf := h.wellFormed hp
  rw [MicroOp.raises_iff_hazard? hs.fits (hwf.present hs.fits hstep)]
  cases hhazard : step.op.hazard? m.storage with
  | some raised =>
    rw [hs.advance_of_hazard hwf hlive hstep hhazard]
    simp
  | none =>
    obtain ⟨e, -, -, he⟩ := hs.advance_of_safe hwf hlive hstep hhazard
    rw [he]
    simp

/-- An effect that has been computed is always committed in full. -/
theorem commit_succeeds {step : MicroStep} (hstep : program.steps[m.cursor]? = some step)
    {e : Effect} (he : step.effect p m.storage = .ok e) :
    ∃ s, e.commit p.architecture m.storage = (s, .ok ()) := by
  have hpresent := (h.wellFormed hp).present (h.sound hp).fits hstep
  cases hhazard : step.op.hazard? m.storage with
  | some fault =>
    rw [MicroStep.effect_of_hazard hpresent hhazard] at he
    cases he
  | none =>
    obtain ⟨e', he', -, -, -, hcommit⟩ := MicroStep.effect_of_safe (p := p) hpresent hhazard
    obtain rfl : e' = e := Except.ok.inj (he'.symm.trans he)
    exact ⟨_, hcommit p.architecture⟩

/-- A step fails by a refusal, or by what its operation raises. -/
theorem advance_error_cases {fault : Fault} (hf : m.advance.2 = .error fault) :
    fault = .finished m.state ∨
      ∃ step, program.steps[m.cursor]? = some step ∧ step.op.Raises p m.storage fault := by
  cases hlive : m.state.isLive with
  | false =>
    rw [advance_of_stopped hlive] at hf
    exact .inl (Except.error.inj hf).symm
  | true =>
    obtain ⟨step, hstep⟩ := (h.sound hp).exists_step hlive
    exact .inr ⟨step, hstep, (h.advance_fails_iff hp hlive hstep fault).mp hf⟩

omit h hp in
theorem abort_error {fault : Fault} (hf : m.abort.2 = .error fault) :
    fault = .finished m.state := by
  cases hlive : m.state.isLive with
  | false =>
    rw [abort_of_stopped hlive] at hf
    exact (Except.error.inj hf).symm
  | true =>
    rw [abort_of_live hlive] at hf
    cases hf

/-- Where memory is addressed through the counter and the address register alone, the teaching
machine cannot leave its memory: the two are as wide as an address. -/
theorem ne_addressOutOfRange (hypothetical : p.architecture = .hypothetical)
    (hregisters : ∀ step ∈ program.steps, ∀ r, step.op.address? = some r → r = .pc ∨ r = .mar)
    (v n : Nat) : m.advance.2 ≠ .error (.addressOutOfRange v n) := by
  intro hf
  rcases h.advance_error_cases hp hf with hfinished | ⟨step, hstep, hraises⟩
  · cases hfinished
  · have hs := (h.sound hp).fits
    refine MicroOp.not_raises_addressOutOfRange hs ?_ v n hraises
    intro r hr
    have haddress : r.holdsAddress = true := by
      rcases hregisters step (List.mem_of_getElem? hstep) r hr with rfl | rfl
      · rfl
      · rfl
    refine Nat.le_of_eq ?_
    rw [hs.width_address hp haddress, hp.memoryWords_eq hypothetical]

end Machine.Reachable

/-! ## What validation promises -/

/-- The faults that validation is there to exclude. -/
def Fault.IsDefect : Fault → Prop
  | .registerAbsent .. | .unpopulated .. => True
  | _ => False

/-- What a step raises is never what validation reports. -/
theorem MicroOp.Raises.not_isDefect {p : Profile} {s : Storage} {op : MicroOp} {fault : Fault}
    (h : op.Raises p s fault) : ¬ fault.IsDefect := by
  cases h <;> exact id

/-- A program that validation accepts can be loaded, and whatever is called on it afterwards, the
two hazards of its steps are all that can go wrong: no defect turns up, no commit breaks off, and
the way back to the start is open. -/
theorem faults_of_validate_eq_ok {p : Profile} {program : Program} (hp : p.Registered)
    (hv : program.validate p = .ok ()) :
    (∃ m, Machine.load p program = .ok m) ∧
    (∀ {m : Machine}, Machine.Reachable p program m →
      (m.state.isLive = true → ∃ step, program.steps[m.cursor]? = some step ∧
        (∀ fault, m.advance.2 = .error fault ↔ step.op.Raises p m.storage fault) ∧
        ∀ e, step.effect p m.storage = .ok e →
          ∃ s, e.commit p.architecture m.storage = (s, .ok ())) ∧
      (∀ fault, m.advance.2 = .error fault ∨ m.abort.2 = .error fault → ¬ fault.IsDefect) ∧
      ∃ m', m.reset = (m', .ok ())) ∧
    (p.architecture = .hypothetical →
      (∀ step ∈ program.steps, ∀ r, step.op.address? = some r → r = .pc ∨ r = .mar) →
      ∀ {m : Machine}, Machine.Reachable p program m →
        ∀ v n, m.advance.2 ≠ .error (.addressOutOfRange v n)) := by
  have hwf : program.WellFormed p := Program.validate_eq_ok_iff.mp hv
  refine ⟨⟨_, (Machine.load_eq_ok_iff hp).mpr ⟨hwf, rfl⟩⟩, ?_, ?_⟩
  · intro m h
    refine ⟨?_, ?_, ⟨_, (h.sound hp).reset_eq hwf hp⟩⟩
    · intro hlive
      obtain ⟨step, hstep⟩ := (h.sound hp).exists_step hlive
      exact ⟨step, hstep, h.advance_fails_iff hp hlive hstep,
        fun e he ↦ h.commit_succeeds hp hstep he⟩
    · rintro fault (hf | hf)
      · rcases h.advance_error_cases hp hf with rfl | ⟨step, -, hraises⟩
        · exact id
        · exact hraises.not_isDefect
      · rw [Machine.Reachable.abort_error hf]
        exact id
  · intro hypothetical hregisters m h v n
    exact h.ne_addressOutOfRange hp hypothetical hregisters v n

/-- Divides by a register that holds zero from the start. -/
def Program.zeroDivision : Program where
  name := "Division by zero"
  words := []
  overrides := [(.ac, 20), (.mbr, 0)]
  steps := [.execute (.combine .div .ac .mbr .mq (some .ac))]

theorem faults_of_zeroDivision :
    (∃ m, Machine.load .ias .zeroDivision = .ok m ∧
      m.advance.2 = .error (.divisionByZero .mbr) ∧ ∃ m', m.advance.1.reset = (m', .ok ())) ∧
    ∃ m, Machine.load .hypothetical Catalog.hypotheticalSum = .ok m ∧
      ∀ v n, m.advance.2 ≠ .error (.addressOutOfRange v n) := by
  constructor
  · have hp : Profile.ias.Registered := ⟨.ias, .simplified, rfl⟩
    have hv : Program.zeroDivision.validate .ias = .ok () := rfl
    have hl := (Machine.load_eq_ok_iff hp).mpr ⟨Program.validate_eq_ok_iff.mp hv, rfl⟩
    obtain ⟨-, hreachable, -⟩ := faults_of_validate_eq_ok hp hv
    obtain ⟨hlive, -, -⟩ := hreachable (.load hl)
    obtain ⟨step, hstep, hfails, -⟩ := hlive rfl
    obtain rfl : MicroStep.execute (.combine .div .ac .mbr .mq (some .ac)) = step :=
      Option.some.inj hstep
    exact ⟨_, hl, (hfails _).mpr (.divide rfl), (hreachable (.advance (.load hl))).2.2⟩
  · have hp : Profile.hypothetical.Registered := ⟨.hypothetical, .simplified, rfl⟩
    have hv : Catalog.hypotheticalSum.validate .hypothetical = .ok () := rfl
    have hl := (Machine.load_eq_ok_iff hp).mpr ⟨Program.validate_eq_ok_iff.mp hv, rfl⟩
    obtain ⟨-, -, hnever⟩ := faults_of_validate_eq_ok hp hv
    exact ⟨_, hl, hnever rfl (by decide) (.load hl)⟩

end FetchExecute
