import FetchExecute.Proofs.Reachability

/-!
# Registers that nobody has populated

Validation accepts a program only if no step reads a register before something
has given it a value.  Here is what that is good for: whatever other registers
hold at the start, the program runs the same.  Two machines that start from the
same program, one of them with further initial values put in front of those the
program declares, go through the same steps with the same results and faults
(`runs_agree_of_extra_overrides`).

The two are related by `Machine.Agrees`: they differ at most in registers that
are not yet populated.  As the set of populated registers grows with the cursor,
so does the relation, and every step reads inside it (`Machine.Agrees.advance`).
-/

namespace FetchExecute

namespace Program

/-- A step populates what it writes. -/
theorem populated_succ {program : Program} {i : Nat} {step : MicroStep}
    (h : program.steps[i]? = some step) :
    program.populated (i + 1) = program.populated i ++ step.writes := by
  rw [populated, populated, List.take_add_one, h]
  simp

/-- Nothing that is populated is lost. -/
theorem populated_mono (program : Program) {i j : Nat} (h : i ≤ j) :
    program.populated i ⊆ program.populated j := by
  intro r hr
  rcases List.mem_append.mp hr with hoverride | hwritten
  · exact List.mem_append_left _ hoverride
  · refine List.mem_append_right _ ?_
    obtain ⟨step, hstep, hr⟩ := List.mem_flatMap.mp hwritten
    exact List.mem_flatMap.mpr ⟨step, List.take_subset_take_left _ h hstep, hr⟩

/-- The program with further initial values, which its own ones may overwrite. -/
def withExtra (program : Program) (extra : List (Register × Nat)) : Program :=
  { program with overrides := extra ++ program.overrides }

section

variable {p : Profile} {program : Program} {extra : List (Register × Nat)}

/-- Further overrides populate further registers, and no fewer. -/
theorem populated_subset_withExtra (program : Program) (extra : List (Register × Nat)) (i : Nat) :
    program.populated i ⊆ (program.withExtra extra).populated i := by
  intro r hr
  simp only [populated, withExtra, List.map_append, List.append_assoc]
  exact List.mem_append_right _ hr

/-- Further overrides of registers that are there leave a program acceptable. -/
theorem WellFormed.withExtra (h : program.WellFormed p)
    (hextra : ∀ entry ∈ extra, p.hasRegister entry.1 = true) :
    (program.withExtra extra).WellFormed p where
  words := h.words
  overrides := by
    intro entry he
    rcases List.mem_append.mp he with hnew | hold
    · exact hextra entry hnew
    · exact h.overrides entry hold
  reads := by
    intro i step hstep r hr
    obtain ⟨hpresent, hpopulated⟩ := h.reads hstep r hr
    exact ⟨hpresent, populated_subset_withExtra program extra i hpopulated⟩
  writes := h.writes

/-- Further initial values leave what the program itself declares as it is. -/
theorem declared_agrees_withExtra (hp : p.Registered) :
    (program.declared p).Agrees (program.populated 0) ((program.withExtra extra).declared p) := by
  have hzero : (Storage.zero p).Fits p := .zero hp.nodup
  have hstart : (Storage.zero p).Agrees [] ((Storage.zero p).putAll extra) :=
    ⟨(Storage.memory_putAll _ _).symm, hzero.layout.trans (hzero.putAll extra).layout.symm, nofun⟩
  have hsplit : (Storage.zero p).putAll (extra ++ program.overrides) =
      ((Storage.zero p).putAll extra).putAll program.overrides := List.foldl_append
  rw [declared, declared, Program.withExtra, hsplit]
  simpa [populated] using (hstart.putAll program.overrides).putWords program.words

end

end Program

/-! ## Machines in step -/

/-- Machines at the same point of the same steps, which differ at most in registers outside
`known`. -/
structure Machine.Agrees (known : List Register) (m m' : Machine) : Prop where
  storage : m.storage.Agrees known m'.storage
  control : m.control = m'.control
  cursor : m.cursor = m'.cursor
  state : m.state = m'.state
  fault : m.fault = m'.fault

namespace Machine

theorem fresh_agrees_withExtra {p : Profile} (hp : p.Registered) (program : Program)
    (extra : List (Register × Nat)) :
    (fresh p program).Agrees (program.populated 0) (fresh p (program.withExtra extra)) :=
  ⟨Program.declared_agrees_withExtra hp, rfl, rfl, rfl, rfl⟩

/-! ### What has been written -/

theorem cursor_advances_mono (m : Machine) {j k : Nat} (h : j ≤ k) :
    (m.advances j).cursor ≤ (m.advances k).cursor := by
  induction h with
  | refl => exact Nat.le_refl _
  | @step k _ ih => exact Nat.le_trans ih (m.advances k).cursor_le_advance

namespace Sound

variable {p : Profile} {program : Program} {m : Machine} (hs : m.Sound p program)
  (hwf : program.WellFormed p)
include hs hwf

/-- What a step reports as written is populated from then on. -/
theorem written_subset_populated {record : StepRecord} (h : m.advance.2 = .ok record) :
    record.effect.registerWrites.map (·.1) ⊆ program.populated m.advance.1.cursor := by
  cases hlive : m.state.isLive with
  | false =>
    rw [advance_of_stopped hlive] at h
    cases h
  | true =>
    obtain ⟨step, hstep⟩ := hs.exists_step hlive
    cases hhazard : step.op.hazard? m.storage with
    | some fault =>
      rw [hs.advance_of_hazard hwf hlive hstep hhazard] at h
      cases h
    | none =>
      obtain ⟨e, -, hwrites, he⟩ := hs.advance_of_safe hwf hlive hstep hhazard
      rw [he] at h ⊢
      obtain rfl := Except.ok.inj h
      show e.registerWrites.map (·.1) ⊆ program.populated (m.cursor + 1)
      rw [hwrites, MicroOp.map_fst_transfers, Program.populated_succ hstep]
      exact List.subset_append_right _ _

end Sound

/-! ### Lockstep -/

namespace Agrees

variable {p : Profile} {program program' : Program} {m m' : Machine}

/-- Machines in step stay in step, and what was written meanwhile is among what they agree on. -/
theorem advance (h : m.Agrees (program.populated m.cursor) m')
    (hs : m.Sound p program) (hwf : program.WellFormed p)
    (hs' : m'.Sound p program') (hwf' : program'.WellFormed p)
    (hsteps : program.steps = program'.steps) :
    m.advance.2 = m'.advance.2 ∧
      m.advance.1.Agrees (program.populated m.advance.1.cursor) m'.advance.1 := by
  cases hlive : m.state.isLive with
  | false =>
    have hlive' : m'.state.isLive = false := h.state ▸ hlive
    rw [advance_of_stopped hlive, advance_of_stopped hlive', h.state]
    exact ⟨rfl, h⟩
  | true =>
    have hlive' : m'.state.isLive = true := h.state ▸ hlive
    obtain ⟨step, hstep⟩ := hs.exists_step hlive
    have hstep' : program'.steps[m'.cursor]? = some step := by rw [← hsteps, ← h.cursor, hstep]
    -- what the step reads is populated, so it cannot tell the two storages apart
    have hreads : step.reads ⊆ program.populated m.cursor := fun r hr ↦ (hwf.reads hstep r hr).2
    have hagrees := h.storage.mono hreads
    cases hhazard : step.op.hazard? m.storage with
    | some fault =>
      have hhazard' := (MicroOp.hazard?_congr hagrees).symm.trans hhazard
      rw [hs.advance_of_hazard hwf hlive hstep hhazard,
        hs'.advance_of_hazard hwf' hlive' hstep' hhazard']
      exact ⟨rfl, h.storage, h.control, h.cursor, rfl, rfl⟩
    | none =>
      have hhazard' := (MicroOp.hazard?_congr hagrees).symm.trans hhazard
      obtain ⟨e, he, -, hadvance⟩ := hs.advance_of_safe hwf hlive hstep hhazard
      obtain ⟨e', he', -, hadvance'⟩ := hs'.advance_of_safe hwf' hlive' hstep' hhazard'
      obtain rfl : e = e' :=
        Except.ok.inj (he.symm.trans ((MicroStep.effect_congr hagrees).trans he'))
      rw [hadvance, hadvance']
      refine ⟨by rw [h.cursor, h.control, hsteps], ?_⟩
      exact {
        storage := by
          show (step.op.perform p m.storage).Agrees (program.populated (m.cursor + 1))
            (step.op.perform p m'.storage)
          rw [Program.populated_succ hstep]
          exact MicroOp.perform_agrees p h.storage hreads
        control := congrArg (ControlState.track · step.kind) h.control
        cursor := congrArg (· + 1) h.cursor
        state := by
          show RunState.afterStep (m.cursor + 1) m.program.steps.length =
            RunState.afterStep (m'.cursor + 1) m'.program.steps.length
          rw [h.cursor, hs.program_eq, hs'.program_eq, hsteps]
        fault := h.fault }

/-- After any number of steps the machines agree on what has been populated by then. -/
theorem advances (h : m.Agrees (program.populated m.cursor) m')
    (hs : m.Sound p program) (hwf : program.WellFormed p)
    (hs' : m'.Sound p program') (hwf' : program'.WellFormed p)
    (hsteps : program.steps = program'.steps) (k : Nat) :
    (m.advances k).Agrees (program.populated (m.advances k).cursor) (m'.advances k) := by
  induction k with
  | zero => exact h
  | succ k ih =>
    exact (ih.advance (hs.advances hwf k) hwf (hs'.advances hwf' k) hwf' hsteps).2

end Agrees

end Machine

/-- Initial values in front of those of a validated program change nothing that can be seen: every
advance has the same result, text included, and leaves the same memory, status, cursor, run state
and fault, and the same value in each register that the program has populated by then. -/
theorem runs_agree_of_extra_overrides {p : Profile} {program : Program}
    {extra : List (Register × Nat)} (hp : p.Registered) (hv : program.validate p = .ok ())
    (hextra : ∀ entry ∈ extra, p.hasRegister entry.1 = true) :
    (program.withExtra extra).validate p = .ok () ∧
    ∃ m m', Machine.load p program = .ok m ∧ Machine.load p (program.withExtra extra) = .ok m' ∧
      ∀ k, (m.advances k).advance.2 = (m'.advances k).advance.2 ∧
        (m.advances (k + 1)).storage.memory = (m'.advances (k + 1)).storage.memory ∧
        (m.advances (k + 1)).cursor = (m'.advances (k + 1)).cursor ∧
        (m.advances (k + 1)).control = (m'.advances (k + 1)).control ∧
        (m.advances (k + 1)).state = (m'.advances (k + 1)).state ∧
        (m.advances (k + 1)).fault = (m'.advances (k + 1)).fault ∧
        ∀ r, (r ∈ program.overrides.map (·.1) ∨ ∃ j record, j ≤ k ∧
            (m.advances j).advance.2 = .ok record ∧
            r ∈ record.effect.registerWrites.map (·.1)) →
          (m.advances (k + 1)).storage.registers.get? r =
            (m'.advances (k + 1)).storage.registers.get? r := by
  have hwf : program.WellFormed p := Program.validate_eq_ok_iff.mp hv
  have hwf' := hwf.withExtra hextra
  have hs : (Machine.fresh p program).Sound p program := Machine.fresh_sound hp
  have hs' : (Machine.fresh p (program.withExtra extra)).Sound p (program.withExtra extra) :=
    Machine.fresh_sound hp
  have hstart := Machine.fresh_agrees_withExtra hp program extra
  refine ⟨Program.validate_eq_ok_iff.mpr hwf', _, _,
    (Machine.load_eq_ok_iff hp).mpr ⟨hwf, rfl⟩, (Machine.load_eq_ok_iff hp).mpr ⟨hwf', rfl⟩, ?_⟩
  intro k
  have hk := hstart.advances hs hwf hs' hwf' rfl k
  obtain ⟨hresult, hnext⟩ :=
    hk.advance (hs.advances hwf k) hwf (hs'.advances hwf' k) hwf' rfl
  refine ⟨hresult, hnext.storage.memory, hnext.cursor, hnext.control, hnext.state, hnext.fault, ?_⟩
  intro r hr
  refine hnext.storage.get? ?_
  rcases hr with hoverride | ⟨j, record, hj, hrecord, hr⟩
  · exact List.mem_append_left _ hoverride
  · have hwritten := (hs.advances hwf j).written_subset_populated hwf hrecord hr
    exact program.populated_mono (Machine.cursor_advances_mono _ (Nat.succ_le_succ hj)) hwritten

theorem hypotheticalSum_agrees_of_extra_accumulator :
    ∃ m m', Machine.load .hypothetical Catalog.hypotheticalSum = .ok m ∧
      Machine.load .hypothetical (Catalog.hypotheticalSum.withExtra [(.ac, 7), (.ir, 70000)]) =
        .ok m' ∧
      m.storage ≠ m'.storage ∧
      ∀ k, (m.advances (k + 1)).storage.memory = (m'.advances (k + 1)).storage.memory := by
  have hp : Profile.hypothetical.Registered := ⟨.hypothetical, .simplified, rfl⟩
  have hv : Catalog.hypotheticalSum.validate .hypothetical = .ok () := rfl
  have hextra : ∀ entry ∈ [(Register.ac, 7), (.ir, 70000)],
      Profile.hypothetical.hasRegister entry.1 = true := by decide
  obtain ⟨-, m, m', hl, hl', hk⟩ := runs_agree_of_extra_overrides hp hv hextra
  refine ⟨m, m', hl, hl', ?_, fun k ↦ (hk k).2.1⟩
  obtain ⟨-, rfl⟩ := (Machine.load_eq_ok_iff hp).mp hl
  obtain ⟨-, rfl⟩ := (Machine.load_eq_ok_iff hp).mp hl'
  intro h
  have hac := congrArg (·.value .ac) h
  revert hac
  decide

end FetchExecute
