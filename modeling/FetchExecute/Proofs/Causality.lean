import FetchExecute.Proofs.Defect
import FetchExecute.Proofs.History

/-!
# No step looks ahead

What an advance does is settled by the steps up to the one that it takes.  Two
programs may go on differently, or one of them end, after their first `k` steps:
as long as they declare the same words and overrides, their first `k` advances
have the same results, and leave the same storage, unit status, cursor and fault
(`advances_depend_on_taken_steps`).  The unit status is no exception, although it
lasts from one step into the next.

What comes later is seen in the run state alone, which tells whether a step is
left.  `Machine.Matches` is the relation between the two runs: it lets the run
states differ where one program has ended and the other one has not, and nowhere
else, so it is preserved by every advance at which both have the same step, or
none, under the cursor (`Machine.Matches.advance`).
-/

namespace FetchExecute

/-- What a record tells of the step alone: all but the run state. -/
def StepRecord.account (record : StepRecord) : Nat × MicroStep × Effect × ControlState :=
  (record.index, record.step, record.effect, record.control)

theorem Program.getElem?_of_take_eq {program program' : Program} {n i : Nat}
    (hsteps : program.steps.take n = program'.steps.take n) (hlt : i < n) :
    program.steps[i]? = program'.steps[i]? := by
  rw [← List.getElem?_take_of_lt hlt, hsteps, List.getElem?_take_of_lt hlt]

namespace Machine

/-- Two machines at the same point, of which at most the programs tell whether it is the last. -/
structure Matches (m m' : Machine) : Prop where
  profile : m.profile = m'.profile
  storage : m.storage = m'.storage
  control : m.control = m'.control
  cursor : m.cursor = m'.cursor
  fault : m.fault = m'.fault
  state : (m.total ≤ m.cursor ↔ m'.total ≤ m'.cursor) → m.state = m'.state

/-! ## The cursor -/

theorem cursor_advances_le (m : Machine) (k : Nat) : (m.advances k).cursor ≤ m.cursor + k := by
  induction k with
  | zero => exact Nat.le_refl _
  | succ k ih =>
    calc (m.advances k).advance.1.cursor ≤ (m.advances k).cursor + 1 :=
          (m.advances k).cursor_advance_le
      _ ≤ m.cursor + k + 1 := Nat.succ_le_succ ih

/-! ## Two runs -/

namespace Matches

variable {m m' : Machine} (h : m.Matches m')
include h

/-- Taking a step reads neither program, except for the run state after it. -/
theorem apply (hstate : m.state = m'.state) (step : MicroStep) :
    (m.apply step).2.map StepRecord.account = (m'.apply step).2.map StepRecord.account ∧
      (m.apply step).1.Matches (m'.apply step).1 := by
  rw [Machine.apply, Machine.apply, h.profile, h.storage]
  cases step.effect m'.profile m'.storage with
  | error fault => exact ⟨rfl, rfl, rfl, h.control, h.cursor, rfl, fun _ ↦ rfl⟩
  | ok effect =>
    simp only
    cases effect.commit m'.profile.architecture m'.storage with | mk storage result
    cases result with
    | error fault => exact ⟨rfl, rfl, rfl, h.control, h.cursor, h.fault, fun _ ↦ hstate⟩
    | ok _ =>
      have hcontrol : m.control.track step.kind = m'.control.track step.kind := by rw [h.control]
      refine ⟨?_, h.profile, rfl, hcontrol, congrArg (· + 1) h.cursor, h.fault, ?_⟩
      · show Except.ok (m.cursor, step, effect, m.control.track step.kind) =
          .ok (m'.cursor, step, effect, m'.control.track step.kind)
        rw [h.cursor, hcontrol]
      · intro (hend : m.total ≤ m.cursor + 1 ↔ m'.total ≤ m'.cursor + 1)
        show RunState.afterStep (m.cursor + 1) m.total = .afterStep (m'.cursor + 1) m'.total
        simp only [RunState.afterStep, hend]

/-- Machines with the same step under the cursor, or none, match again after an advance. -/
theorem advance (hstep : m.program.steps[m.cursor]? = m'.program.steps[m'.cursor]?) :
    m.advance.2.map StepRecord.account = m'.advance.2.map StepRecord.account ∧
      m.advance.1.Matches m'.advance.1 := by
  have hend : m.total ≤ m.cursor ↔ m'.total ≤ m'.cursor := by
    rw [total, total, ← List.getElem?_eq_none_iff, hstep, List.getElem?_eq_none_iff]
  have hstate := h.state hend
  simp only [Machine.advance, hstate, hstep]
  split
  · split
    · exact h.apply hstate _
    · exact ⟨rfl, h⟩
  · exact ⟨rfl, h⟩

end Matches

section

variable {p : Profile} {program program' : Program} {m m' : Machine} (hs : m.Sound p program)
  (hs' : m'.Sound p program') {n : Nat} (hsteps : program.steps.take n = program'.steps.take n)
include hs hs' hsteps

/-- Within the steps that two programs share, matching machines have the same one before them. -/
theorem Matches.step_eq (h : m.Matches m') (hlt : m.cursor < n) :
    m.program.steps[m.cursor]? = m'.program.steps[m'.cursor]? := by
  rw [← h.cursor, hs.program_eq, hs'.program_eq, Program.getElem?_of_take_eq hsteps hlt]

theorem Matches.advances (h : m.Matches m') (hwf : program.WellFormed p)
    (hwf' : program'.WellFormed p) {i : Nat} (hi : m.cursor + i ≤ n) :
    (m.advances i).Matches (m'.advances i) := by
  induction i with
  | zero => exact h
  | succ i ih =>
    have hmatches := ih (Nat.le_of_succ_le hi)
    have hlt : (m.advances i).cursor < n :=
      Nat.lt_of_le_of_lt (m.cursor_advances_le i) (Nat.lt_of_succ_le hi)
    have hstep := hmatches.step_eq (hs.advances hwf i) (hs'.advances hwf' i) hsteps hlt
    exact (hmatches.advance hstep).2

/-- Before the end of what two programs share, their runs are in the same state, and at that end
they are if none of the programs ends there, or both of them do. -/
theorem Matches.state_eq (h : m.Matches m') (hle : m.cursor ≤ n)
    (hend : program.steps.length = n ↔ program'.steps.length = n) : m.state = m'.state := by
  refine h.state ?_
  rw [total, total, hs.program_eq, hs'.program_eq, ← h.cursor]
  rcases Nat.lt_or_eq_of_le hle with hlt | hlast
  · rw [← List.getElem?_eq_none_iff, Program.getElem?_of_take_eq hsteps hlt,
      List.getElem?_eq_none_iff]
  · have hle := hs.cursor_le
    have hle' : m.cursor ≤ program'.steps.length := h.cursor ▸ hs'.cursor_le
    omega

end

end Machine

/-- Two programs with the same words and overrides and the same first `k` steps are the same for
`k` advances: in the result of each, run state apart, and in what each leaves in the machine.  The
run states are the same, too, unless one of the programs ends there and the other does not. -/
theorem advances_depend_on_taken_steps {p : Profile} {program program' : Program} {k : Nat}
    (hp : p.Registered) (hv : program.validate p = .ok ()) (hv' : program'.validate p = .ok ())
    (hwords : program.words = program'.words) (hoverrides : program.overrides = program'.overrides)
    (hsteps : program.steps.take k = program'.steps.take k) :
    ∃ m m', Machine.load p program = .ok m ∧ Machine.load p program' = .ok m' ∧
      ∀ i < k,
        (m.advances i).advance.2.map StepRecord.account =
          (m'.advances i).advance.2.map StepRecord.account ∧
        (m.advances (i + 1)).storage = (m'.advances (i + 1)).storage ∧
        (m.advances (i + 1)).control = (m'.advances (i + 1)).control ∧
        (m.advances (i + 1)).cursor = (m'.advances (i + 1)).cursor ∧
        (m.advances (i + 1)).fault = (m'.advances (i + 1)).fault ∧
        ((program.steps.length = i + 1 ↔ program'.steps.length = i + 1) →
          (m.advances (i + 1)).state = (m'.advances (i + 1)).state) := by
  have hwf := Program.validate_eq_ok_iff.mp hv
  have hwf' := Program.validate_eq_ok_iff.mp hv'
  have hs : (Machine.fresh p program).Sound p program := Machine.fresh_sound hp
  have hs' : (Machine.fresh p program').Sound p program' := Machine.fresh_sound hp
  have hstorage : program.declared p = program'.declared p := by
    rw [Program.declared, Program.declared, hwords, hoverrides]
  have hstart : (Machine.fresh p program).Matches (Machine.fresh p program') := by
    refine ⟨rfl, hstorage, rfl, rfl, rfl, ?_⟩
    intro (hend : program.steps.length ≤ 0 ↔ program'.steps.length ≤ 0)
    simp only [Machine.fresh, RunState.initial, ← Nat.le_zero, hend]
  refine ⟨_, _, Machine.load_of_validate hp hv, Machine.load_of_validate hp hv', ?_⟩
  intro i hi
  have hshared : program.steps.take (i + 1) = program'.steps.take (i + 1) := by
    have hle : i + 1 ≤ k := hi
    rw [← Nat.min_eq_left hle, ← List.take_take, hsteps, List.take_take]
  have hbound : ∀ j, ((Machine.fresh p program).advances j).cursor ≤ j := fun j ↦
    Nat.le_trans (Machine.cursor_advances_le _ j) (Nat.le_of_eq (Nat.zero_add j))
  have hbefore := hstart.advances hs hs' hshared hwf hwf' (i := i) (by simp [Machine.fresh])
  have hstep := hbefore.step_eq (hs.advances hwf i) (hs'.advances hwf' i) hshared
    (Nat.lt_succ_of_le (hbound i))
  obtain ⟨hresult, hafter⟩ := hbefore.advance hstep
  refine ⟨hresult, hafter.storage, hafter.control, hafter.cursor, hafter.fault, ?_⟩
  exact Machine.Matches.state_eq (hs.advances hwf (i + 1)) (hs'.advances hwf' (i + 1)) hshared
    hafter (hbound (i + 1))

/-- Breaking off before the division shows in nothing but the run state. -/
theorem advances_storeThenDivide_upTo_division :
    ∃ m m', Machine.load .ias .storeThenDivide = .ok m ∧
      Machine.load .ias (Program.storeThenDivide.upTo 3) = .ok m' ∧
      (m.advances 2).advance.2.map StepRecord.account =
        (m'.advances 2).advance.2.map StepRecord.account ∧
      (m.advances 3).storage = (m'.advances 3).storage ∧
      (m.advances 2).state = (m'.advances 2).state ∧
      (m.advances 3).state = .running ∧ (m'.advances 3).state = .completed := by
  have hp : Profile.ias.Registered := ⟨.ias, .simplified, rfl⟩
  have hv : Program.storeThenDivide.validate .ias = .ok () := rfl
  obtain ⟨m, m', hm, hm', h⟩ := advances_depend_on_taken_steps (k := 3) hp hv
    (Program.validate_upTo hv 3) rfl rfl rfl
  obtain ⟨hresult, hstorage, -⟩ := h 2 (by decide)
  obtain ⟨-, -, -, -, -, hstate⟩ := h 1 (by decide)
  refine ⟨m, m', hm, hm', hresult, hstorage, hstate (by decide), ?_⟩
  obtain ⟨-, rfl⟩ := (Machine.load_eq_ok_iff hp).mp hm
  obtain ⟨-, rfl⟩ := (Machine.load_eq_ok_iff hp).mp hm'
  exact ⟨by decide +kernel, by decide +kernel⟩

end FetchExecute
