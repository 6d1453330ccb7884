import FetchExecute.Proofs.History

/-!
# The life of a machine

The run state of a machine, its cursor, the length of its program and its fault
are stored apart and change apart.  `Machine.Lifecycle` is how they belong
together in every machine that can be reached:

| state | cursor | fault |
|---|---|---|
| loaded | zero, with steps to take | none |
| running | between the two ends | none |
| completed | at the end | none |
| aborted | before the end | that of the step under the cursor, if it failed |
-/

namespace FetchExecute

/-! ## Kinds of faults -/

/-- What a step raises is for the author of the program to mend. -/
theorem MicroOp.kind_of_hazard? {op : MicroOp} {s : Storage} {fault : Fault}
    (h : op.hazard? s = some fault) : fault.kind = .programData := by
  unfold hazard? at h
  split at h
  · split at h
    · obtain rfl := Option.some.inj h
      rfl
    · cases h
  · split at h
    · obtain rfl := Option.some.inj h
      rfl
    · cases h
  · split at h
    · obtain rfl := Option.some.inj h
      rfl
    · cases h
  · cases h

/-- Faults of a program end its run. -/
theorem Fault.isFatal_of_programData {fault : Fault} (h : fault.kind = .programData) :
    fault.isFatal = true := by
  rw [isFatal, h]
  rfl

/-- Faults of a program are never mistaken for a refusal. -/
theorem Fault.ne_finished_of_programData {fault : Fault} (h : fault.kind = .programData)
    (s : RunState) : fault ≠ .finished s := by
  rintro rfl
  cases h

/-! ## Run states -/

namespace RunState

/-- The state of a machine that has taken `cursor` of `total` steps, if nothing has stopped it. -/
def reached (cursor total : Nat) : RunState :=
  if cursor = total then .completed else if cursor = 0 then .loaded else .running

/-- Before the first step, the state is that of a machine which has taken none. -/
theorem initial_eq_reached (total : Nat) : initial total = reached 0 total := by
  unfold initial reached
  by_cases h : total = 0
  · rw [if_pos h, if_pos h.symm]
  · rw [if_neg h, if_neg (Ne.symm h), if_pos rfl]

/-- After a step, the state is that of a machine which has taken one more. -/
theorem afterStep_eq_reached {cursor total : Nat} (h : cursor < total) :
    afterStep (cursor + 1) total = reached (cursor + 1) total := by
  unfold afterStep reached
  by_cases hend : cursor + 1 = total
  · rw [if_pos (Nat.le_of_eq hend.symm), if_pos hend]
  · rw [if_neg (by omega), if_neg hend, if_neg (Nat.succ_ne_zero cursor)]

theorem afterStep_eq_completed_iff {cursor total : Nat} :
    afterStep cursor total = .completed ↔ total ≤ cursor := by
  unfold afterStep
  split <;> simp [*]

theorem reached_eq_loaded_iff {cursor total : Nat} :
    reached cursor total = .loaded ↔ cursor ≠ total ∧ cursor = 0 := by
  grind [reached]

theorem reached_eq_running_iff {cursor total : Nat} :
    reached cursor total = .running ↔ cursor ≠ total ∧ cursor ≠ 0 := by
  grind [reached]

theorem reached_eq_completed_iff {cursor total : Nat} :
    reached cursor total = .completed ↔ cursor = total := by
  grind [reached]

theorem isLive_eq_true_iff {s : RunState} : s.isLive = true ↔ s = .loaded ∨ s = .running := by
  cases s <;> simp [isLive]

theorem isLive_eq_false_iff {s : RunState} : s.isLive = false ↔ s = .completed ∨ s = .aborted := by
  cases s <;> simp [isLive]

/-- A machine goes on unless the step was the last one. -/
theorem isLive_afterStep_eq (cursor total : Nat) :
    (afterStep cursor total).isLive = !decide (afterStep cursor total = .completed) := by
  unfold afterStep
  split <;> rfl

end RunState

/-! ## Machines -/

namespace Machine

/-- Where the cursor stands tells the state of a machine that has not been aborted, and only a
machine that has been aborted holds a fault. -/
structure Lifecycle (m : Machine) : Prop where
  cursor_le : m.cursor ≤ m.total
  state_eq : m.state ≠ .aborted → m.state = .reached m.cursor m.total
  cursor_lt : m.state = .aborted → m.cursor < m.total
  fault : ∀ {fault : Fault}, m.fault = some fault →
    m.state = .aborted ∧ fault.kind = .programData

namespace Lifecycle

variable {p : Profile} {program : Program} {m : Machine}

theorem fresh (p : Profile) (program : Program) : (fresh p program).Lifecycle where
  cursor_le := Nat.zero_le _
  state_eq := fun _ ↦ RunState.initial_eq_reached _
  cursor_lt := fun h ↦ absurd h (RunState.initial_ne_aborted _)
  fault := nofun

section

variable (h : m.Lifecycle)
include h

theorem cursor_lt_total (hlive : m.state.isLive = true) : m.cursor < m.total := by
  refine Nat.lt_of_le_of_ne h.cursor_le fun hend ↦ ?_
  rw [h.state_eq (RunState.ne_aborted_of_isLive hlive), RunState.reached, if_pos hend] at hlive
  cases hlive

theorem fault_eq_none (hlive : m.state.isLive = true) : m.fault = none :=
  fault_eq_none_of_isLive (fun hf ↦ (h.fault hf).1) hlive

/-- The invariant is preserved by every step. -/
theorem advance (hspec : Advance p program m m.advance) : m.advance.1.Lifecycle := by
  cases hadvance : m.advance with | mk m' result
  rw [hadvance] at hspec
  cases hspec with
  | refused => exact h
  | faulted hlive _ hhazard =>
    exact {
      cursor_le := h.cursor_le
      state_eq := fun hne ↦ absurd rfl hne
      cursor_lt := fun _ ↦ h.cursor_lt_total hlive
      fault := by
        rintro fault ⟨⟩
        exact ⟨rfl, MicroOp.kind_of_hazard? hhazard⟩ }
  | applied hlive =>
    have hlt := h.cursor_lt_total hlive
    exact {
      cursor_le := hlt
      state_eq := fun _ ↦ RunState.afterStep_eq_reached hlt
      cursor_lt := fun haborted ↦ absurd haborted (RunState.afterStep_ne_aborted _ _)
      fault := fun hf ↦ nomatch (h.fault_eq_none hlive).symm.trans hf }

theorem abort : m.abort.1.Lifecycle := by
  cases hlive : m.state.isLive with
  | false => rwa [abort_of_stopped hlive]
  | true =>
    rw [abort_of_live hlive]
    exact {
      cursor_le := h.cursor_le
      state_eq := fun hne ↦ absurd rfl hne
      cursor_lt := fun _ ↦ h.cursor_lt_total hlive
      fault := fun hf ↦ nomatch (h.fault_eq_none hlive).symm.trans hf }

/-! ### What the state tells -/

/-- Unless a machine is aborted, its state is what the cursor says. -/
theorem state_eq_iff {s : RunState} (hs : s ≠ .aborted) :
    m.state = s ↔ m.state ≠ .aborted ∧ .reached m.cursor m.total = s := by
  constructor
  · rintro rfl
    exact ⟨hs, (h.state_eq hs).symm⟩
  · rintro ⟨hne, hreached⟩
    exact (h.state_eq hne).trans hreached

/-- A loaded machine has taken no step, and has one to take. -/
theorem loaded_iff : m.state = .loaded ↔ m.state ≠ .aborted ∧ m.cursor = 0 ∧ 0 < m.total := by
  rw [h.state_eq_iff (s := .loaded) nofun, RunState.reached_eq_loaded_iff]
  exact and_congr_right fun _ ↦ by omega

/-- A running machine has taken a step, and has one to take. -/
theorem running_iff :
    m.state = .running ↔ m.state ≠ .aborted ∧ 0 < m.cursor ∧ m.cursor < m.total := by
  have hle := h.cursor_le
  rw [h.state_eq_iff (s := .running) nofun, RunState.reached_eq_running_iff]
  exact and_congr_right fun _ ↦ by omega

/-- A completed machine has taken all steps. -/
theorem completed_iff : m.state = .completed ↔ m.state ≠ .aborted ∧ m.cursor = m.total := by
  rw [h.state_eq_iff (s := .completed) nofun, RunState.reached_eq_completed_iff]

end

end Lifecycle

/-- The invariant holds of every reachable machine. -/
theorem Reachable.lifecycle {p : Profile} {program : Program} {m : Machine}
    (h : Reachable p program m) (hp : p.Registered) : m.Lifecycle := by
  induction h with
  | load hl =>
    obtain ⟨-, rfl⟩ := (load_eq_ok_iff hp).mp hl
    exact .fresh p program
  | advance h ih => exact ih.advance (h.advance_spec hp)
  | abort _ ih => exact ih.abort
  | reset h _ =>
    rw [(h.sound hp).reset_eq (h.wellFormed hp) hp]
    exact .fresh p program

end Machine

end FetchExecute
