import FetchExecute.Engine
import FetchExecute.Proofs.Effect
import FetchExecute.Proofs.Profile
import FetchExecute.Proofs.Validation

/-!
# Reachable machines

`Machine.Reachable` collects the machines that come up when a program is loaded
and then advanced, aborted and reset in any order, and `Engine.Reachable` the
engines that come up when programs are loaded in between as well.  A call that
is refused or fails counts as a step of such a sequence like any other.

All of them are sound (`Machine.Sound`): storage fits the profile, and a machine
that may go on has a step under its cursor.  From a sound machine an advance
does one of three things, one lemma each:

* it is refused, as the machine has stopped (`Machine.advance_of_stopped`);
* the step raises its hazard, which changes the run state only
  (`Machine.Sound.advance_of_hazard`);
* the step is performed (`Machine.Sound.advance_of_safe`).

What a reachable machine is therefore never depends on how an effect is computed
or committed.
-/

namespace FetchExecute

/-! ## Loading -/

/-- The machine that a program starts with. -/
def Machine.fresh (p : Profile) (program : Program) : Machine where
  profile := p
  program := program
  storage := program.declared p
  control := .idle
  cursor := 0
  state := .initial program.steps.length
  fault := none

section

variable {p : Profile} {program : Program}

/-- Restoring a machine takes it to where loading its program would, if its memory is that of the
profile: no register, no word and no status outlives it. -/
theorem Program.WellFormed.restore_eq (h : program.WellFormed p) (hp : p.Registered) {m : Machine}
    (hprofile : m.profile = p) (hprogram : m.program = program)
    (hsize : m.storage.memory.size = p.memoryWords)
    (hbits : m.storage.memory.wordBits = p.wordBits) :
    m.restore = .ok (Machine.fresh p program) := by
  subst hprofile hprogram
  rw [Machine.restore, h.initialStorage_eq hp.nodup hsize hbits]
  rfl

/-- A well-formed program starts without a fault, at the fresh machine. -/
theorem Program.WellFormed.start_eq (h : program.WellFormed p) (hp : p.Registered) :
    Machine.start p program = .ok (Machine.fresh p program) :=
  h.restore_eq hp rfl rfl (Memory.size_zero _ _) rfl

/-- What validation accepts can be loaded, and nothing else. -/
theorem Machine.load_eq_ok_iff (hp : p.Registered) {m : Machine} :
    Machine.load p program = .ok m ↔ program.WellFormed p ∧ m = Machine.fresh p program := by
  constructor
  · intro h
    cases hv : program.validate p with
    | error fault => simp [Machine.load, hv, bind, Except.bind] at h
    | ok _ =>
      have hwf : program.WellFormed p := Program.validate_eq_ok_iff.mp hv
      rw [Machine.load, hv, hwf.start_eq hp] at h
      exact ⟨hwf, (Except.ok.inj h).symm⟩
  · rintro ⟨hwf, rfl⟩
    rw [Machine.load, Program.validate_eq_ok_iff.mpr hwf, hwf.start_eq hp]
    rfl

theorem Machine.load_of_validate (hp : p.Registered) (hv : program.validate p = .ok ()) :
    Machine.load p program = .ok (Machine.fresh p program) :=
  (Machine.load_eq_ok_iff hp).mpr ⟨Program.validate_eq_ok_iff.mp hv, rfl⟩

end

/-! ## Sequences of calls -/

/-- The machines that are reached from loading a program by advancing, aborting and resetting. -/
inductive Machine.Reachable (p : Profile) (program : Program) : Machine → Prop
  | load {m : Machine} : Machine.load p program = .ok m → Reachable p program m
  | advance {m : Machine} : Reachable p program m → Reachable p program m.advance.1
  | abort {m : Machine} : Reachable p program m → Reachable p program m.abort.1
  | reset {m : Machine} : Reachable p program m → Reachable p program m.reset.1

/-- The engines that are reached from the empty one by every operation there is. -/
inductive Engine.Reachable : Engine → Prop
  | empty : Reachable .empty
  | load {e : Engine} {p : Profile} (program : Program) :
      p.Registered → Reachable e → Reachable (e.load p program).1
  | advance {e : Engine} : Reachable e → Reachable e.advance.1
  | abort {e : Engine} : Reachable e → Reachable e.abort.1
  | reset {e : Engine} : Reachable e → Reachable e.reset.1

theorem Engine.machine?_lift {α : Type} (f : Machine → Machine × Except Fault α) (e : Engine) :
    (e.lift f).1.machine? = e.machine?.map fun m => (f m).1 := by
  cases h : e.machine? <;> simp [lift, h]

theorem Engine.exists_of_machine?_lift {α : Type} {f : Machine → Machine × Except Fault α}
    {e : Engine} {m : Machine} (h : (e.lift f).1.machine? = some m) :
    ∃ old, e.machine? = some old ∧ (f old).1 = m := by
  rwa [machine?_lift, Option.map_eq_some_iff] at h

/-- What an engine holds has been reached from loading the program that it now runs. -/
theorem Engine.Reachable.machine_reachable {e : Engine} (h : Engine.Reachable e) {m : Machine}
    (hm : e.machine? = some m) :
    ∃ p program, p.Registered ∧ Machine.Reachable p program m := by
  induction h generalizing m with
  | empty => cases hm
  | @load e p program hp _ ih =>
    cases hl : Machine.load p program with
    | error fault =>
      rw [Engine.load, hl] at hm
      exact ih hm
    | ok loaded =>
      rw [Engine.load, hl] at hm
      obtain rfl : loaded = m := Option.some.inj hm
      exact ⟨p, program, hp, .load hl⟩
  | advance _ ih =>
    obtain ⟨old, hold, rfl⟩ := exists_of_machine?_lift hm
    obtain ⟨p, program, hp, hr⟩ := ih hold
    exact ⟨p, program, hp, hr.advance⟩
  | abort _ ih =>
    obtain ⟨old, hold, rfl⟩ := exists_of_machine?_lift hm
    obtain ⟨p, program, hp, hr⟩ := ih hold
    exact ⟨p, program, hp, hr.abort⟩
  | reset _ ih =>
    obtain ⟨old, hold, rfl⟩ := exists_of_machine?_lift hm
    obtain ⟨p, program, hp, hr⟩ := ih hold
    exact ⟨p, program, hp, hr.reset⟩

/-! ## Soundness -/

theorem RunState.isLive_initial {total : Nat} (h : (initial total).isLive = true) :
    0 < total := by
  refine Nat.pos_of_ne_zero fun hzero ↦ ?_
  rw [hzero] at h
  cases h

theorem RunState.isLive_afterStep {cursor total : Nat}
    (h : (afterStep cursor total).isLive = true) : cursor < total := by
  rw [afterStep] at h
  split at h
  · cases h
  · exact Nat.lt_of_not_le ‹_›

/-- What is true of a machine from loading on. -/
structure Machine.Sound (p : Profile) (program : Program) (m : Machine) : Prop where
  profile_eq : m.profile = p
  program_eq : m.program = program
  fits : m.storage.Fits p
  cursor_le : m.cursor ≤ program.steps.length
  live : m.state.isLive = true → m.cursor < program.steps.length

/-- The registers that a step of an accepted program names are there in any storage of the profile.
-/
theorem Program.WellFormed.present {p : Profile} {program : Program} (h : program.WellFormed p)
    {s : Storage} (hs : s.Fits p) {i : Nat} {step : MicroStep}
    (hstep : program.steps[i]? = some step) : step.op.Present s := by
  intro r hr
  rw [hs.contains_eq r]
  exact h.hasRegister (List.mem_of_getElem? hstep) hr

namespace Machine

variable {p : Profile} {program : Program} {m : Machine}

/-- The invariant holds initially. -/
theorem fresh_sound (hp : p.Registered) : (fresh p program).Sound p program where
  profile_eq := rfl
  program_eq := rfl
  fits := Program.declared_fits hp.nodup
  cursor_le := Nat.zero_le _
  live := RunState.isLive_initial

/-- The machine after a number of calls of `advance`. -/
def advances (m : Machine) : Nat → Machine
  | 0 => m
  | k + 1 => (m.advances k).advance.1

/-- An advance keeps the program, and takes one step of it or none. -/
theorem program_cursor_advance (m : Machine) :
    m.advance.1.program = m.program ∧
      (m.advance.1.cursor = m.cursor ∨ m.advance.1.cursor = m.cursor + 1) := by
  rw [Machine.advance]
  split
  · cases m.program.steps[m.cursor]? with
    | none => exact ⟨rfl, .inl rfl⟩
    | some step =>
      simp only [apply]
      cases step.effect m.profile m.storage with
      | error fault => exact ⟨rfl, .inl rfl⟩
      | ok e =>
        simp only []
        rcases e.commit m.profile.architecture m.storage with ⟨s, fault | _⟩
        · exact ⟨rfl, .inl rfl⟩
        · exact ⟨rfl, .inr rfl⟩
  · exact ⟨rfl, .inl rfl⟩

/-- The cursor never moves back. -/
theorem cursor_le_advance (m : Machine) : m.cursor ≤ m.advance.1.cursor := by
  obtain ⟨-, hcursor⟩ := m.program_cursor_advance
  omega

theorem cursor_advance_le (m : Machine) : m.advance.1.cursor ≤ m.cursor + 1 := by
  obtain ⟨-, hcursor⟩ := m.program_cursor_advance
  omega

/-- A stopped machine refuses to advance, and stays as it is. -/
theorem advance_of_stopped (h : m.state.isLive = false) :
    m.advance = (m, .error (.finished m.state)) := by
  simp [advance, h]

theorem abort_of_stopped (h : m.state.isLive = false) :
    m.abort = (m, .error (.finished m.state)) := by
  simp [abort, h]

theorem abort_of_live (h : m.state.isLive = true) :
    m.abort = ({ m with state := .aborted }, .ok ()) := by
  simp [abort, h]

namespace Sound

variable (h : m.Sound p program)
include h

theorem exists_step (hlive : m.state.isLive = true) :
    ∃ step, program.steps[m.cursor]? = some step :=
  ⟨_, List.getElem?_eq_getElem (h.live hlive)⟩

theorem advance_eq_apply (hlive : m.state.isLive = true) {step : MicroStep}
    (hstep : program.steps[m.cursor]? = some step) : m.advance = m.apply step := by
  rw [advance, if_pos hlive, h.program_eq, hstep]

variable {step : MicroStep} (hwf : program.WellFormed p) (hlive : m.state.isLive = true)
  (hstep : program.steps[m.cursor]? = some step)
include hwf hlive hstep

/-- A step with a hazard stops the machine: the fault is latched and nothing else changes. -/
theorem advance_of_hazard {fault : Fault} (hf : step.op.hazard? m.storage = some fault) :
    m.advance = ({ m with state := .aborted, fault := some fault }, .error fault) := by
  rw [h.advance_eq_apply hlive hstep, apply,
    MicroStep.effect_of_hazard (hwf.present h.fits hstep) hf]

/-- A step without a hazard succeeds, and all that it leaves behind is known in closed form. -/
theorem advance_of_safe (hs : step.op.hazard? m.storage = none) :
    ∃ e, step.effect p m.storage = .ok e ∧
      e.registerWrites = step.op.transfers p m.storage ∧
      m.advance =
        (m.advanced step (step.op.perform p m.storage),
          .ok ⟨m.cursor, step, e, m.control.track step.kind,
            .afterStep (m.cursor + 1) program.steps.length⟩) := by
  obtain ⟨e, he, hwrites, -, -, hcommit⟩ :=
    MicroStep.effect_of_safe (p := p) (hwf.present h.fits hstep) hs
  refine ⟨e, he, hwrites, ?_⟩
  rw [h.advance_eq_apply hlive hstep, apply, h.profile_eq, he]
  simp only [hcommit, advanced, total, h.program_eq]

omit hwf hlive hstep in
/-- The invariant is preserved by a step that succeeds, whatever it performs. -/
theorem advanced (hcursor : m.cursor < program.steps.length) (op : MicroOp) (step : MicroStep) :
    (m.advanced step (op.perform p m.storage)).Sound p program where
  profile_eq := h.profile_eq
  program_eq := h.program_eq
  fits := h.fits.perform op
  cursor_le := hcursor
  live := by
    intro hlive
    have hlt := RunState.isLive_afterStep hlive
    rwa [total, h.program_eq] at hlt

end Sound

/-! ### Preservation -/

namespace Sound

variable (h : m.Sound p program)
include h

/-- Soundness does not depend on the fault, and a machine that has stopped has nothing more to
promise. -/
theorem stop (fault : Option Fault) :
    { m with state := .aborted, fault := fault }.Sound p program where
  profile_eq := h.profile_eq
  program_eq := h.program_eq
  fits := h.fits
  cursor_le := h.cursor_le
  live := nofun

/-- The invariant is preserved by every step, failing ones included. -/
theorem advance (hwf : program.WellFormed p) : m.advance.1.Sound p program := by
  cases hlive : m.state.isLive with
  | false => rwa [advance_of_stopped hlive]
  | true =>
    obtain ⟨step, hstep⟩ := h.exists_step hlive
    cases hs : step.op.hazard? m.storage with
    | some fault =>
      rw [h.advance_of_hazard hwf hlive hstep hs]
      exact h.stop (some fault)
    | none =>
      obtain ⟨e, -, -, he⟩ := h.advance_of_safe hwf hlive hstep hs
      rw [he]
      exact h.advanced (h.live hlive) step.op step

/-- The invariant is preserved by any number of steps. -/
theorem advances (hwf : program.WellFormed p) (k : Nat) : (m.advances k).Sound p program := by
  induction k with
  | zero => exact h
  | succ k ih => exact ih.advance hwf

theorem abort : m.abort.1.Sound p program := by
  cases hlive : m.state.isLive with
  | false => rwa [abort_of_stopped hlive]
  | true =>
    rw [abort_of_live hlive]
    exact h.stop m.fault

/-- Resetting takes a machine to where loading its program would. -/
theorem reset_eq (hwf : program.WellFormed p) (hp : p.Registered) :
    m.reset = (fresh p program, .ok ()) := by
  rw [reset, hwf.restore_eq hp h.profile_eq h.program_eq h.fits.size h.fits.wordBits]

end Sound

namespace Reachable

/-- Only well-formed programs are ever loaded. -/
theorem wellFormed (h : Reachable p program m) (hp : p.Registered) : program.WellFormed p := by
  induction h with
  | load hl => exact ((load_eq_ok_iff hp).mp hl).1
  | advance _ ih => exact ih
  | abort _ ih => exact ih
  | reset _ ih => exact ih

/-- The invariant holds of every reachable machine. -/
theorem sound (h : Reachable p program m) (hp : p.Registered) : m.Sound p program := by
  induction h with
  | load hl =>
    obtain ⟨-, rfl⟩ := (load_eq_ok_iff hp).mp hl
    exact fresh_sound hp
  | advance h ih => exact ih.advance (h.wellFormed hp)
  | abort _ ih => exact ih.abort
  | reset h ih =>
    rw [ih.reset_eq (h.wellFormed hp) hp]
    exact fresh_sound hp

end Reachable

end Machine

/-! ## The data invariant -/

/-- No sequence of calls, however many of them fail, takes a machine out of its shape: the
registers and the memory of its profile, every value within the bits declared for it. -/
theorem storage_fits_of_reachable :
    (∀ {p : Profile} {program : Program} {m : Machine}, p.Registered →
      Machine.Reachable p program m → m.profile = p ∧ m.storage.Fits p) ∧
    ∀ {e : Engine} {m : Machine}, Engine.Reachable e → e.machine? = some m →
      m.profile.Registered ∧ m.storage.Fits m.profile := by
  constructor
  · intro p program m hp h
    exact ⟨(h.sound hp).profile_eq, (h.sound hp).fits⟩
  · intro e m he hm
    obtain ⟨p, program, hp, h⟩ := he.machine_reachable hm
    have hs := h.sound hp
    rw [hs.profile_eq]
    exact ⟨hp, hs.fits⟩

theorem storage_fits_hypotheticalSum :
    (∃ m, Machine.load .hypothetical Catalog.hypotheticalSum = .ok m ∧
      m.advance.1.abort.1.storage.Fits .hypothetical) ∧
    ∃ m, (Engine.empty.load .hypothetical Catalog.hypotheticalSum).1.advance.1.machine? = some m ∧
      m.storage.Fits m.profile := by
  have hp : Profile.hypothetical.Registered := ⟨.hypothetical, .simplified, rfl⟩
  have hv : Catalog.hypotheticalSum.validate .hypothetical = .ok () := rfl
  have hl := (Machine.load_eq_ok_iff hp).mpr ⟨Program.validate_eq_ok_iff.mp hv, rfl⟩
  refine ⟨⟨_, hl, (storage_fits_of_reachable.1 hp (.abort (.advance (.load hl)))).2⟩, ?_⟩
  refine ⟨(Machine.fresh .hypothetical Catalog.hypotheticalSum).advance.1, ?_, ?_⟩
  · rw [Engine.advance, Engine.machine?_lift, Engine.load, hl]
    rfl
  · refine (storage_fits_of_reachable.2 (.advance (.load Catalog.hypotheticalSum hp .empty)) ?_).2
    rw [Engine.advance, Engine.machine?_lift, Engine.load, hl]
    rfl

end FetchExecute
