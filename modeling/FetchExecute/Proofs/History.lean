import FetchExecute.Proofs.Reachability

/-!
# The history of a machine

A machine may have been advanced, aborted and reset in any order, with calls
refused and steps failing in between, and nothing of that order is left in it.
What it holds is what a freshly loaded machine holds after as many advances as
its cursor counts, none of which fails, and then at most one more thing: the
abort or the failing step that stopped it (`Machine.History`).  In particular it
can always be reset, and is as good as new then.

`Machine.Advance` lists what an advance can do, and is what all results about
sequences of calls are derived from.
-/

namespace FetchExecute

theorem RunState.ne_aborted_of_isLive {s : RunState} (h : s.isLive = true) : s ≠ .aborted := by
  rintro rfl
  cases h

theorem RunState.initial_ne_aborted (total : Nat) : initial total ≠ .aborted := by
  unfold initial
  split <;> nofun

theorem RunState.afterStep_ne_aborted (cursor total : Nat) : afterStep cursor total ≠ .aborted := by
  unfold afterStep
  split <;> nofun

namespace Machine

/-- Where a fault is kept only by machines that were aborted, those that may go on have none. -/
theorem fault_eq_none_of_isLive {m : Machine}
    (h : ∀ {fault : Fault}, m.fault = some fault → m.state = .aborted)
    (hlive : m.state.isLive = true) : m.fault = none := by
  cases hf : m.fault with
  | none => rfl
  | some fault => exact absurd (h hf) (RunState.ne_aborted_of_isLive hlive)

/-! ## What an advance does -/

/-- The machine and the result that an advance can lead to. -/
inductive Advance (p : Profile) (program : Program) (m : Machine) :
    Machine × Except Fault StepRecord → Prop
  /-- Nothing happens to a machine that has stopped. -/
  | refused : m.state.isLive = false → Advance p program m (m, .error (.finished m.state))
  | faulted {step : MicroStep} {fault : Fault} : m.state.isLive = true →
      program.steps[m.cursor]? = some step → step.op.hazard? m.storage = some fault →
      Advance p program m ({ m with state := .aborted, fault := some fault }, .error fault)
  | applied {step : MicroStep} {e : Effect} : m.state.isLive = true →
      program.steps[m.cursor]? = some step → step.op.hazard? m.storage = none →
      e.memoryRead = step.op.memoryRead? m.storage →
      e.memoryWrite = step.op.memoryWrite? m.storage →
      Advance p program m
        (m.advanced step (step.op.perform p m.storage),
          .ok ⟨m.cursor, step, e, m.control.track step.kind,
            .afterStep (m.cursor + 1) program.steps.length⟩)

variable {p : Profile} {program : Program} {m : Machine}

/-- A step of a sound machine falls under one of the cases of `Advance`. -/
theorem Sound.advance_spec (h : m.Sound p program) (hwf : program.WellFormed p) :
    Advance p program m m.advance := by
  cases hlive : m.state.isLive with
  | false =>
    rw [advance_of_stopped hlive]
    exact .refused hlive
  | true =>
    obtain ⟨step, hstep⟩ := h.exists_step hlive
    cases hs : step.op.hazard? m.storage with
    | some fault =>
      rw [h.advance_of_hazard hwf hlive hstep hs]
      exact .faulted hlive hstep hs
    | none =>
      obtain ⟨e, he, -, hadvance⟩ := h.advance_of_safe hwf hlive hstep hs
      obtain ⟨e', he', -, hread, hwrite, -⟩ :=
        MicroStep.effect_of_safe (p := p) (hwf.present h.fits hstep) hs
      obtain rfl : e' = e := Except.ok.inj (he'.symm.trans he)
      rw [hadvance]
      exact .applied hlive hstep hs hread hwrite

/-- A step of a reachable machine falls under one of the cases of `Advance`. -/
theorem Reachable.advance_spec (h : Reachable p program m) (hp : p.Registered) :
    Advance p program m m.advance := (h.sound hp).advance_spec (h.wellFormed hp)

theorem Reachable.advances (h : Reachable p program m) (k : Nat) :
    Reachable p program (m.advances k) := by
  induction k with
  | zero => exact h
  | succ k ih => exact ih.advance

/-! ## Histories -/

/-- The machine `m₀` becomes `m` by advances alone, up to what has stopped it. -/
structure History (m₀ m : Machine) : Prop where
  /-- None of the advances that the cursor counts fails. -/
  applied : ∀ k < m.cursor, ∃ record, (m₀.advances k).advance.2 = .ok record
  unbroken : m.state ≠ .aborted → m = m₀.advances m.cursor
  aborted : m.state = .aborted → m.fault = none → (m₀.advances m.cursor).abort = (m, .ok ())
  faulted : ∀ {fault : Fault}, m.fault = some fault →
    m.state = .aborted ∧ (m₀.advances m.cursor).advance = (m, .error fault)

/-- The invariant holds initially. -/
theorem History.fresh (p : Profile) (program : Program) :
    (fresh p program).History (fresh p program) where
  applied := nofun
  unbroken := fun _ ↦ rfl
  aborted := fun h ↦ absurd h (RunState.initial_ne_aborted _)
  faulted := nofun

namespace History

variable {m₀ : Machine} (h : m₀.History m)
include h

/-- As long as a machine goes on, it is the fresh one advanced as far as the cursor says. -/
theorem eq_advances (hlive : m.state.isLive = true) : m₀.advances m.cursor = m :=
  (h.unbroken (RunState.ne_aborted_of_isLive hlive)).symm

theorem fault_eq_none (hlive : m.state.isLive = true) : m.fault = none :=
  fault_eq_none_of_isLive (fun hf ↦ (h.faulted hf).1) hlive

/-- The invariant is preserved by every step. -/
theorem advance (hs : m.Sound p program) (hwf : program.WellFormed p) :
    m₀.History m.advance.1 := by
  have hspec := hs.advance_spec hwf
  cases hadvance : m.advance with | mk m' result
  rw [hadvance] at hspec
  cases hspec with
  | refused => exact h
  | faulted hlive =>
    have heq := h.eq_advances hlive
    exact {
      applied := h.applied
      unbroken := fun hne ↦ absurd rfl hne
      aborted := nofun
      faulted := by
        rintro fault ⟨⟩
        exact ⟨rfl, (congrArg Machine.advance heq).trans hadvance⟩ }
  | applied hlive =>
    have heq := h.eq_advances hlive
    have hnext : (m₀.advances m.cursor).advance = _ := (congrArg Machine.advance heq).trans hadvance
    exact {
      applied := by
        intro k hk
        rcases Nat.lt_succ_iff_lt_or_eq.mp hk with hlt | rfl
        · exact h.applied k hlt
        · exact ⟨_, congrArg Prod.snd hnext⟩
      unbroken := fun _ ↦ (congrArg Prod.fst hnext).symm
      aborted := fun haborted ↦ absurd haborted (RunState.afterStep_ne_aborted _ _)
      faulted := fun hf ↦ nomatch (h.fault_eq_none hlive).symm.trans hf }

/-- The invariant is preserved by aborting. -/
theorem abort : m₀.History m.abort.1 := by
  cases hlive : m.state.isLive with
  | false => rwa [abort_of_stopped hlive]
  | true =>
    have heq := h.eq_advances hlive
    rw [abort_of_live hlive]
    exact {
      applied := h.applied
      unbroken := fun hne ↦ absurd rfl hne
      aborted := fun _ _ ↦ (congrArg Machine.abort heq).trans (abort_of_live hlive)
      faulted := fun hf ↦ nomatch (h.fault_eq_none hlive).symm.trans hf }

end History

/-- The invariant holds of every reachable machine. -/
theorem Reachable.history (h : Reachable p program m) (hp : p.Registered) :
    (Machine.fresh p program).History m := by
  induction h with
  | load hl =>
    obtain ⟨-, rfl⟩ := (load_eq_ok_iff hp).mp hl
    exact .fresh p program
  | advance h ih => exact ih.advance (h.sound hp) (h.wellFormed hp)
  | abort _ ih => exact ih.abort
  | reset h _ =>
    rw [(h.sound hp).reset_eq (h.wellFormed hp) hp]
    exact .fresh p program

end Machine

/-- Whatever has been called on a machine, it is a freshly loaded one after the advances that its
cursor counts and what stopped it, if anything has; and a reset makes it a freshly loaded one. -/
theorem history_of_reachable {p : Profile} {program : Program} {m : Machine} (hp : p.Registered)
    (h : Machine.Reachable p program m) :
    ∃ m₀, Machine.load p program = .ok m₀ ∧ m₀.History m ∧ m.reset = (m₀, .ok ()) := by
  have hwf := h.wellFormed hp
  exact ⟨_, (Machine.load_eq_ok_iff hp).mpr ⟨hwf, rfl⟩, h.history hp, (h.sound hp).reset_eq hwf hp⟩

/-- Stores a word and then divides by a register that holds zero. -/
def Program.storeThenDivide : Program where
  name := "Store, then divide by zero"
  words := [(12, 7)]
  overrides := [(.mar, 12), (.ac, 80), (.mq, 0)]
  steps :=
    [.execute (.copy .ac .mbr), .execute (.writeMemory .mar .mbr), .execute (.signal .div),
     .execute (.combine .div .ac .mq .mq (some .ac))]

theorem Machine.load_storeThenDivide :
    load .ias .storeThenDivide = .ok (fresh .ias .storeThenDivide) :=
  load_of_validate ⟨.ias, .simplified, rfl⟩ rfl

theorem Machine.stopped_storeThenDivide :
    ((fresh .ias .storeThenDivide).advances 4).cursor = 3 ∧
      ((fresh .ias .storeThenDivide).advances 4).fault = some (.divisionByZero .mq) := by
  decide +kernel

theorem history_storeThenDivide :
    ∃ m₀, Machine.load .ias .storeThenDivide = .ok m₀ ∧
      m₀.storage.word 12 = 7 ∧ (m₀.advances 4).storage.word 12 = 80 ∧
      (m₀.advances 3).advance = (m₀.advances 4, .error (.divisionByZero .mq)) ∧
      (m₀.advances 4).abort.1.reset = (m₀, .ok ()) := by
  have hp : Profile.ias.Registered := ⟨.ias, .simplified, rfl⟩
  have hl := Machine.load_storeThenDivide
  have hr := (Machine.Reachable.load hl).advances 4
  obtain ⟨m₀, hm₀, h, -⟩ := history_of_reachable hp hr
  obtain ⟨m₁, hm₁, -, hreset⟩ := history_of_reachable hp hr.abort
  obtain rfl : Machine.fresh .ias .storeThenDivide = m₀ := Except.ok.inj (hl.symm.trans hm₀)
  obtain rfl : Machine.fresh .ias .storeThenDivide = m₁ := Except.ok.inj (hl.symm.trans hm₁)
  obtain ⟨hcursor, hfault⟩ := Machine.stopped_storeThenDivide
  have hlast := (h.faulted hfault).2
  rw [hcursor] at hlast
  exact ⟨_, hl, by decide +kernel, by decide +kernel, hlast, hreset⟩

end FetchExecute
