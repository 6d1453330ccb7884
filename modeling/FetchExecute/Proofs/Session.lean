import FetchExecute.Proofs.Lifecycle

/-!
# Sessions under calls

What a host can call on a session are the operations of its machine, and runs to
the end of the program.  An advance does to the session what it does to the
machine, and says so in its events (`Session.Advance`).  The loop behind a run
has a bound on its length that it never meets: for a session that may go on,
`Session.runToCompletion` is a run in the sense of `Session.Runs`, which has no
bound (`Session.runs_runToCompletion`), and what advances preserve is preserved
by runs (`Session.Runs.preserves`).

`lifecycle_of_session` puts together what a host can rely on at any point of any
sequence of calls: how state, cursor and fault belong together
(`Session.Consistent`), how each call moves the cursor (`Session.Moves`), and
what the status line says (`Session.ShowsStatus`).
-/

namespace FetchExecute

namespace Session

/-- A program that is accepted gives a fresh session, without a sink. -/
theorem ofProgram_of_validate {p : Profile} {program : Program} (hp : p.Registered)
    (hv : program.validate p = .ok ()) (config : Config) :
    ofProgram p program config = .ok ⟨.fresh p program, config, false⟩ := by
  rw [ofProgram, Machine.load_of_validate hp hv]
  rfl

/-- A step changes nothing in a session but its machine. -/
theorem session_advance (s : Session) :
    s.advance.session = { s with machine := s.machine.advance.1 } := by
  unfold Session.advance
  split <;> simp [*]

theorem result_advance (s : Session) :
    s.advance.result = s.machine.advance.2.map StepRecord.report := by
  unfold Session.advance
  split <;> simp [*, Except.map]

/-! ## What an advance does -/

/-- The response that an advance can lead to. -/
inductive Advance (p : Profile) (program : Program) (s : Session) : Response StepReport → Prop
  | refused : s.state.isLive = false → Advance p program s ⟨s, [], .error (.finished s.state)⟩
  | faulted {step : MicroStep} {fault : Fault} : s.state.isLive = true →
      program.steps[s.cursor]? = some step → step.op.hazard? s.machine.storage = some fault →
      Advance p program s {
        session := { s with machine := { s.machine with state := .aborted, fault := some fault } }
        events := s.emitted [.faulted s.cursor fault]
        result := .error fault }
  | applied {step : MicroStep} {e : Effect} {r : StepRecord} : s.state.isLive = true →
      program.steps[s.cursor]? = some step → step.op.hazard? s.machine.storage = none →
      e.memoryRead = step.op.memoryRead? s.machine.storage →
      e.memoryWrite = step.op.memoryWrite? s.machine.storage →
      r = ⟨s.cursor, step, e, s.machine.control.track step.kind,
        .afterStep (s.cursor + 1) program.steps.length⟩ →
      Advance p program s {
        session :=
          { s with machine := s.machine.advanced step (step.op.perform p s.machine.storage) }
        events := s.emitted r.trace
        result := .ok r.report }

variable {p : Profile} {program : Program} {s : Session}

/-- A step of a reachable session falls under one of the cases of `Advance`. -/
theorem advance_spec (h : Machine.Reachable p program s.machine) (hp : p.Registered) :
    Advance p program s s.advance := by
  have hspec := h.advance_spec hp
  unfold Session.advance
  cases hadvance : s.machine.advance with | mk m' result
  rw [hadvance] at hspec
  cases hspec with
  | refused hstopped =>
    -- the fault of an aborted machine is never the refusal itself
    have hne : s.machine.fault ≠ some (.finished s.machine.state) := fun hf ↦
      Fault.ne_finished_of_programData ((h.lifecycle hp).fault hf).2 _ rfl
    simp only [if_neg hne]
    exact .refused hstopped
  | faulted hlive hstep hhazard =>
    simp only [if_pos]
    exact .faulted hlive hstep hhazard
  | applied hlive hstep hsafe hread hwrite => exact .applied hlive hstep hsafe hread hwrite rfl

theorem reachable_advance (h : Machine.Reachable p program s.machine) :
    Machine.Reachable p program s.advance.session.machine := by
  rw [session_advance]
  exact h.advance

/-- Aborting stops a live session and keeps all else. -/
theorem abort_of_live (h : s.state.isLive = true) :
    s.abort = ({ s with machine := { s.machine with state := .aborted } }, .ok ()) := by
  rw [abort, Machine.abort_of_live h]

/-- Resetting leads back to the fresh machine, whatever has happened. -/
theorem reset_eq (h : Machine.Reachable p program s.machine) (hp : p.Registered) :
    s.reset = ({ s with machine := .fresh p program }, .ok ()) := by
  rw [reset, (h.sound hp).reset_eq (h.wellFormed hp) hp]

/-! ## Runs -/

/-- A run from one session to another, with the events it emits and its report: advances, up to
the last step of the program or the first that fails. -/
inductive Runs : Session → Session → List Event → RunReport → Prop
  | last {s : Session} {report : StepReport} : s.advance.result = .ok report →
      report.isLast = true → Runs s s.advance.session s.advance.events ⟨1, .completed⟩
  | more {s s' : Session} {report : StepReport} {events : List Event} {run : RunReport} :
      s.advance.result = .ok report → report.isLast = false →
      Runs s.advance.session s' events run →
      Runs s s' (s.advance.events ++ events) { run with steps := run.steps + 1 }
  | fault {s : Session} {fault : Fault} : s.advance.result = .error fault →
      Runs s s.advance.session s.advance.events ⟨0, .faulted fault⟩

/-- What advances preserve of a session and a list of events, a run preserves. -/
theorem Runs.preserves {motive : Session → List Event → Prop}
    (hadvance : ∀ {s : Session} {events : List Event}, motive s events →
      motive s.advance.session (events ++ s.advance.events))
    {s s' : Session} {events : List Event} {run : RunReport} (h : Runs s s' events run)
    (earlier : List Event) (hs : motive s earlier) : motive s' (earlier ++ events) := by
  induction h generalizing earlier with
  | last => exact hadvance hs
  | more _ _ _ ih =>
    rw [← List.append_assoc]
    exact ih _ (hadvance hs)
  | fault => exact hadvance hs

theorem Runs.reachable {s s' : Session} {events : List Event} {run : RunReport}
    (h : Runs s s' events run) (hs : Machine.Reachable p program s.machine) :
    Machine.Reachable p program s'.machine :=
  h.preserves (motive := fun s _ ↦ Machine.Reachable p program s.machine) reachable_advance
    [] hs

/-- A session may go on after a step exactly if the step was not the last one. -/
theorem isLive_advance_of_ok (h : Machine.Reachable p program s.machine) (hp : p.Registered)
    {report : StepReport} (hr : s.advance.result = .ok report) :
    s.advance.session.state.isLive = !report.isLast := by
  have hspec := advance_spec h hp
  cases hadvance : s.advance with | mk next events result
  rw [hadvance] at hspec hr
  cases hspec with
  | refused => cases hr
  | faulted => cases hr
  | applied _ _ _ _ _ hrecord =>
    obtain rfl := Except.ok.inj hr
    show (RunState.afterStep (s.cursor + 1) s.machine.program.steps.length).isLive = _
    rw [StepRecord.report, hrecord, (h.sound hp).program_eq, RunState.isLive_afterStep_eq]

/-- The loop never comes to its bound, if that is no less than the number of steps left. -/
theorem runs_runSteps (hp : p.Registered) {n : Nat} (h : Machine.Reachable p program s.machine)
    (hlive : s.state.isLive = true) (hn : s.total ≤ s.cursor + n) :
    ∃ run, (s.runSteps n).result = .ok run ∧
      Runs s (s.runSteps n).session (s.runSteps n).events run := by
  induction n generalizing s with
  | zero => exact absurd ((h.lifecycle hp).cursor_lt_total hlive) (Nat.not_lt_of_le hn)
  | succ n ih =>
    have hspec := advance_spec h hp
    cases hadvance : s.advance with | mk next events result
    rw [hadvance] at hspec
    cases hspec with
    | refused hstopped => exact nomatch hlive.symm.trans hstopped
    | @faulted step fault _ _ hhazard =>
      -- the fault is latched, so the loop reports it and does not fail itself
      have hfatal := Fault.isFatal_of_programData (MicroOp.kind_of_hazard? hhazard)
      have hresult : s.advance.result = .error fault := by rw [hadvance]
      have hlatched : s.advance.session.fault.isSome = true := by
        rw [hadvance]
        rfl
      simp only [runSteps, hresult, hfatal, hlatched]
      exact ⟨_, rfl, .fault hresult⟩
    | @applied step e r =>
      have hresult : s.advance.result = .ok r.report := by rw [hadvance]
      cases hlast : r.report.isLast with
      | true =>
        simp only [runSteps, hresult, hlast]
        exact ⟨_, rfl, .last hresult hlast⟩
      | false =>
        have hlive' : s.advance.session.state.isLive = true := by
          rw [isLive_advance_of_ok h hp hresult, hlast]
          rfl
        have hn' : s.advance.session.total ≤ s.advance.session.cursor + n := by
          rw [hadvance]
          show s.total ≤ s.cursor + 1 + n
          omega
        obtain ⟨run, hrun, hruns⟩ := ih (reachable_advance h) hlive' hn'
        simp only [runSteps, hresult, hlast, hrun]
        exact ⟨_, rfl, .more hresult hlast hruns⟩

/-- A run of a live session returns a report, and goes as `Runs` says. -/
theorem runs_runToCompletion (hp : p.Registered) (h : Machine.Reachable p program s.machine)
    (hlive : s.state.isLive = true) :
    ∃ run, s.runToCompletion.result = .ok run ∧
      Runs s s.runToCompletion.session s.runToCompletion.events run := by
  have hle : s.cursor ≤ s.total := (h.lifecycle hp).cursor_le
  rw [runToCompletion, if_pos hlive]
  exact runs_runSteps hp h hlive (by omega)

/-- A stopped session refuses to run, and stays as it is. -/
theorem runToCompletion_of_stopped (h : s.state.isLive = false) :
    s.runToCompletion = ⟨s, [], .error (.finished s.state)⟩ := by
  simp [runToCompletion, h]

/-! ## Calls -/

/-- What a host can call on an open session. -/
inductive Call where
  | advance
  | abort
  | reset
  | run
  | snapshot
deriving DecidableEq, Repr

/-- The session after a call, and the events that the call emitted. -/
def call (s : Session) : Call → Session × List Event
  | .advance => (s.advance.session, s.advance.events)
  | .abort => (s.abort.1, [])
  | .reset => (s.reset.1, [])
  | .run => (s.runToCompletion.session, s.runToCompletion.events)
  | .snapshot => (s, [])

/-- The session after a sequence of calls. -/
def after (s : Session) (calls : List Call) : Session :=
  calls.foldl (fun s c ↦ (s.call c).1) s

theorem reachable_call (hp : p.Registered) (h : Machine.Reachable p program s.machine)
    (c : Call) : Machine.Reachable p program (s.call c).1.machine := by
  cases c with
  | advance => exact reachable_advance h
  | abort => exact h.abort
  | reset => exact h.reset
  | run =>
    show Machine.Reachable p program s.runToCompletion.session.machine
    cases hlive : s.state.isLive with
    | false => rwa [runToCompletion_of_stopped hlive]
    | true =>
      obtain ⟨run, -, hruns⟩ := runs_runToCompletion hp h hlive
      exact hruns.reachable h
  | snapshot => exact h

/-- Every sequence of calls keeps the machine of a session reachable. -/
theorem reachable_after (hp : p.Registered) (h : Machine.Reachable p program s.machine)
    (calls : List Call) : Machine.Reachable p program (s.after calls).machine :=
  List.foldlRecOn (motive := fun s : Session ↦ Machine.Reachable p program s.machine) calls _ h
    fun _ hs c _ ↦ reachable_call hp hs c

/-! ## The cursor -/

/-- A step that succeeds moves the cursor by one, and reports the index of the step and whether it
was the last one. -/
theorem cursor_advance_of_ok (h : Machine.Reachable p program s.machine) (hp : p.Registered)
    {report : StepReport} (hr : s.advance.result = .ok report) :
    s.advance.session.cursor = s.cursor + 1 ∧ report.index = s.cursor ∧
      (report.isLast = true ↔ s.advance.session.cursor = program.steps.length) := by
  have hspec := advance_spec h hp
  cases hadvance : s.advance with | mk next events result
  rw [hadvance] at hspec hr
  cases hspec with
  | refused => cases hr
  | faulted => cases hr
  | applied hlive _ _ _ _ hrecord =>
    obtain rfl := Except.ok.inj hr
    have hlt : s.cursor < program.steps.length := (h.sound hp).live hlive
    refine ⟨rfl, by rw [hrecord]; rfl, decide_eq_true_iff.trans ?_⟩
    show _ ↔ s.cursor + 1 = program.steps.length
    rw [hrecord, RunState.afterStep_eq_completed_iff]
    omega

theorem cursor_advance_of_error (h : Machine.Reachable p program s.machine) (hp : p.Registered)
    {fault : Fault} (hf : s.advance.result = .error fault) :
    s.advance.session.cursor = s.cursor := by
  have hspec := advance_spec h hp
  cases hadvance : s.advance with | mk next events result
  rw [hadvance] at hspec hf
  cases hspec with
  | refused => rfl
  | faulted => rfl
  | applied => cases hf

theorem cursor_abort (s : Session) : s.abort.1.cursor = s.cursor := by
  cases hlive : s.machine.state.isLive with
  | false => rw [abort, Machine.abort_of_stopped hlive]
  | true => rw [abort_of_live hlive]; rfl

/-- A run reports how far it has moved the cursor. -/
theorem Runs.cursor_eq {s s' : Session} {events : List Event} {run : RunReport}
    (hruns : Runs s s' events run) (h : Machine.Reachable p program s.machine)
    (hp : p.Registered) : s'.cursor = s.cursor + run.steps := by
  induction hruns with
  | last hr => exact (cursor_advance_of_ok h hp hr).1
  | @more s s' report events run hr _ _ ih =>
    rw [ih (reachable_advance h), (cursor_advance_of_ok h hp hr).1]
    show s.cursor + 1 + run.steps = s.cursor + (run.steps + 1)
    rw [Nat.add_assoc, Nat.add_comm 1]
  | fault hf => exact cursor_advance_of_error h hp hf

/-! ## What a host can rely on -/

/-- Of a session on a program of `n` steps: how its state, its cursor and its fault belong
together. -/
structure Consistent (n : Nat) (s : Session) : Prop where
  total_eq : s.total = n
  cursor_le : s.cursor ≤ n
  loaded_iff : s.state = .loaded ↔ s.state ≠ .aborted ∧ s.cursor = 0 ∧ 0 < n
  running_iff : s.state = .running ↔ s.state ≠ .aborted ∧ 0 < s.cursor ∧ s.cursor < n
  completed_iff : s.state = .completed ↔ s.state ≠ .aborted ∧ s.cursor = n
  cursor_lt_of_aborted : s.state = .aborted → s.cursor < n
  aborted_of_fault : s.fault ≠ none → s.state = .aborted

/-- What the calls on a session do to its cursor. -/
structure Moves (n : Nat) (s : Session) : Prop where
  advance : ∀ {report : StepReport}, s.advance.result = .ok report →
    s.advance.session.cursor = s.cursor + 1 ∧ report.index = s.cursor ∧
      (report.isLast = true ↔ s.advance.session.cursor = n)
  advance_error : ∀ {fault : Fault}, s.advance.result = .error fault →
    s.advance.session.cursor = s.cursor
  abort : s.abort.1.cursor = s.cursor
  reset : s.reset.2 = .ok () ∧ s.reset.1.cursor = 0
  run : ∀ {run : RunReport}, s.runToCompletion.result = .ok run →
    s.runToCompletion.session.cursor = s.cursor + run.steps
  run_error : ∀ {fault : Fault}, s.runToCompletion.result = .error fault →
    s.runToCompletion.session.cursor = s.cursor

/-- What the status line says, in each state; it is never empty. -/
structure ShowsStatus (steps : List MicroStep) (s : Session) : Prop where
  loaded : s.state = .loaded → s.statusLine = "Waiting to start"
  running : s.state = .running → ∃ step, steps[s.cursor - 1]? = some step ∧
    s.statusLine = "Step " ++ Numeral.decimal s.cursor ++ "/" ++ Numeral.decimal steps.length ++
      ": " ++ step.label
  completed : s.state = .completed → s.statusLine = "Simulation completed"
  aborted : s.state = .aborted → s.statusLine = "Simulation aborted"
  ne_empty : s.statusLine ≠ ""

/-- State, fault and cursor of a reachable session fit together. -/
theorem consistent_of_reachable (h : Machine.Reachable p program s.machine) (hp : p.Registered) :
    s.Consistent program.steps.length := by
  have hl := h.lifecycle hp
  have htotal : s.machine.total = program.steps.length := by
    rw [Machine.total, (h.sound hp).program_eq]
  exact {
    total_eq := htotal
    cursor_le := htotal ▸ hl.cursor_le
    loaded_iff := htotal ▸ hl.loaded_iff
    running_iff := htotal ▸ hl.running_iff
    completed_iff := htotal ▸ hl.completed_iff
    cursor_lt_of_aborted := htotal ▸ hl.cursor_lt
    aborted_of_fault := by
      intro hf
      obtain ⟨fault, hfault⟩ := Option.ne_none_iff_exists'.mp hf
      exact (hl.fault hfault).1 }

/-- The cursor of a reachable session moves as `Moves` says. -/
theorem moves_of_reachable (h : Machine.Reachable p program s.machine) (hp : p.Registered) :
    s.Moves program.steps.length where
  advance := cursor_advance_of_ok h hp
  advance_error := cursor_advance_of_error h hp
  abort := cursor_abort s
  reset := by
    rw [reset_eq h hp]
    exact ⟨rfl, rfl⟩
  run := by
    intro run hrun
    cases hlive : s.state.isLive with
    | false =>
      rw [runToCompletion_of_stopped hlive] at hrun
      cases hrun
    | true =>
      obtain ⟨run', hrun', hruns⟩ := runs_runToCompletion hp h hlive
      obtain rfl : run' = run := Except.ok.inj (hrun'.symm.trans hrun)
      exact hruns.cursor_eq h hp
  run_error := by
    intro fault hf
    cases hlive : s.state.isLive with
    | false => rw [runToCompletion_of_stopped hlive]
    | true =>
      obtain ⟨run, hrun, -⟩ := runs_runToCompletion hp h hlive
      exact nomatch hrun.symm.trans hf

/-- The status line of a reachable session shows its cursor and its state. -/
theorem showsStatus_of_reachable (h : Machine.Reachable p program s.machine)
    (hp : p.Registered) : s.ShowsStatus program.steps := by
  have hsteps : s.steps = program.steps := congrArg Program.steps (h.sound hp).program_eq
  have hc := consistent_of_reachable h hp
  have hrunning : s.state = .running → ∃ step, program.steps[s.cursor - 1]? = some step ∧
      s.statusLine = "Step " ++ Numeral.decimal s.cursor ++ "/" ++
        Numeral.decimal program.steps.length ++ ": " ++ step.label := by
    intro hstate
    obtain ⟨-, hpos, hlt⟩ := hc.running_iff.mp hstate
    obtain ⟨last, hlast⟩ := Nat.exists_eq_add_one.mpr hpos
    have hstep : program.steps[last]? = some program.steps[last] :=
      List.getElem?_eq_getElem (by omega)
    refine ⟨program.steps[last], ?_, ?_⟩
    · rw [hlast, Nat.add_sub_cancel, hstep]
    · simp only [statusLine, hstate, hlast, hsteps, hstep, hc.total_eq]
  exact {
    loaded := fun hstate ↦ by rw [statusLine, hstate]
    running := hrunning
    completed := fun hstate ↦ by rw [statusLine, hstate]
    aborted := fun hstate ↦ by rw [statusLine, hstate]
    ne_empty := by
      cases hstate : s.state with
      | loaded => simp [statusLine, hstate]
      | running =>
        obtain ⟨step, -, hline⟩ := hrunning hstate
        rw [hline]
        simp
      | completed => simp [statusLine, hstate]
      | aborted => simp [statusLine, hstate] }

end Session

/-- A session on a freshly loaded machine, with any options and with or without a sink, keeps its
state, cursor and fault consistent under all calls; each call moves the cursor as it should, and
the status line says where the session stands. -/
theorem lifecycle_of_session {p : Profile} {program : Program} {opened : Session}
    (hp : p.Registered) (hl : Machine.load p program = .ok opened.machine)
    (calls : List Session.Call) :
    (opened.after calls).Consistent program.steps.length ∧
      (opened.after calls).Moves program.steps.length ∧
      (opened.after calls).ShowsStatus program.steps := by
  have h := Session.reachable_after hp (.load hl) calls
  exact ⟨Session.consistent_of_reachable h hp, Session.moves_of_reachable h hp,
    Session.showsStatus_of_reachable h hp⟩

/-- A fault at the last step, and an attempt to go on after it. -/
theorem lifecycle_storeThenDivide :
    ∃ opened, Session.ofProgram .ias .storeThenDivide {} = .ok opened ∧
      (opened.after [.run, .advance]).state = .aborted ∧
      (opened.after [.run, .advance]).cursor < 4 ∧
      (opened.after [.run, .advance]).statusLine = "Simulation aborted" ∧
      (opened.after [.run, .advance]).reset.1.cursor = 0 := by
  have hp : Profile.ias.Registered := ⟨.ias, .simplified, rfl⟩
  have hl := Machine.load_storeThenDivide
  have hopen : Session.ofProgram .ias .storeThenDivide {} =
      .ok ⟨Machine.fresh .ias .storeThenDivide, {}, false⟩ := by
    rw [Session.ofProgram, hl]
    rfl
  have hmachine : Machine.load .ias .storeThenDivide =
      .ok (Session.mk (.fresh .ias .storeThenDivide) {} false).machine := hl
  obtain ⟨hconsistent, hmoves, hstatus⟩ := lifecycle_of_session hp hmachine [.run, .advance]
  have hstate : (Session.after ⟨Machine.fresh .ias .storeThenDivide, {}, false⟩
      [.run, .advance]).state = .aborted := by decide +kernel
  exact ⟨_, hopen, hstate, hconsistent.cursor_lt_of_aborted hstate, hstatus.aborted hstate,
    hmoves.reset.2⟩

end FetchExecute
