import FetchExecute.Proofs.Course
import FetchExecute.Proofs.Faults
import FetchExecute.Proofs.Session

/-!
# Batch runs

Running a session to its end is taking its steps one at a time.  What a number of
advances leave and emit is `Session.advances` and `Session.advancesEvents`;
`Session.StopsAt` says which of them is the first that fails or takes the last
step.  A run makes the advances up to that one and no others, so there are no
more of them than steps left (`Session.StopsAt.cursor_add_lt`), and its report
tells where they have led (`Session.Tells`).

Nothing is lost if some of the steps have been taken one at a time before: the run
only has so much less to report (`Session.runToCompletion_advances`).
-/

namespace FetchExecute

namespace Session

/-! ## Single steps -/

/-- The session after a number of calls of `advance`. -/
def advances (s : Session) : Nat → Session
  | 0 => s
  | k + 1 => (s.advances k).advance.session

/-- The events that these calls emit. -/
def advancesEvents (s : Session) : Nat → List Event
  | 0 => []
  | k + 1 => s.advancesEvents k ++ (s.advances k).advance.events

theorem advances_succ (s : Session) (k : Nat) :
    s.advances (k + 1) = s.advance.session.advances k := by
  induction k with
  | zero => rfl
  | succ k ih => exact congrArg (·.advance.session) ih

theorem advances_add (s : Session) (j k : Nat) :
    s.advances (j + k) = (s.advances j).advances k := by
  induction k with
  | zero => rfl
  | succ k ih => exact congrArg (·.advance.session) ih

theorem advancesEvents_succ (s : Session) (k : Nat) :
    s.advancesEvents (k + 1) = s.advance.events ++ s.advance.session.advancesEvents k := by
  induction k with
  | zero => exact (List.append_nil s.advance.events).symm
  | succ k ih =>
    rw [advancesEvents, ih, advances_succ, List.append_assoc]
    rfl

/-- A session advances as its machine does. -/
theorem machine_advances (s : Session) (k : Nat) :
    (s.advances k).machine = s.machine.advances k := by
  induction k with
  | zero => rfl
  | succ k ih => rw [advances, session_advance, Machine.advances, ih]

variable {p : Profile} {program : Program} {s : Session}

theorem advances_of_stopped (h : s.state.isLive = false) (k : Nat) : s.advances k = s := by
  induction k with
  | zero => rfl
  | succ k ih =>
    rw [advances, ih, session_advance, Machine.advance_of_stopped h]

/-- Steps keep the machine of a session reachable. -/
theorem reachable_advances (h : Machine.Reachable p program s.machine) (k : Nat) :
    Machine.Reachable p program (s.advances k).machine := by
  rw [machine_advances]
  exact h.advances k

/-- Advance number `n`, counted from zero, is the first that fails or takes the last step of the
program. -/
structure StopsAt (s : Session) (n : Nat) : Prop where
  before : ∀ k < n, ∃ report, (s.advances k).advance.result = .ok report ∧ report.isLast = false
  last : ∀ report, (s.advances n).advance.result = .ok report → report.isLast = true

/-- One step more in front: a session stops that much later. -/
theorem StopsAt.cons {n : Nat} {report : StepReport} (hr : s.advance.result = .ok report)
    (hlast : report.isLast = false) (h : s.advance.session.StopsAt n) : s.StopsAt (n + 1) where
  before := by
    intro k hk
    cases k with
    | zero => exact ⟨report, hr, hlast⟩
    | succ k =>
      rw [advances_succ]
      exact h.before k (Nat.lt_of_succ_lt_succ hk)
  last := by
    rw [advances_succ]
    exact h.last

section

variable (h : Machine.Reachable p program s.machine) (hp : p.Registered)
include h hp

/-- Before they come to their end, the advances go on, and each takes one step. -/
theorem StopsAt.goes_on {n : Nat} (hn : s.StopsAt n) (hlive : s.state.isLive = true) {k : Nat}
    (hk : k ≤ n) : (s.advances k).state.isLive = true ∧ (s.advances k).cursor = s.cursor + k := by
  induction k with
  | zero => exact ⟨hlive, rfl⟩
  | succ k ih =>
    obtain ⟨-, hcursor⟩ := ih (Nat.le_of_succ_le hk)
    obtain ⟨report, hr, hlast⟩ := hn.before k hk
    have hreachable := reachable_advances h k
    refine ⟨?_, ?_⟩
    · rw [advances, isLive_advance_of_ok hreachable hp hr, hlast]
      rfl
    · rw [advances, (cursor_advance_of_ok hreachable hp hr).1, hcursor, Nat.add_assoc]

/-- There is a step left for every advance. -/
theorem StopsAt.cursor_add_lt {n : Nat} (hn : s.StopsAt n) (hlive : s.state.isLive = true) :
    s.cursor + n < program.steps.length := by
  obtain ⟨hlive', hcursor⟩ := hn.goes_on h hp hlive (Nat.le_refl n)
  rw [← hcursor]
  exact ((reachable_advances h n).sound hp).live hlive'

end

/-! ## Runs as single steps -/

/-- A run is as many single steps as it takes until the session stops. -/
theorem Runs.exists_stopsAt {s s' : Session} {events : List Event} {run : RunReport}
    (h : Runs s s' events run) :
    ∃ n, s.StopsAt n ∧ s' = s.advances (n + 1) ∧ events = s.advancesEvents (n + 1) := by
  induction h with
  | @last s report hr hlast =>
    refine ⟨0, ⟨nofun, fun report' hr' ↦ ?_⟩, rfl, rfl⟩
    obtain rfl : report = report' := Except.ok.inj (hr.symm.trans hr')
    exact hlast
  | more hr hlast _ ih =>
    obtain ⟨n, hn, rfl, rfl⟩ := ih
    exact ⟨n + 1, .cons hr hlast hn, (advances_succ _ _).symm, (advancesEvents_succ _ _).symm⟩
  | fault hf => exact ⟨0, ⟨nofun, fun _ hr ↦ nomatch hf.symm.trans hr⟩, rfl, rfl⟩

/-- What a run tells of the session it has led to. -/
structure Tells (p : Profile) (program : Program) (s s' : Session) (run : RunReport) :
    Prop where
  steps : s'.cursor = s.cursor + run.steps
  completed_iff : run.ending = .completed ↔
    s'.state = .completed ∧ s'.cursor = program.steps.length
  faulted_iff : ∀ {fault : Fault}, run.ending = .faulted fault ↔
    s'.state = .aborted ∧ s'.fault = some fault ∧
      ∃ step, program.steps[s'.cursor]? = some step ∧ step.op.Raises p s'.machine.storage fault

theorem Tells.isLive_eq_false {s s' : Session} {run : RunReport} (h : Tells p program s s' run) :
    s'.state.isLive = false := by
  rw [RunState.isLive_eq_false_iff]
  cases hending : run.ending with
  | completed => exact .inl (h.completed_iff.mp hending).1
  | faulted fault => exact .inr (h.faulted_iff.mp hending).1

section

variable {s' : Session} {events : List Event} {run : RunReport}

/-- A run ends with the program or at a step that raises a fault. -/
theorem Runs.ending_cases (hruns : Runs s s' events run)
    (h : Machine.Reachable p program s.machine) (hp : p.Registered)
    (hlive : s.state.isLive = true) :
    run.ending = .completed ∧ s'.state = .completed ∧ s'.cursor = program.steps.length ∨
      ∃ fault, run.ending = .faulted fault ∧ s'.state = .aborted ∧ s'.fault = some fault ∧
        ∃ step, program.steps[s'.cursor]? = some step ∧
          step.op.Raises p s'.machine.storage fault := by
  induction hruns with
  | @last s report hr hlast =>
    have hcursor := (cursor_advance_of_ok h hp hr).2.2.mp hlast
    have hstopped := isLive_advance_of_ok h hp hr
    rw [hlast] at hstopped
    refine .inl ⟨rfl, ?_, hcursor⟩
    rcases RunState.isLive_eq_false_iff.mp hstopped with hcompleted | haborted
    · exact hcompleted
    · have hlt := (consistent_of_reachable (reachable_advance h) hp).cursor_lt_of_aborted haborted
      omega
  | more hr hlast _ ih =>
    refine ih (reachable_advance h) ?_
    rw [isLive_advance_of_ok h hp hr, hlast]
    rfl
  | @fault s raised hf =>
    have hspec := advance_spec h hp
    cases hadvance : s.advance with | mk next events result
    rw [hadvance] at hspec hf
    cases hspec with
    | refused hstopped => exact nomatch hlive.symm.trans hstopped
    | @faulted step fault _ hstep hhazard =>
      obtain rfl := Except.error.inj hf
      have hsound := h.sound hp
      have hpresent := (h.wellFormed hp).present hsound.fits hstep
      exact .inr ⟨fault, rfl, rfl, rfl, step, hstep,
        (MicroOp.raises_iff_hazard? hsound.fits hpresent).mpr hhazard⟩
    | applied => cases hf

/-- The report of a run says how far it came and how it ended. -/
theorem Runs.tells (hruns : Runs s s' events run) (h : Machine.Reachable p program s.machine)
    (hp : p.Registered) (hlive : s.state.isLive = true) : Tells p program s s' run := by
  have hsteps := hruns.cursor_eq h hp
  rcases hruns.ending_cases h hp hlive with ⟨hending, hend⟩ | ⟨raised, hending, hend⟩
  · exact {
      steps := hsteps
      completed_iff := iff_of_true hending hend
      faulted_iff := by
        intro fault
        rw [hending, hend.1]
        exact iff_of_false nofun (fun ⟨haborted, _⟩ ↦ nomatch haborted) }
  · exact {
      steps := hsteps
      completed_iff := by
        rw [hending, hend.1]
        exact iff_of_false nofun (fun ⟨hcompleted, _⟩ ↦ nomatch hcompleted)
      faulted_iff := by
        intro fault
        rw [hending]
        constructor
        · rintro ⟨⟩
          exact hend
        · rintro ⟨-, hfault, -⟩
          rw [Option.some.inj (hend.2.1.symm.trans hfault)] }

end

/-! ## Some steps first -/

/-- What has stopped stays so. -/
theorem isLive_of_advance (h : s.advance.session.state.isLive = true) : s.state.isLive = true := by
  cases hlive : s.state.isLive with
  | true => rfl
  | false =>
    have hmachine : s.advance.session.machine = s.machine := by
      rw [session_advance]
      exact congrArg Prod.fst (Machine.advance_of_stopped hlive)
    rw [state, hmachine] at h
    exact hlive.symm.trans h

section

variable (h : Machine.Reachable p program s.machine) (hp : p.Registered)
include h hp

/-- A run that has steps left after its first one is that step and a run. -/
theorem runToCompletion_of_advance {report : StepReport} (hlive : s.state.isLive = true)
    (hr : s.advance.result = .ok report) (hnext : s.advance.session.state.isLive = true) :
    s.runToCompletion = {
      session := s.advance.session.runToCompletion.session
      events := s.advance.events ++ s.advance.session.runToCompletion.events
      result := s.advance.session.runToCompletion.result.map
        fun run ↦ { run with steps := run.steps + 1 } } := by
  have hlast : report.isLast = false := by
    rw [isLive_advance_of_ok h hp hr] at hnext
    simpa using hnext
  have hleft : s.total - s.cursor =
      s.advance.session.total - s.advance.session.cursor + 1 := by
    have htotal : s.total = program.steps.length := (consistent_of_reachable h hp).total_eq
    have htotal' : s.advance.session.total = program.steps.length :=
      (consistent_of_reachable (reachable_advance h) hp).total_eq
    have hlt : s.cursor < program.steps.length := (h.sound hp).live hlive
    rw [htotal, htotal', (cursor_advance_of_ok h hp hr).1]
    omega
  rw [runToCompletion, if_pos hlive, runToCompletion, if_pos hnext, hleft, runSteps, hr]
  simp only [hlast]
  rfl

/-- A run is the steps that are taken first, while they succeed and leave more to do, and then a
run. -/
theorem runToCompletion_advances {j : Nat}
    (hok : ∀ k < j, ∃ report, (s.advances k).advance.result = .ok report)
    (hlive : (s.advances j).state.isLive = true) :
    s.runToCompletion = {
      session := (s.advances j).runToCompletion.session
      events := s.advancesEvents j ++ (s.advances j).runToCompletion.events
      result := (s.advances j).runToCompletion.result.map
        fun run ↦ { run with steps := run.steps + j } } := by
  induction j with
  | zero =>
    simp only [advances, advancesEvents, List.nil_append, Nat.add_zero]
    cases s.runToCompletion with | mk session events result
    cases result <;> rfl
  | succ j ih =>
    have hreachable := reachable_advances h j
    obtain ⟨report, hr⟩ := hok j (Nat.lt_succ_self j)
    have hbefore := isLive_of_advance hlive
    rw [ih (fun k hk ↦ hok k (Nat.lt_succ_of_lt hk)) hbefore,
      runToCompletion_of_advance hreachable hp hbefore hr hlive, advances, advancesEvents,
      List.append_assoc]
    cases (s.advances j).advance.session.runToCompletion.result with
    | error fault => rfl
    | ok run =>
      show Response.mk _ _ (Except.ok { run with steps := run.steps + 1 + j }) = _
      rw [Nat.add_assoc, Nat.add_comm 1]
      rfl

end

/-- Running this session to its end makes `n + 1` advances and gives this report. -/
structure RunsStepwise (p : Profile) (program : Program) (s : Session) (n : Nat)
    (run : RunReport) : Prop where
  result : s.runToCompletion.result = .ok run
  stopsAt : s.StopsAt n
  bound : n + 1 ≤ s.total - s.cursor
  session : s.runToCompletion.session = s.advances (n + 1)
  events : s.runToCompletion.events = s.advancesEvents (n + 1)
  tells : Tells p program s s.runToCompletion.session run
  /-- Steps that are taken first are missing in the report, and nowhere else. -/
  resumes : ∀ {j : Nat}, (∀ k < j, ∃ report, (s.advances k).advance.result = .ok report) →
    (s.advances j).state.isLive = true →
    ∃ rest, (s.advances j).runToCompletion.result = .ok rest ∧
      (s.advances j).runToCompletion.session = s.runToCompletion.session ∧
      rest.ending = run.ending ∧ rest.steps + j = run.steps

/-- A run of a live session is so many single steps, in all that it leaves and emits. -/
theorem exists_runsStepwise (h : Machine.Reachable p program s.machine) (hp : p.Registered)
    (hlive : s.state.isLive = true) : ∃ n run, RunsStepwise p program s n run := by
  obtain ⟨run, hrun, hruns⟩ := runs_runToCompletion hp h hlive
  obtain ⟨n, hn, hsession, hevents⟩ := hruns.exists_stopsAt
  refine ⟨n, run, ?_⟩
  exact {
    result := hrun
    stopsAt := hn
    bound := by
      have htotal : s.total = program.steps.length := (consistent_of_reachable h hp).total_eq
      have hlt := hn.cursor_add_lt h hp hlive
      omega
    session := hsession
    events := hevents
    tells := hruns.tells h hp hlive
    resumes := by
      intro j hok hlive'
      obtain ⟨rest, hrest, -⟩ := runs_runToCompletion hp (reachable_advances h j) hlive'
      have hsplit := runToCompletion_advances h hp hok hlive'
      have hreport := (congrArg Response.result hsplit).symm.trans hrun
      rw [hrest] at hreport
      obtain rfl := Except.ok.inj hreport
      exact ⟨rest, hrest, (congrArg Response.session hsplit).symm, rfl, rfl⟩ }

/-- The machine is led to where advances lead it that are as many as there are steps left, or
more. -/
theorem machine_runToCompletion (h : Machine.Reachable p program s.machine) (hp : p.Registered)
    (hlive : s.state.isLive = true) {k : Nat} (hk : s.total - s.cursor ≤ k) :
    s.runToCompletion.session.machine = s.machine.advances k := by
  obtain ⟨n, run, hbatch⟩ := exists_runsStepwise h hp hlive
  have hmachine : s.runToCompletion.session.machine = s.machine.advances (n + 1) := by
    rw [hbatch.session, machine_advances]
  have hstopped : (s.machine.advances (n + 1)).state.isLive = false := by
    rw [← hmachine]
    exact hbatch.tells.isLive_eq_false
  obtain ⟨extra, rfl⟩ := Nat.exists_eq_add_of_le (Nat.le_trans hbatch.bound hk)
  rw [hmachine, Machine.advances_add s.machine (n + 1), Machine.advances_of_stopped hstopped]

end Session

/-- To run a session to its end, whatever has been called on it before, is to advance it until it
fails or has taken the last step; and a session that has come to its end refuses to be run. -/
theorem batch_run_eq_advances {p : Profile} {program : Program} {s : Session} (hp : p.Registered)
    (h : Machine.Reachable p program s.machine) :
    (s.state = .loaded ∨ s.state = .running →
      ∃ n run, Session.RunsStepwise p program s n run) ∧
    (s.state = .completed ∨ s.state = .aborted →
      s.runToCompletion = ⟨s, [], .error (.finished s.state)⟩) :=
  ⟨fun hstate ↦ Session.exists_runsStepwise h hp (RunState.isLive_eq_true_iff.mpr hstate),
    fun hstate ↦ Session.runToCompletion_of_stopped (RunState.isLive_eq_false_iff.mpr hstate)⟩

/-- A run that ends at a fault in the fourth step, in one go and after two single steps; and a
session that has nothing to run. -/
theorem batch_run_storeThenDivide :
    (∃ s, Session.ofProgram .ias .storeThenDivide {} = .ok s ∧
      s.runToCompletion.result = .ok ⟨3, .faulted (.divisionByZero .mq)⟩ ∧
      (s.advances 2).runToCompletion.result = .ok ⟨1, .faulted (.divisionByZero .mq)⟩ ∧
      (s.advances 2).runToCompletion.session = s.runToCompletion.session) ∧
    ∃ s : Session, s.state = .completed ∧
      s.runToCompletion = ⟨s, [], .error (.finished s.state)⟩ := by
  have hp : Profile.ias.Registered := ⟨.ias, .simplified, rfl⟩
  constructor
  · have hl := Machine.load_storeThenDivide
    have hopen : Session.ofProgram .ias .storeThenDivide {} =
        .ok ⟨Machine.fresh .ias .storeThenDivide, {}, false⟩ := by
      rw [Session.ofProgram, hl]
      rfl
    generalize hs : Session.mk (.fresh .ias .storeThenDivide) {} false = s at hopen
    have hr : Machine.Reachable .ias .storeThenDivide s.machine := by
      rw [← hs]
      exact .load hl
    obtain ⟨n, ⟨steps, ending⟩, hbatch⟩ :=
      (batch_run_eq_advances hp hr).1 (.inl (by rw [← hs]; rfl))
    have hend : s.runToCompletion.session.state = .aborted ∧
        s.runToCompletion.session.cursor = s.cursor + 3 ∧
        s.runToCompletion.session.fault = some (.divisionByZero .mq) ∧
        Program.storeThenDivide.steps[s.runToCompletion.session.cursor]? =
          some (.execute (.combine .div .ac .mq .mq (some .ac))) ∧
        s.runToCompletion.session.machine.storage.registers.get? .mq = some 0 := by
      rw [← hs]
      decide +kernel
    obtain ⟨hstate, hcursor, hfault, hstep, hzero⟩ := hend
    obtain rfl : ending = .faulted (.divisionByZero .mq) :=
      hbatch.tells.faulted_iff.mpr ⟨hstate, hfault, _, hstep, .divide hzero⟩
    obtain rfl : steps = 3 := Nat.add_left_cancel (hbatch.tells.steps.symm.trans hcursor)
    have hbefore : ∀ k < 2, (s.advances k).advance.result.toBool = true := by
      rw [← hs]
      decide +kernel
    obtain ⟨⟨steps, ending⟩, hrest, hsession, rfl, hsteps⟩ := hbatch.resumes (j := 2) (by
      intro k hk
      cases hresult : (s.advances k).advance.result with
      | ok report => exact ⟨report, rfl⟩
      | error fault => simpa [hresult, Except.toBool] using hbefore k hk) (by
      rw [← hs]
      decide +kernel)
    obtain rfl : steps = 1 := Nat.add_right_cancel hsteps
    exact ⟨s, hopen, hbatch.result, hrest, hsession⟩
  · have hempty : Program.validate .ias ⟨"", [], [], []⟩ = .ok () := rfl
    have hl := Machine.load_of_validate hp hempty
    exact ⟨⟨.fresh .ias ⟨"", [], [], []⟩, {}, false⟩, rfl,
      (batch_run_eq_advances hp (.load hl)).2 (.inl rfl)⟩

end FetchExecute
