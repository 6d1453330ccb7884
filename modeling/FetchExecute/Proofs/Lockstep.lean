import FetchExecute.Proofs.Session

/-!
# Sessions in lockstep

Two sessions that differ in what their operations take no notice of go along with each
other.  What belongs together on the two sides is a `Correspondence`: sessions, the
events they emit, the reports of a step, and snapshots.  If advancing, aborting and
resetting keep sessions together, then so does every call (`Lockstep.call`), and so
does every sequence of calls (`Lockstep.after`).  The run loop is gone through once,
in `Lockstep.runSteps`.

There may be steps that set the sessions apart.  The sessions then stay together as
long as no such step is taken: `Session.stepsOf` are the steps that a call takes, and
`Session.stepsTaken` those of a sequence of calls.

Most often one session is the other one with its machine exchanged, and keeps its
configuration and its sink.  For this it is enough to look at machines
(`Machine.Replacement`).
-/

namespace FetchExecute

/-! ## Steps that are taken -/

namespace Session

/-- The steps from the cursor of one session to that of another, none if it stands earlier. -/
def stepsTo (s s' : Session) : List MicroStep := (s.steps.drop s.cursor).take (s'.cursor - s.cursor)

/-- The steps that a call takes. -/
def stepsOf (s : Session) (c : Call) : List MicroStep := s.stepsTo (s.call c).1

/-- The steps that a sequence of calls takes. -/
def stepsTaken (s : Session) : List Call → List MicroStep
  | [] => []
  | c :: rest => s.stepsOf c ++ (s.call c).1.stepsTaken rest

variable {s : Session}

/-- The step under the cursor is among the steps taken once the cursor has moved. -/
theorem mem_stepsTo_of_lt {s' : Session} {step : MicroStep} (hstep : s.steps[s.cursor]? = some step)
    (hlt : s.cursor < s'.cursor) : step ∈ s.stepsTo s' := by
  refine List.mem_of_getElem? (i := 0) ?_
  rw [stepsTo, List.getElem?_take_of_lt (by omega), List.getElem?_drop]
  exact hstep

/-- A stretch of steps may start later and end earlier. -/
theorem stepsTo_subset {s₁ s₂ s' : Session} (hsteps : s₁.steps = s.steps)
    (hstart : s.cursor ≤ s₁.cursor) (hend : s₂.cursor ≤ s'.cursor) :
    s₁.stepsTo s₂ ⊆ s.stepsTo s' := by
  intro step hmem
  obtain ⟨i, hi⟩ := List.getElem?_of_mem hmem
  have hlt : i < s₂.cursor - s₁.cursor := by
    have hlength := (List.getElem?_eq_some_iff.mp hi).1
    rw [stepsTo, List.length_take] at hlength
    omega
  rw [stepsTo, List.getElem?_take_of_lt hlt, List.getElem?_drop, hsteps] at hi
  refine List.mem_of_getElem? (i := s₁.cursor - s.cursor + i) ?_
  rw [stepsTo, List.getElem?_take_of_lt (by omega), List.getElem?_drop]
  rwa [show s.cursor + (s₁.cursor - s.cursor + i) = s₁.cursor + i by omega]

theorem steps_advance (s : Session) : s.advance.session.steps = s.steps := by
  rw [session_advance]
  exact congrArg Program.steps s.machine.program_cursor_advance.1

/-- The cursor never moves back. -/
theorem cursor_le_advance (s : Session) : s.cursor ≤ s.advance.session.cursor := by
  rw [session_advance]
  exact s.machine.cursor_le_advance

/-- The loop stops after its first step, or goes on from there. -/
theorem session_runSteps (s : Session) (n : Nat) :
    (s.runSteps (n + 1)).session = s.advance.session ∨
      (s.runSteps (n + 1)).session = (s.advance.session.runSteps n).session := by
  rw [runSteps]
  cases s.advance.result with
  | error fault =>
    simp only
    split
    · exact .inl rfl
    · exact .inl rfl
  | ok report =>
    simp only
    split
    · exact .inl rfl
    · exact .inr rfl

theorem cursor_le_runSteps (s : Session) (n : Nat) : s.cursor ≤ (s.runSteps n).session.cursor := by
  induction n generalizing s with
  | zero => exact Nat.le_refl _
  | succ n ih =>
    refine Nat.le_trans s.cursor_le_advance ?_
    rcases s.session_runSteps n with hsession | hsession
    · exact Nat.le_of_eq (congrArg cursor hsession).symm
    · rw [hsession]
      exact ih _

/-- The first step of the loop is among its steps. -/
theorem stepsTo_advance_subset (s : Session) (n : Nat) :
    s.stepsTo s.advance.session ⊆ s.stepsTo (s.runSteps (n + 1)).session := by
  refine stepsTo_subset rfl (Nat.le_refl _) ?_
  rcases s.session_runSteps n with hsession | hsession
  · exact Nat.le_of_eq (congrArg cursor hsession).symm
  · rw [hsession]
    exact cursor_le_runSteps _ n

/-! ## What a call answers -/

/-- What a call answers. -/
inductive Reply where
  | stepped (result : Except Fault StepReport)
  | ran (result : Except Fault RunReport)
  | done (result : Except Fault Unit)
  | shown (snapshot : Snapshot)

def reply (s : Session) : Call → Reply
  | .advance => .stepped s.advance.result
  | .abort => .done s.abort.2
  | .reset => .done s.reset.2
  | .run => .ran s.runToCompletion.result
  | .snapshot => .shown s.snapshot

end Session

/-! ## Correspondences -/

/-- Results of one operation on two sides: the same fault, or values that belong together. -/
inductive Results {α β : Type} (belong : α → β → Prop) : Except Fault α → Except Fault β → Prop
  | error (fault : Fault) : Results belong (.error fault) (.error fault)
  | ok {a : α} {b : β} : belong a b → Results belong (.ok a) (.ok b)

namespace Results

variable {α β : Type} {belong : α → β → Prop} {x : Except Fault α} {y : Except Fault β}

/-- Either both sides fail with the same fault, or both return values that belong together. -/
theorem exists_of_results (h : Results belong x y) :
    (∃ fault, x = .error fault ∧ y = .error fault) ∨
      ∃ a b, x = .ok a ∧ y = .ok b ∧ belong a b := by
  cases h with
  | error fault => exact .inl ⟨fault, rfl, rfl⟩
  | ok hbelong => exact .inr ⟨_, _, rfl, rfl, hbelong⟩

theorem refl (x : Except Fault α) : Results Eq x x := by
  cases x with
  | error fault => exact .error fault
  | ok a => exact .ok rfl

/-- Where only equal values belong together, so do only equal results. -/
theorem eq {y : Except Fault α} (h : Results Eq x y) : y = x := by
  cases h with
  | error fault => rfl
  | ok heq => rw [heq]

/-- A mapping of values carries over to the results. -/
theorem map {γ : Type} {belong' : γ → γ → Prop} {y : Except Fault α} {belong : α → α → Prop}
    (h : Results belong x y) {f : α → γ} (hf : ∀ {a b}, belong a b → belong' (f a) (f b)) :
    Results belong' (x.map f) (y.map f) := by
  cases h with
  | error fault => exact .error fault
  | ok hbelong => exact .ok (hf hbelong)

end Results

/-- What belongs together on two sides. -/
structure Correspondence where
  sessions : Session → Session → Prop
  events : List Event → List Event → Prop
  reports : StepReport → StepReport → Prop
  snapshots : Snapshot → Snapshot → Prop

namespace Correspondence

/-- Responses that belong together, given which of their values do. -/
structure Responses (c : Correspondence) {α : Type} (belong : α → α → Prop) (r r' : Response α) :
    Prop where
  session : c.sessions r.session r'.session
  events : c.events r.events r'.events
  result : Results belong r.result r'.result

/-- Replies that belong together; only reports of steps and snapshots may differ at all. -/
inductive Replies (c : Correspondence) : Session.Reply → Session.Reply → Prop
  | stepped {x y : Except Fault StepReport} : Results c.reports x y →
      Replies c (.stepped x) (.stepped y)
  | ran (x : Except Fault RunReport) : Replies c (.ran x) (.ran x)
  | done (x : Except Fault Unit) : Replies c (.done x) (.done x)
  | shown {x y : Snapshot} : c.snapshots x y → Replies c (.shown x) (.shown y)

end Correspondence

/-! ## Lockstep -/

/-- Sessions that belong together stay together when both are advanced, aborted or reset, unless a
step is taken that is not harmless. -/
structure Lockstep (c : Correspondence) (harmless : MicroStep → Prop) : Prop where
  nil : c.events [] []
  append : ∀ {a a' b b' : List Event}, c.events a a' → c.events b b' →
    c.events (a ++ b) (a' ++ b')
  isLast : ∀ {r r' : StepReport}, c.reports r r' → r'.isLast = r.isLast
  state : ∀ {s s' : Session}, c.sessions s s' → s'.state = s.state
  cursor : ∀ {s s' : Session}, c.sessions s s' → s'.cursor = s.cursor
  total : ∀ {s s' : Session}, c.sessions s s' → s'.total = s.total
  fault : ∀ {s s' : Session}, c.sessions s s' → s'.fault = s.fault
  advance : ∀ {s s' : Session}, c.sessions s s' →
    (∀ step ∈ s.stepsTo s.advance.session, harmless step) →
    c.Responses c.reports s.advance s'.advance
  abort : ∀ {s s' : Session}, c.sessions s s' →
    c.sessions s.abort.1 s'.abort.1 ∧ s'.abort.2 = s.abort.2
  reset : ∀ {s s' : Session}, c.sessions s s' →
    c.sessions s.reset.1 s'.reset.1 ∧ s'.reset.2 = s.reset.2
  snapshot : ∀ {s s' : Session}, c.sessions s s' → c.snapshots s.snapshot s'.snapshot

namespace Lockstep

variable {c : Correspondence} {harmless : MicroStep → Prop} (h : Lockstep c harmless)
  {s s' : Session}
include h

/-- The loop behind a run goes the same way on both sides. -/
theorem runSteps (n : Nat) (hs : c.sessions s s')
    (hsteps : ∀ step ∈ s.stepsTo (s.runSteps n).session, harmless step) :
    c.Responses Eq (s.runSteps n) (s'.runSteps n) := by
  induction n generalizing s s' with
  | zero =>
    rw [Session.runSteps, Session.runSteps, h.state hs]
    exact ⟨hs, h.nil, .refl _⟩
  | succ n ih =>
    -- the steps of the run are the first one and those of the loop that goes on from there
    have hfirst := h.advance hs fun step hmem ↦ hsteps step (s.stepsTo_advance_subset n hmem)
    rcases hfirst.result.exists_of_results with
      ⟨fault, hresult, hresult'⟩ | ⟨report, report', hresult, hresult', hreport⟩
    · simp only [Session.runSteps, hresult, hresult', h.fault hfirst.session]
      split
      · exact ⟨hfirst.session, hfirst.events, .refl _⟩
      · exact ⟨hfirst.session, hfirst.events, .refl _⟩
    · cases hlast : report.isLast with
      | true =>
        simp only [Session.runSteps, hresult, hresult', h.isLast hreport, hlast]
        exact ⟨hfirst.session, hfirst.events, .refl _⟩
      | false =>
        have hsession : (s.runSteps (n + 1)).session = (s.advance.session.runSteps n).session := by
          simp [Session.runSteps, hresult, hlast]
        have hrest := ih hfirst.session fun step hmem ↦ hsteps step <|
          Session.stepsTo_subset s.steps_advance s.cursor_le_advance
            (Nat.le_of_eq (congrArg Session.cursor hsession).symm) hmem
        simp only [Session.runSteps, hresult, hresult', h.isLast hreport, hlast]
        refine ⟨hrest.session, h.append hfirst.events hrest.events, ?_⟩
        exact hrest.result.map fun heq ↦ heq ▸ rfl

/-- A run goes the same way on both sides: it is refused on both, or is the loop on both. -/
theorem runToCompletion (hs : c.sessions s s')
    (hsteps : ∀ step ∈ s.stepsTo s.runToCompletion.session, harmless step) :
    c.Responses Eq s.runToCompletion s'.runToCompletion := by
  rw [Session.runToCompletion] at hsteps ⊢
  rw [Session.runToCompletion, h.state hs, h.total hs, h.cursor hs]
  split
  · rw [if_pos ‹_›] at hsteps
    exact h.runSteps _ hs hsteps
  · exact ⟨hs, h.nil, .refl _⟩

/-- A call on both sides keeps sessions together that belong together, and so are the events and
the replies. -/
theorem call (hs : c.sessions s s') (call : Session.Call)
    (hsteps : ∀ step ∈ s.stepsOf call, harmless step) :
    c.sessions (s.call call).1 (s'.call call).1 ∧ c.events (s.call call).2 (s'.call call).2 ∧
      c.Replies (s.reply call) (s'.reply call) := by
  cases call with
  | advance =>
    have hboth := h.advance hs hsteps
    exact ⟨hboth.session, hboth.events, .stepped hboth.result⟩
  | abort =>
    obtain ⟨hsessions, hresult⟩ := h.abort hs
    rw [Session.reply, Session.reply, hresult]
    exact ⟨hsessions, h.nil, .done _⟩
  | reset =>
    obtain ⟨hsessions, hresult⟩ := h.reset hs
    rw [Session.reply, Session.reply, hresult]
    exact ⟨hsessions, h.nil, .done _⟩
  | run =>
    have hboth := h.runToCompletion hs hsteps
    rw [Session.reply, Session.reply, hboth.result.eq]
    exact ⟨hboth.session, hboth.events, .ran _⟩
  | snapshot => exact ⟨hs, h.nil, .shown (h.snapshot hs)⟩

/-- A sequence of calls on both sides keeps sessions together that belong together. -/
theorem after (hs : c.sessions s s') {calls : List Session.Call}
    (hsteps : ∀ step ∈ s.stepsTaken calls, harmless step) :
    c.sessions (s.after calls) (s'.after calls) := by
  induction calls generalizing s s' with
  | nil => exact hs
  | cons first rest ih =>
    obtain ⟨hnext, -, -⟩ := h.call hs first fun step hmem ↦
      hsteps step (List.mem_append_left _ hmem)
    exact ih hnext fun step hmem ↦ hsteps step (List.mem_append_right _ hmem)

end Lockstep

/-! ## One machine in place of another -/

def StepRecord.rewrite (f : MicroStep → MicroStep) (r : StepRecord) : StepRecord :=
  { r with step := f r.step }

def Event.rewrite (f : MicroStep → MicroStep) : Event → Event
  | .applied index step => .applied index (f step)
  | event => event

theorem StepRecord.rewrite_id : rewrite id = id := rfl

theorem Event.rewrite_id : rewrite id = id := by
  funext event
  cases event <;> rfl

/-- The events of a step with another step recorded differ in that step only. -/
theorem StepRecord.trace_rewrite (f : MicroStep → MicroStep) (r : StepRecord) :
    (r.rewrite f).trace = r.trace.map (Event.rewrite f) := by
  rw [trace, trace, List.map_append, List.map_append]
  show _ ++ (r.effect.memoryRead.map _).toList ++ (r.effect.memoryWrite.map _).toList = _
  cases r.effect.memoryRead <;> cases r.effect.memoryWrite <;> rfl

/-- Machines that run a program can be exchanged for others, and the operations take no notice but
that they record other steps, unless they take one that is not harmless. -/
structure Machine.Replacement (p : Profile) (program : Program) (f : MicroStep → MicroStep)
    (harmless : MicroStep → Prop) (exchange : Machine → Machine) : Prop where
  state : ∀ m, (exchange m).state = m.state
  cursor : ∀ m, (exchange m).cursor = m.cursor
  fault : ∀ m, (exchange m).fault = m.fault
  total : ∀ {m}, Reachable p program m → (exchange m).total = m.total
  advance : ∀ {m}, Reachable p program m →
    (∀ step, m.program.steps[m.cursor]? = some step → m.cursor < m.advance.1.cursor →
      harmless step) →
    (exchange m).advance = (exchange m.advance.1, m.advance.2.map (StepRecord.rewrite f))
  abort : ∀ {m}, Reachable p program m → (exchange m).abort = (exchange m.abort.1, m.abort.2)
  reset : ∀ {m}, Reachable p program m → (exchange m).reset = (exchange m.reset.1, m.reset.2)
  snapshot : ∀ {m}, Reachable p program m → ∀ showZeros,
    (exchange m).snapshot showZeros = m.snapshot showZeros

namespace Session

/-- The session with its machine exchanged. -/
def withMachine (s : Session) (exchange : Machine → Machine) : Session :=
  { s with machine := exchange s.machine }

/-- Whether events are emitted does not depend on the steps that they name. -/
theorem emitted_rewrite (s : Session) (f : MicroStep → MicroStep) (events : List Event) :
    s.emitted (events.map (Event.rewrite f)) = (s.emitted events).map (Event.rewrite f) := by
  rw [emitted, emitted]
  split
  · rfl
  · rfl

end Session

/-- A session belongs to the one with its machine exchanged. -/
def Correspondence.exchanging (p : Profile) (program : Program) (f : MicroStep → MicroStep)
    (exchange : Machine → Machine) : Correspondence where
  sessions s s' := Machine.Reachable p program s.machine ∧ s' = s.withMachine exchange
  events events events' := events' = events.map (Event.rewrite f)
  reports := Eq
  snapshots := Eq

namespace Machine.Replacement

variable {p : Profile} {program : Program} {f : MicroStep → MicroStep}
  {harmless : MicroStep → Prop} {exchange : Machine → Machine}
  (h : Replacement p program f harmless exchange) {s : Session}
include h

/-- The condition on the step under the cursor, said of the steps that the session takes. -/
theorem machine_advance (hr : Reachable p program s.machine)
    (hsteps : ∀ step ∈ s.stepsTo s.advance.session, harmless step) :
    (exchange s.machine).advance =
      (exchange s.machine.advance.1, s.machine.advance.2.map (StepRecord.rewrite f)) := by
  refine h.advance hr fun step hstep hlt ↦ hsteps step (Session.mem_stepsTo_of_lt hstep ?_)
  rw [Session.session_advance]
  exact hlt

/-- A session whose machine is exchanged advances as it did, and its events are rewritten. -/
theorem session_advance (hr : Reachable p program s.machine)
    (hsteps : ∀ step ∈ s.stepsTo s.advance.session, harmless step) :
    (s.withMachine exchange).advance =
      { session := s.advance.session.withMachine exchange
        events := s.advance.events.map (Event.rewrite f)
        result := s.advance.result } := by
  have hmachine : (s.withMachine exchange).machine.advance = _ := h.machine_advance hr hsteps
  unfold Session.advance
  rw [hmachine]
  rcases s.machine.advance with ⟨m, fault | r⟩
  · have hcursor : (s.withMachine exchange).cursor = s.cursor := h.cursor _
    simp only [Except.map, h.fault, hcursor]
    split
    · exact congrArg (Response.mk _ · _) (s.emitted_rewrite f [.faulted s.cursor fault])
    · rfl
  · simp only [Except.map, StepRecord.trace_rewrite]
    exact congrArg (Response.mk _ · _) (s.emitted_rewrite f r.trace)

/-- What holds of machines holds of sessions. -/
theorem lockstep : Lockstep (.exchanging p program f exchange) harmless where
  nil := rfl
  append := by
    rintro a _ b _ rfl rfl
    exact (List.map_append ..).symm
  isLast := by
    rintro r _ rfl
    rfl
  state := by
    rintro s _ ⟨-, rfl⟩
    exact h.state s.machine
  cursor := by
    rintro s _ ⟨-, rfl⟩
    exact h.cursor s.machine
  total := by
    rintro s _ ⟨hr, rfl⟩
    exact h.total hr
  fault := by
    rintro s _ ⟨-, rfl⟩
    exact h.fault s.machine
  advance := by
    rintro s _ ⟨hr, rfl⟩ hsteps
    rw [h.session_advance hr hsteps]
    exact ⟨⟨Session.reachable_advance hr, rfl⟩, rfl, .refl _⟩
  abort := by
    rintro s _ ⟨hr, rfl⟩
    obtain ⟨hmachine, hresult⟩ := Prod.ext_iff.mp (h.abort hr)
    exact ⟨⟨hr.abort, congrArg (Session.mk · s.config s.hasSink) hmachine⟩, hresult⟩
  reset := by
    rintro s _ ⟨hr, rfl⟩
    obtain ⟨hmachine, hresult⟩ := Prod.ext_iff.mp (h.reset hr)
    exact ⟨⟨hr.reset, congrArg (Session.mk · s.config s.hasSink) hmachine⟩, hresult⟩
  snapshot := by
    rintro s _ ⟨hr, rfl⟩
    exact (h.snapshot hr s.config.showZeros).symm

/-- A call that takes harmless steps does the same and answers the same. -/
theorem call (hr : Reachable p program s.machine) (c : Session.Call)
    (hsteps : ∀ step ∈ s.stepsOf c, harmless step) :
    (s.withMachine exchange).call c =
        ((s.call c).1.withMachine exchange, (s.call c).2.map (Event.rewrite f)) ∧
      (s.withMachine exchange).reply c = s.reply c := by
  obtain ⟨⟨-, hsession⟩, hevents, hreplies⟩ := h.lockstep.call ⟨hr, rfl⟩ c hsteps
  refine ⟨Prod.ext hsession hevents, ?_⟩
  generalize s.reply c = answer, (s.withMachine exchange).reply c = answer' at hreplies
  cases hreplies with
  | stepped hresult => exact congrArg _ hresult.eq
  | ran => rfl
  | done => rfl
  | shown heq => exact congrArg _ heq.symm

/-- A sequence of calls that takes harmless steps leads to the session with its machine exchanged.
-/
theorem after (hr : Reachable p program s.machine) {calls : List Session.Call}
    (hsteps : ∀ step ∈ s.stepsTaken calls, harmless step) :
    (s.withMachine exchange).after calls = (s.after calls).withMachine exchange :=
  (h.lockstep.after ⟨hr, rfl⟩ hsteps).2

end Machine.Replacement

end FetchExecute
