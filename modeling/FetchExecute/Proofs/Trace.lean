import FetchExecute.Proofs.Session

/-!
# What a trace tells

The events that a session has emitted since it was opened or last reset say all
that has happened to the machine: every step that was applied, in order, each
with the one access to memory that it makes, if any (`Chronicle`), and at last
the fault, if there was one.  Replaying the writes on the initial memory gives
the memory as it is, at the end and at each event before it; a word that is read
is recorded as memory holds it, not as the register keeps it.

`trace_of_session` states this of any sequence of calls.  It is carried by the
invariant `Session.Recorded`, which an advance preserves
(`Session.Recorded.advance`) and so does a run.
-/

namespace FetchExecute

/-! ## Replaying a trace -/

/-- Memory after an event; only a write changes it. -/
def Event.replay (memory : Memory) : Event → Memory
  | .accessed address value true =>
    match memory.write address value with
    | .ok written => written
    | .error _ => memory
  | .applied .. | .accessed _ _ false | .faulted .. => memory

/-- Memory after the events of a trace. -/
def Memory.replay (memory : Memory) (events : List Event) : Memory :=
  events.foldl Event.replay memory

theorem Memory.replay_append (memory : Memory) (first rest : List Event) :
    memory.replay (first ++ rest) = (memory.replay first).replay rest := List.foldl_append

/-! ## Chronicles -/

/-- The events record these steps, carried out from the first one on in this memory. -/
inductive Chronicle (memory : Memory) : List MicroStep → List Event → Prop
  | nil : Chronicle memory [] []
  /-- The word that is read is the one that memory holds by then. -/
  | read {steps : List MicroStep} {events : List Event} {step : MicroStep}
      {register target : Register} {address word : Nat} : Chronicle memory steps events →
      step.op = .readMemory register target →
      (memory.replay events).get? address = some word →
      Chronicle memory (steps ++ [step])
        (events ++ [.applied steps.length step, .accessed address word false])
  | write {steps : List MicroStep} {events : List Event} {step : MicroStep}
      {register source : Register} {address word : Nat} : Chronicle memory steps events →
      step.op = .writeMemory register source →
      Chronicle memory (steps ++ [step])
        (events ++ [.applied steps.length step, .accessed address word true])
  | silent {steps : List MicroStep} {events : List Event} {step : MicroStep} :
      Chronicle memory steps events →
      (∀ register target, step.op ≠ .readMemory register target) →
      (∀ register source, step.op ≠ .writeMemory register source) →
      Chronicle memory (steps ++ [step]) (events ++ [.applied steps.length step])

/-! ### One step more -/

/-- The events of a step on this storage. -/
def MicroStep.trace (step : MicroStep) (index : Nat) (s : Storage) : List Event :=
  [.applied index step] ++
    ((step.op.memoryRead? s).map fun access ↦ .accessed access.1 access.2 false).toList ++
    ((step.op.memoryWrite? s).map fun access ↦ .accessed access.1 access.2 true).toList

section

variable {s : Storage} {step : MicroStep} (hsafe : step.op.hazard? s = none)
include hsafe

/-- Replaying the events of a step changes memory as the step does. -/
theorem MicroStep.replay_trace (p : Profile) (index : Nat) :
    s.memory.replay (step.trace index s) = (step.op.perform p s).memory := by
  rw [MicroOp.memory_perform, trace]
  cases hw : step.op.memoryWrite? s with
  | none =>
    cases step.op.memoryRead? s with
    | none => rfl
    | some access => rfl
  | some access =>
    obtain ⟨address, value⟩ := access
    have hlt := step.op.lt_size_of_memoryWrite? hsafe hw
    have hwrite : s.memory.write address value = .ok (s.putWord address value).memory :=
      Memory.write_eq_ok_iff.mpr ⟨hlt, rfl⟩
    cases step.op.memoryRead? s with
    | none => simp [Memory.replay, Event.replay, hwrite]
    | some access => simp [Memory.replay, Event.replay, hwrite]

/-- One more step adds its events to a chronicle, if replaying them has led to the memory before it.
-/
theorem Chronicle.extend {memory : Memory} {steps : List MicroStep} {events : List Event}
    (h : Chronicle memory steps events) (hreplay : memory.replay events = s.memory) :
    Chronicle memory (steps ++ [step]) (events ++ step.trace steps.length s) := by
  obtain ⟨phase, op⟩ := step
  cases op with
  | readMemory register target =>
    have hlt : s.value register < s.memory.size := by simpa [MicroOp.hazard?] using hsafe
    exact h.read rfl (hreplay ▸ Storage.memory_get?_of_lt hlt)
  | writeMemory register source => exact h.write rfl
  | _ =>
    refine h.silent ?_ ?_
    · rintro register target ⟨⟩
    · rintro register source ⟨⟩

end

/-! ## Recording a session -/

namespace Session

/-- What is true of a session that is traced and the events it has emitted since it was opened or
last reset. -/
structure Recorded (p : Profile) (program : Program) (s : Session) (events : List Event) :
    Prop where
  reachable : Machine.Reachable p program s.machine
  traced : s.config.tracing = true ∧ s.hasSink = true
  chronicle : ∃ record, Chronicle (program.declared p).memory (program.steps.take s.cursor) record ∧
    events = record ++ (s.fault.map (.faulted s.cursor)).toList
  replay : (program.declared p).memory.replay events = s.machine.storage.memory

namespace Recorded

variable {p : Profile} {program : Program} {s : Session} {events : List Event}

/-- A session that has just been opened has emitted nothing. -/
theorem fresh (hp : p.Registered) (hs : Machine.load p program = .ok s.machine)
    (htraced : s.config.tracing = true ∧ s.hasSink = true) : Recorded p program s [] := by
  obtain ⟨hwf, hm⟩ := (Machine.load_eq_ok_iff hp).mp hs
  exact {
    reachable := .load hs
    traced := htraced
    chronicle := ⟨[], by rw [cursor, hm]; exact .nil, by rw [fault, hm]; rfl⟩
    replay := by rw [hm]; rfl }

variable (h : Recorded p program s events) (hp : p.Registered)
include h hp

/-- Until a fault is appended, the events are those of steps. -/
theorem chronicle_of_isLive (hlive : s.state.isLive = true) :
    Chronicle (program.declared p).memory (program.steps.take s.cursor) events := by
  have hnone : s.fault = none := (h.reachable.lifecycle hp).fault_eq_none hlive
  obtain ⟨record, hchronicle, rfl⟩ := h.chronicle
  rw [hnone]
  exact (List.append_nil record).symm ▸ hchronicle

/-- An advance that applies a step appends the events of the step, and one that fails in a step
appends the fault. -/
theorem advance : Recorded p program s.advance.session (events ++ s.advance.events) := by
  have hreachable := reachable_advance h.reachable
  have hspec := advance_spec h.reachable hp
  have hemitted : ∀ events, s.emitted events = events := fun _ ↦ if_pos h.traced
  generalize s.advance = response at hspec hreachable ⊢
  cases hspec with
  | refused => simpa using h
  | @faulted step fault hlive =>
    rw [hemitted]
    exact {
      reachable := hreachable
      traced := h.traced
      chronicle := ⟨events, h.chronicle_of_isLive hp hlive, rfl⟩
      replay := by
        rw [Memory.replay_append, h.replay]
        rfl }
  | @applied step e r hlive hstep hsafe hread hwrite hr =>
    have hnone : s.fault = none := (h.reachable.lifecycle hp).fault_eq_none hlive
    have htrace : r.trace = step.trace s.cursor s.machine.storage := by
      rw [hr, StepRecord.trace, hread, hwrite]
      rfl
    have hlength : (program.steps.take s.cursor).length = s.cursor :=
      List.length_take_of_le (h.reachable.sound hp).cursor_le
    rw [hemitted, htrace]
    exact {
      reachable := hreachable
      traced := h.traced
      chronicle := by
        -- the memory before the step is the one that the events so far have led to
        have hextended := (h.chronicle_of_isLive hp hlive).extend hsafe h.replay
        rw [hlength] at hextended
        refine ⟨events ++ step.trace s.cursor s.machine.storage, ?_, ?_⟩
        · show Chronicle _ (program.steps.take (s.cursor + 1)) _
          rw [List.take_add_one, hstep]
          exact hextended
        · show _ = _ ++ (s.fault.map _).toList
          rw [hnone]
          exact (List.append_nil _).symm
      replay := by
        rw [Memory.replay_append, h.replay]
        exact MicroStep.replay_trace hsafe p s.cursor }

/-- A run adds the events of its steps, and that of a fault. -/
theorem run (hlive : s.state.isLive = true) :
    Recorded p program s.runToCompletion.session (events ++ s.runToCompletion.events) := by
  obtain ⟨run, -, hruns⟩ := runs_runToCompletion hp h.reachable hlive
  exact hruns.preserves (fun hs ↦ hs.advance hp) events h

omit hp in
theorem abort : Recorded p program s.abort.1 events := by
  cases hlive : s.machine.state.isLive with
  | false =>
    rw [Session.abort, Machine.abort_of_stopped hlive]
    exact h
  | true =>
    have hreachable := h.reachable.abort
    rw [Session.abort]
    rw [Machine.abort_of_live hlive] at hreachable ⊢
    exact ⟨hreachable, h.traced, h.chronicle, h.replay⟩

/-- A reset starts a new record. -/
theorem reset : Recorded p program s.reset.1 [] := by
  have hwf := h.reachable.wellFormed hp
  rw [Session.reset_eq h.reachable hp]
  exact fresh hp ((Machine.load_eq_ok_iff hp).mpr ⟨hwf, rfl⟩) h.traced

end Recorded

/-- A session with the events that it has emitted since it was opened or last reset. -/
structure Recording where
  session : Session
  events : List Event

def Recording.call (r : Recording) (c : Call) : Recording where
  session := (r.session.call c).1
  events := (if c = .reset then [] else r.events) ++ (r.session.call c).2

/-- The session after a sequence of calls, with the events since the last reset among them. -/
def record (s : Session) (calls : List Call) : Recording := calls.foldl Recording.call ⟨s, []⟩

section

variable {p : Profile} {program : Program} {s : Session}

/-- Whatever is called, the record is kept. -/
theorem Recorded.call {r : Recording} (h : Recorded p program r.session r.events)
    (hp : p.Registered) (c : Call) :
    Recorded p program (r.call c).session (r.call c).events := by
  cases c with
  | advance => exact h.advance hp
  | abort =>
    show Recorded p program r.session.abort.1 (r.events ++ [])
    rw [List.append_nil]
    exact h.abort
  | reset => exact h.reset hp
  | run =>
    show Recorded p program r.session.runToCompletion.session
      (r.events ++ r.session.runToCompletion.events)
    cases hlive : r.session.state.isLive with
    | false =>
      rw [runToCompletion_of_stopped hlive, List.append_nil]
      exact h
    | true => exact h.run hp hlive
  | snapshot =>
    show Recorded p program r.session (r.events ++ [])
    rwa [List.append_nil]

theorem Recorded.record (h : Recorded p program s []) (hp : p.Registered) (calls : List Call) :
    Recorded p program (s.record calls).session (s.record calls).events :=
  List.foldlRecOn (motive := fun r : Recording ↦ Recorded p program r.session r.events) calls _ h
    fun _ hr c _ ↦ hr.call hp c

/-- Only advances and runs of a session that may go on emit anything. -/
theorem events_call_of_quiet (hp : p.Registered) (h : Machine.Reachable p program s.machine)
    {c : Call} (hquiet : s.state.isLive = false ∨ c ≠ .advance ∧ c ≠ .run) :
    (s.call c).2 = [] := by
  cases c with
  | advance =>
    rcases hquiet with hstopped | ⟨hne, -⟩
    · have hspec := advance_spec h hp
      show s.advance.events = []
      generalize s.advance = response at hspec ⊢
      cases hspec with
      | refused => rfl
      | faulted hlive => exact nomatch hlive.symm.trans hstopped
      | applied hlive => exact nomatch hlive.symm.trans hstopped
    · exact absurd rfl hne
  | run =>
    rcases hquiet with hstopped | ⟨-, hne⟩
    · show s.runToCompletion.events = []
      rw [runToCompletion_of_stopped hstopped]
    · exact absurd rfl hne
  | abort => rfl
  | reset => rfl
  | snapshot => rfl

end

end Session

/-- Of a session that is traced from the beginning, the events since the last reset are those of the
steps below the cursor, in order, and after them the fault that has stopped the machine, if one has.
Replayed on the memory that the session was opened with they give the memory it has, and calls that
do not carry out steps have no part in them. -/
theorem trace_of_session {p : Profile} {program : Program} {config : Config} {opened : Session}
    (hp : p.Registered) (ho : Session.ofProgram p program config = .ok opened)
    (ht : config.tracing = true) (calls : List Session.Call) {r : Session.Recording}
    (hr : opened.attachSink.record calls = r) :
    (∃ record,
      Chronicle opened.machine.storage.memory (program.steps.take r.session.cursor) record ∧
      r.events = record ++ (r.session.fault.map (.faulted r.session.cursor)).toList) ∧
    opened.machine.storage.memory.replay r.events = r.session.machine.storage.memory ∧
    ∀ c, r.session.state.isLive = false ∨ c ≠ .advance ∧ c ≠ .run →
      (r.session.call c).2 = [] := by
  cases hl : Machine.load p program with
  | error fault =>
    rw [Session.ofProgram, hl] at ho
    cases ho
  | ok m =>
    rw [Session.ofProgram, hl] at ho
    obtain rfl := Except.ok.inj ho
    have hfresh : Session.Recorded p program (Session.attachSink ⟨m, config, false⟩) [] :=
      .fresh hp hl ⟨ht, rfl⟩
    have hmemory : (program.declared p).memory = m.storage.memory := hfresh.replay
    have hrecorded := hfresh.record hp calls
    rw [hr] at hrecorded
    show (∃ record, Chronicle m.storage.memory _ record ∧ _) ∧ m.storage.memory.replay _ = _ ∧ _
    rw [← hmemory]
    exact ⟨hrecorded.chronicle, hrecorded.replay,
      fun _ ↦ Session.events_call_of_quiet hp hrecorded.reachable⟩

/-- A program that reads a word too wide for the register it goes to, stores another at the address
that is left of it, and divides by zero. -/
def Program.readNarrowly : Program where
  name := "Read into the address register"
  words := [(12, 4097)]
  overrides := [(.mar, 12), (.ac, 80), (.mq, 0)]
  steps :=
    [.execute (.readMemory .mar .mar), .execute (.writeMemory .mar .ac),
     .execute (.combine .div .ac .mq .mq (some .ac))]

/-- The read is recorded as memory held it, the fault once. -/
theorem trace_readNarrowly :
    ∃ opened, Session.ofProgram .ias .readNarrowly { tracing := true } = .ok opened ∧
      ∃ r, opened.attachSink.record [.advance, .reset, .run, .advance] = r ∧
        r.session.machine.storage.value .mar = 1 ∧
        Chronicle opened.machine.storage.memory (Program.readNarrowly.steps.take 2)
          [.applied 0 (.execute (.readMemory .mar .mar)), .accessed 12 4097 false,
           .applied 1 (.execute (.writeMemory .mar .ac)), .accessed 1 80 true] ∧
        r.events.getLast? = some (.faulted 2 (.divisionByZero .mq)) ∧
        opened.machine.storage.memory.replay r.events = r.session.machine.storage.memory ∧
        (r.session.call .advance).2 = [] := by
  have hp : Profile.ias.Registered := ⟨.ias, .simplified, rfl⟩
  have hv : Program.readNarrowly.validate .ias = .ok () := rfl
  have hl := Machine.load_of_validate hp hv
  have hopen : Session.ofProgram .ias .readNarrowly { tracing := true } =
      .ok ⟨Machine.fresh .ias .readNarrowly, { tracing := true }, false⟩ := by
    rw [Session.ofProgram, hl]
    rfl
  obtain ⟨⟨record, hchronicle, hevents⟩, hreplay, hquiet⟩ :=
    trace_of_session hp hopen rfl [.advance, .reset, .run, .advance] rfl
  generalize hr : Session.record _ _ = r at hchronicle hevents hreplay hquiet
  have hmar : r.session.machine.storage.value .mar = 1 := by rw [← hr]; decide +kernel
  have hstate : r.session.state = .aborted := by rw [← hr]; decide +kernel
  have hcursor : r.session.cursor = 2 := by rw [← hr]; decide +kernel
  have hfault : r.session.fault = some (.divisionByZero .mq) := by rw [← hr]; decide +kernel
  have hshown : r.events =
      [.applied 0 (.execute (.readMemory .mar .mar)), .accessed 12 4097 false,
       .applied 1 (.execute (.writeMemory .mar .ac)), .accessed 1 80 true,
       .faulted 2 (.divisionByZero .mq)] := by rw [← hr]; decide +kernel
  rw [hcursor, hfault, hshown] at hevents
  obtain rfl := (congrArg List.dropLast hevents).trans List.dropLast_concat
  rw [hcursor] at hchronicle
  exact ⟨_, hopen, r, hr, hmar, hchronicle, by rw [hshown]; rfl, hreplay,
    hquiet .advance (.inl (by rw [hstate]; rfl))⟩

end FetchExecute
