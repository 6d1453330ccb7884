import FetchExecute.Proofs.Lockstep
import FetchExecute.Proofs.Snapshot

/-!
# Presentation

Names, phases and descriptions are for the reader of a simulation.  `erase` takes
them off a step, a program, a machine, a session, and off all that a session
answers; it also takes off how a session is configured, and the rows of a
snapshot that are shown or not according to that.

Erasure commutes with what advances, aborts and resets a machine, so that the erased
session goes in lockstep with the other one (`Session.lockstep_erasing`), also while
that one is set up in other ways (`Session.erase_serve`).  Two sessions
on programs that differ in presentation alone are therefore alike in everything
else, whatever the host does with them and however it sets them up
(`presentation_is_inert`).
-/

namespace FetchExecute

/-! ## Erasure -/

def MicroStep.erase (step : MicroStep) : MicroStep := ⟨.execute, step.op⟩

/-- The program without its name and the phases of its steps. -/
def Program.erase (program : Program) : Program :=
  { program with name := "", steps := program.steps.map .erase }

def Effect.erase (e : Effect) : Effect := { e with description := "" }

def StepRecord.erase (r : StepRecord) : StepRecord :=
  { r with step := r.step.erase, effect := r.effect.erase }

def StepReport.erase (r : StepReport) : StepReport := { r with description := "" }

def Machine.erase (m : Machine) : Machine := { m with program := m.program.erase }

/-- The snapshot without the name of the program and the rows for words of zero. -/
def Snapshot.erase (s : Snapshot) : Snapshot :=
  { s with program := "", memory := s.memory.filter fun row ↦ row.value ≠ 0 }

def Session.erase (s : Session) : Session := ⟨s.machine.erase, {}, false⟩

/-- Results that agree after a mapping fail alike or succeed with values that agree. -/
theorem map_eq_map_cases {ε α β : Type} {f : α → β} {x y : Except ε α}
    (h : x.map f = y.map f) :
    (∃ e, x = .error e ∧ y = .error e) ∨ ∃ a b, x = .ok a ∧ y = .ok b ∧ f a = f b := by
  cases x with
  | error e =>
    cases y with
    | error e' => exact .inl ⟨e, rfl, congrArg _ (Except.error.inj h).symm⟩
    | ok b => cases h
  | ok a =>
    cases y with
    | error e' => cases h
    | ok b => exact .inr ⟨a, b, rfl, rfl, Except.ok.inj h⟩

/-! ## Programs -/

namespace Program

theorem stepsDefect?_erase (p : Profile) (known : List Register) (index : Nat)
    (steps : List MicroStep) :
    stepsDefect? p known index (steps.map .erase) = stepsDefect? p known index steps := by
  induction steps generalizing known index with
  | nil => rfl
  | cons step rest ih =>
    rw [List.map_cons, stepsDefect?, ih]
    rfl

/-- Validation looks neither at the name of a program nor at phases. -/
theorem validate_erase (p : Profile) (program : Program) :
    program.erase.validate p = program.validate p := by
  rw [validate, defect?, erase, stepsDefect?_erase]
  rfl

end Program

/-! ## Effects -/

/-- The phase of a step is read for its description only. -/
theorem MicroOp.erase_effect (op : MicroOp) (p : Profile) (phase phase' : Phase) (s : Storage) :
    Effect.erase <$> op.effect ⟨p, phase, s⟩ = Effect.erase <$> op.effect ⟨p, phase', s⟩ := by
  cases op with
  | readMemory address target =>
    simp only [effect, readMemoryEffect, map_bind, map_pure]
    rfl
  | writeMemory address source =>
    simp only [effect, writeMemoryEffect, map_bind, map_pure]
    rfl
  | signal | combine => rfl
  | _ =>
    simp only [effect, map_bind, map_pure]
    rfl

/-- The effect of a step does not depend on its phase, but for the description. -/
theorem MicroStep.erase_effect (step : MicroStep) (p : Profile) (s : Storage) :
    Effect.erase <$> step.erase.effect p s = Effect.erase <$> step.effect p s := by
  simp only [effect, map_bind, map_pure]
  exact MicroOp.erase_effect step.op p .execute step.phase s

/-! ## Machines -/

namespace Machine

@[simp] theorem total_erase (m : Machine) : m.erase.total = m.total :=
  List.length_map ..

/-- What a step leaves behind, erased, is what the erased step leaves. -/
theorem erase_advanced (m : Machine) (step : MicroStep) (s : Storage) :
    (m.advanced step s).erase = m.erase.advanced step.erase s := by
  rw [advanced, advanced, total_erase]
  rfl

section

variable (m : Machine)

/-- Applying a step goes the same way on the erased machine, up to descriptions. -/
theorem apply_erase (step : MicroStep) :
    (m.erase.apply step.erase).1 = (m.apply step).1.erase ∧
      Results (fun r r' ↦ r'.erase = r.erase) (m.apply step).2 (m.erase.apply step.erase).2 := by
  unfold apply
  have heffect := step.erase_effect m.profile m.storage
  rcases map_eq_map_cases heffect with ⟨fault, herased, hplain⟩ | ⟨e', e, herased, hplain, he⟩
  · rw [show step.erase.effect m.erase.profile m.erase.storage = _ from herased, hplain]
    exact ⟨rfl, .error fault⟩
  · rw [show step.erase.effect m.erase.profile m.erase.storage = _ from herased, hplain]
    have hcommit : e'.commit m.erase.profile.architecture m.erase.storage =
        e.commit m.profile.architecture m.storage :=
      congrArg (·.commit m.profile.architecture m.storage) he
    simp only [hcommit]
    rcases e.commit m.profile.architecture m.storage with ⟨s, fault | _⟩
    · exact ⟨rfl, .error fault⟩
    · refine ⟨(m.erase_advanced step s).symm, .ok ?_⟩
      simp only [StepRecord.erase, he, ← erase_advanced]
      rfl

/-- Advancing goes the same way on the erased machine, up to descriptions. -/
theorem advance_erase :
    m.erase.advance.1 = m.advance.1.erase ∧
      Results (fun r r' ↦ r'.erase = r.erase) m.advance.2 m.erase.advance.2 := by
  have hstep : m.erase.program.steps[m.erase.cursor]? =
      m.program.steps[m.cursor]?.map .erase := List.getElem?_map ..
  have hstate : m.erase.state = m.state := rfl
  rw [advance, advance, hstep, hstate]
  split
  · cases m.program.steps[m.cursor]? with
    | none => exact ⟨rfl, .error _⟩
    | some step => exact m.apply_erase step
  · exact ⟨rfl, .error _⟩

theorem abort_erase : m.erase.abort = (m.abort.1.erase, m.abort.2) := by
  unfold abort
  show (if m.state.isLive then _ else _) = _
  split
  · rfl
  · rfl

theorem restore_erase : m.erase.restore = m.restore.map .erase := by
  unfold restore
  rw [total_erase]
  show (m.program.initialStorage m.profile m.storage.memory >>= _) = _
  cases m.program.initialStorage m.profile m.storage.memory with
  | error fault => rfl
  | ok s => rfl

theorem reset_erase : m.erase.reset = (m.reset.1.erase, m.reset.2) := by
  rw [reset, reset, restore_erase]
  cases m.restore with
  | error fault => rfl
  | ok m' => rfl

end

theorem load_erase (p : Profile) (program : Program) :
    load p program.erase = (load p program).map .erase := by
  rw [load, load, Program.validate_erase]
  cases program.validate p with
  | error fault => rfl
  | ok =>
    exact restore_erase
      ⟨p, program, ⟨.zero p, .zero p.memoryWords p.wordBits⟩, .idle, 0, .loaded, none⟩

end Machine

/-! ## Snapshots -/

/-- What a snapshot shows besides names and cells with nothing in them is the same with and without
zeros. -/
theorem Machine.erase_snapshot (m : Machine) (showZeros : Bool) :
    (m.snapshot showZeros).erase = { m.snapshot false with program := "" } := by
  rw [Snapshot.erase, filter_memory_snapshot]
  rfl

theorem Session.snapshot_erase (s : Session) : s.erase.snapshot.erase = s.snapshot.erase := by
  have herased : s.erase.snapshot.erase = _ := s.machine.erase.erase_snapshot false
  have hplain : s.snapshot.erase = _ := s.machine.erase_snapshot s.config.showZeros
  rw [herased, hplain, Machine.snapshot, Machine.snapshot, Machine.total_erase]
  rfl

/-! ## Sessions -/

/-- A session belongs to what is left of it, from which no events come. -/
def Correspondence.erasing : Correspondence where
  sessions s s' := s' = s.erase
  events _ events' := events' = []
  reports r r' := r'.erase = r.erase
  snapshots x x' := x'.erase = x.erase

namespace Session

theorem ofProgram_erase (p : Profile) (program : Program) (config : Config) :
    (ofProgram p program config).map erase =
      (Machine.load p program.erase).map fun m ↦ ⟨m, {}, false⟩ := by
  rw [ofProgram, Machine.load_erase]
  cases Machine.load p program with
  | error fault => rfl
  | ok m => rfl

/-- Without tracing, steps emit nothing. -/
theorem events_advance_of_not_tracing (s : Session) (h : s.config.tracing = false) :
    s.advance.events = [] := by
  have hemitted : ∀ events, s.emitted events = [] := fun _ ↦ if_neg (by simp [h])
  unfold advance
  split
  · exact hemitted _
  · simp only [hemitted, ite_self]

/-- Erasure commutes with the operations of a session, as it does with those of its machine. -/
theorem lockstep_erasing : Lockstep .erasing fun _ ↦ True where
  nil := rfl
  append := by
    rintro _ _ _ _ rfl rfl
    rfl
  isLast := by
    intro r r' (h : r'.erase = r.erase)
    exact congrArg (·.isLast) h
  state := by
    rintro s _ rfl
    rfl
  cursor := by
    rintro s _ rfl
    rfl
  total := by
    rintro s _ rfl
    exact s.machine.total_erase
  fault := by
    rintro s _ rfl
    rfl
  advance := by
    rintro s _ rfl -
    obtain ⟨hmachine, hresult⟩ := s.machine.advance_erase
    refine ⟨?_, s.erase.events_advance_of_not_tracing rfl, ?_⟩
    · rw [session_advance, session_advance]
      exact congrArg (Session.mk · {} false) hmachine
    · rw [result_advance, result_advance]
      -- a report without its text is the report of a record without its text
      exact hresult.map fun hr ↦ congrArg StepRecord.report hr
  abort := by
    rintro s _ rfl
    obtain ⟨hmachine, hresult⟩ := Prod.ext_iff.mp s.machine.abort_erase
    exact ⟨congrArg (Session.mk · {} false) hmachine, hresult⟩
  reset := by
    rintro s _ rfl
    obtain ⟨hmachine, hresult⟩ := Prod.ext_iff.mp s.machine.reset_erase
    exact ⟨congrArg (Session.mk · {} false) hmachine, hresult⟩
  snapshot := by
    rintro s _ rfl
    exact s.snapshot_erase

end Session

/-! ## What the host does -/

namespace Session

def Reply.erase : Reply → Reply
  | .stepped result => .stepped (result.map .erase)
  | .shown snapshot => .shown snapshot.erase
  | reply => reply

/-- What a host does with a session: it calls it, or sets it up in another way. -/
inductive Request where
  | call (c : Call)
  | configure (config : Config)
  | attachSink
deriving DecidableEq, Repr

def Request.call? : Request → Option Call
  | .call c => some c
  | _ => none

def request (s : Session) : Request → Session
  | .call c => (s.call c).1
  | .configure config => s.withConfig config
  | .attachSink => s.attachSink

/-- The session after a sequence of requests. -/
def serve (s : Session) (requests : List Request) : Session := requests.foldl request s

/-- Every call keeps the erased session erased. -/
theorem call_erase (s : Session) (c : Call) : (s.erase.call c).1 = (s.call c).1.erase :=
  (lockstep_erasing.call rfl c fun _ _ ↦ trivial).1

theorem reply_erase (s : Session) (c : Call) : (s.erase.reply c).erase = (s.reply c).erase := by
  obtain ⟨-, -, hreplies⟩ := lockstep_erasing.call (s := s) rfl c fun _ _ ↦ trivial
  generalize s.reply c = answer, s.erase.reply c = answer' at hreplies
  cases hreplies with
  | stepped hresult =>
    cases hresult with
    | error fault => rfl
    | ok hreport => exact congrArg (fun r ↦ Reply.stepped (.ok r)) hreport
  | ran => rfl
  | done => rfl
  | shown hsnapshot => exact congrArg Reply.shown hsnapshot

/-- The erased session goes along, and does not notice how the session is set up. -/
theorem erase_serve (s : Session) (requests : List Request) :
    (s.serve requests).erase = s.erase.after (requests.filterMap Request.call?) := by
  induction requests generalizing s with
  | nil => rfl
  | cons r rest ih =>
    cases r with
    | call c =>
      have hrest : (s.serve (.call c :: rest)).erase = _ := ih (s.call c).1
      rw [hrest, ← call_erase]
      rfl
    | configure config => exact ih (s.withConfig config)
    | attachSink => exact ih s.attachSink

/-- Two sessions that are alike but for what they show. -/
structure Agrees (s s' : Session) : Prop where
  storage : s.machine.storage = s'.machine.storage
  control : s.machine.control = s'.machine.control
  cursor : s.cursor = s'.cursor
  state : s.state = s'.state
  fault : s.fault = s'.fault
  reply : ∀ c, (s.reply c).erase = (s'.reply c).erase

/-- Sessions of which the same is left are alike. -/
theorem agrees_of_erase_eq {s s' : Session} (h : s.erase = s'.erase) : s.Agrees s' where
  storage := congrArg (·.machine.storage) h
  control := congrArg (·.machine.control) h
  cursor := congrArg (·.machine.cursor) h
  state := congrArg (·.machine.state) h
  fault := congrArg (·.machine.fault) h
  reply := by
    intro c
    rw [← reply_erase s, h, reply_erase]

end Session

/-- Programs that differ in their names and in the phases of their steps are accepted alike, and
after the same calls, between which each session may be set up in any way, sessions on them agree in
all but presentation. -/
theorem presentation_is_inert (p : Profile) {program program' : Program}
    (h : program.erase = program'.erase) (config config' : Config) :
    program.validate p = program'.validate p ∧
    ((∃ fault, Session.ofProgram p program config = .error fault ∧
        Session.ofProgram p program' config' = .error fault) ∨
      ∃ s s', Session.ofProgram p program config = .ok s ∧
        Session.ofProgram p program' config' = .ok s' ∧
        ∀ requests requests' : List Session.Request,
          requests.filterMap (·.call?) = requests'.filterMap (·.call?) →
          (s.serve requests).Agrees (s'.serve requests')) := by
  refine ⟨by rw [← Program.validate_erase, h, Program.validate_erase], ?_⟩
  have hopen : (Session.ofProgram p program config).map Session.erase =
      (Session.ofProgram p program' config').map .erase := by
    rw [Session.ofProgram_erase, h, Session.ofProgram_erase]
  rcases map_eq_map_cases hopen with hfails | ⟨s, s', hs, hs', heq⟩
  · exact .inl hfails
  · refine .inr ⟨s, s', hs, hs', ?_⟩
    intro requests requests' hcalls
    refine Session.agrees_of_erase_eq ?_
    rw [Session.erase_serve, Session.erase_serve, heq]
    exact congrArg _ hcalls

/-- Divides by zero like the other program, but calls all of it fetching. -/
def Program.storeThenDivideFetching : Program :=
  { storeThenDivide with
    name := "All fetching"
    steps := storeThenDivide.steps.map fun step ↦ .fetch step.op }

/-- A traced session on the one program and a plain session on the other come to the same fault. -/
theorem presentation_of_storeThenDivide_is_inert :
    ∃ s s', Session.ofProgram .ias .storeThenDivide {} = .ok s ∧
      Session.ofProgram .ias .storeThenDivideFetching { showZeros := true } = .ok s' ∧
      (s.serve [.call .advance, .attachSink, .configure { tracing := true }, .call .run]).Agrees
        (s'.serve [.call .advance, .call .run]) := by
  have hp : Profile.ias.Registered := ⟨.ias, .simplified, rfl⟩
  have h : Program.storeThenDivide.erase = Program.storeThenDivideFetching.erase := rfl
  obtain ⟨-, hopen⟩ := presentation_is_inert .ias h {} { showZeros := true }
  rcases hopen with ⟨fault, hfails, -⟩ | ⟨s, s', hs, hs', hagrees⟩
  · exact nomatch (Session.ofProgram_of_validate hp rfl {}).symm.trans hfails
  · exact ⟨s, s', hs, hs', hagrees _ _ rfl⟩

end FetchExecute
