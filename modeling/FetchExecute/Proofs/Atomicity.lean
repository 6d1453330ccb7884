import FetchExecute.Proofs.Session

/-!
# Failing operations

An operation that fails does so as a whole.  A refusal leaves everything as it
is, whether the engine is empty, the machine has stopped or the program to be
loaded is not valid; and a step that raises a fault leaves nothing behind but
the fault and the abortion of the machine.  There is no third way: effects are
computed before anything is committed, and no commit breaks off
(`Machine.Reachable.advance_of_error`).

`failing_operations_atomic` states it for every engine that can be reached
(`Engine.Atomic`), and for sessions that have come to their end
(`Session.RefusesQuietly`).
-/

namespace FetchExecute

/-! ## Faults of validation -/

namespace Program

variable {p : Profile} {fault : Fault}

theorem kind_of_absence? {r : Register} (h : absence? p r = some fault) :
    fault.kind = .programData := by
  unfold absence? at h
  split at h
  · cases h
  · obtain rfl := Option.some.inj h
    rfl

theorem kind_of_stepDefect? {known : List Register} {index : Nat} {step : MicroStep}
    (h : stepDefect? p known index step = some fault) : fault.kind = .programData := by
  rcases Option.or_eq_some_iff.mp h with hreads | ⟨-, hwrites⟩
  · obtain ⟨r, -, hr⟩ := List.exists_of_findSome?_eq_some hreads
    rcases Option.or_eq_some_iff.mp hr with habsent | ⟨-, hunpopulated⟩
    · exact kind_of_absence? habsent
    · split at hunpopulated
      · cases hunpopulated
      · obtain rfl := Option.some.inj hunpopulated
        rfl
  · obtain ⟨r, -, hr⟩ := List.exists_of_findSome?_eq_some hwrites
    exact kind_of_absence? hr

theorem kind_of_stepsDefect? {known : List Register} {index : Nat} {steps : List MicroStep}
    (h : stepsDefect? p known index steps = some fault) : fault.kind = .programData := by
  induction steps generalizing known index with
  | nil => cases h
  | cons step rest ih =>
    rcases Option.or_eq_some_iff.mp h with hfirst | ⟨-, hrest⟩
    · exact kind_of_stepDefect? hfirst
    · exact ih hrest

/-- What validation finds wrong is for the author of the program to mend. -/
theorem kind_of_validate {program : Program} (h : program.validate p = .error fault) :
    fault.kind = .programData := by
  unfold validate at h
  split at h
  · rename_i found hfound
    obtain rfl : found = fault := Except.error.inj h
    rcases Option.or_eq_some_iff.mp hfound with hword | ⟨-, hrest⟩
    · obtain ⟨entry, -, rfl⟩ := Option.map_eq_some_iff.mp hword
      rfl
    · rcases Option.or_eq_some_iff.mp hrest with hoverride | ⟨-, hsteps⟩
      · obtain ⟨entry, -, hentry⟩ := List.exists_of_findSome?_eq_some hoverride
        exact kind_of_absence? hentry
      · exact kind_of_stepsDefect? hsteps
  · cases h

end Program

/-! ## Machines -/

namespace Machine

variable {p : Profile} {program : Program} {m : Machine}

/-- A program that is rejected is not loaded, and the fault is that of the validation. -/
theorem load_of_invalid {fault : Fault} (h : program.validate p = .error fault) :
    load p program = .error fault := by
  rw [load, h]
  rfl

/-- Loading fails by a fault of the program only. -/
theorem kind_of_load (hp : p.Registered) {fault : Fault} (h : load p program = .error fault) :
    fault.kind = .programData := by
  cases hv : program.validate p with
  | error found =>
    obtain rfl : found = fault := Except.error.inj ((load_of_invalid hv).symm.trans h)
    exact Program.kind_of_validate hv
  | ok _ =>
    exact nomatch (load_of_validate hp hv).symm.trans h

/-- An advance fails in one of two ways: it is refused and changes nothing, or the step raises a
fault, which stops the machine and is kept. -/
theorem Reachable.advance_of_error (h : Reachable p program m) (hp : p.Registered) {fault : Fault}
    (hf : m.advance.2 = .error fault) :
    (m.state.isLive = false ∧ fault = .finished m.state ∧ m.advance.1 = m) ∨
      (m.state.isLive = true ∧ fault.kind = .programData ∧
        m.advance.1 = { m with state := .aborted, fault := some fault }) := by
  have hspec := h.advance_spec hp
  cases hadvance : m.advance with | mk m' result
  rw [hadvance] at hspec hf
  cases hspec with
  | refused hstopped => exact .inl ⟨hstopped, (Except.error.inj hf).symm, rfl⟩
  | faulted hlive _ hhazard =>
    obtain rfl := Except.error.inj hf
    exact .inr ⟨hlive, MicroOp.kind_of_hazard? hhazard, rfl⟩
  | applied => cases hf

/-- An abort fails only by being refused. -/
theorem abort_of_error {fault : Fault} (hf : m.abort.2 = .error fault) :
    m.state.isLive = false ∧ fault = .finished m.state ∧ m.abort.1 = m := by
  cases hlive : m.state.isLive with
  | false =>
    rw [abort_of_stopped hlive] at hf ⊢
    exact ⟨rfl, (Except.error.inj hf).symm, rfl⟩
  | true =>
    rw [abort_of_live hlive] at hf
    cases hf

end Machine

/-! ## Engines -/

namespace Engine

/-- An operation of the engine. Programs are loaded for one of the machines, under either split
policy. -/
inductive Call where
  | load (a : Architecture) (policy : SplitPolicy) (program : Program)
  | advance
  | abort
  | reset
deriving DecidableEq, Repr

/-- The engine after an operation, and whether the operation failed. -/
def call (e : Engine) : Call → Engine × Except Fault Unit
  | .load a policy program => e.load ((Profile.ofArchitecture a).withSplit policy) program
  | .advance => (e.advance.1, e.advance.2.map fun _ ↦ ())
  | .abort => e.abort
  | .reset => e.reset

/-- The ways in which an operation can fail, and the engine that it leaves. -/
inductive Failure (e : Engine) : Call → Fault → Engine → Prop
  | empty {c : Call} : e = empty → Failure e c .notLoaded e
  | refused {c : Call} {m : Machine} : e.machine? = some m → m.state.isLive = false →
      Failure e c (.finished m.state) e
  | invalid {a : Architecture} {policy : SplitPolicy} {program : Program} {fault : Fault} :
      fault.kind = .programData → Failure e (.load a policy program) fault e
  | step {m : Machine} {fault : Fault} : e.machine? = some m → m.state.isLive = true →
      fault.kind = .programData →
      Failure e .advance fault ⟨some { m with state := .aborted, fault := some fault }⟩

variable {e : Engine} {c : Call} {fault : Fault}

theorem eq_of_machine? {m : Machine} (h : e.machine? = some m) : e = ⟨some m⟩ := by
  rw [← h]

theorem eq_empty_of_machine? (h : e.machine? = none) : e = empty := by
  rw [empty, ← h]

theorem load_of_error {p : Profile} {program : Program} (h : Machine.load p program = .error fault) :
    e.load p program = (e, .error fault) := by
  rw [load, h]

theorem failure_of_load {a : Architecture} {policy : SplitPolicy} {program : Program}
    (hf : (e.call (.load a policy program)).2 = .error fault) :
    e.Failure (.load a policy program) fault (e.call (.load a policy program)).1 := by
  rw [call] at hf ⊢
  cases hl : Machine.load ((Profile.ofArchitecture a).withSplit policy) program with
  | error found =>
    rw [load_of_error hl] at hf ⊢
    obtain rfl := Except.error.inj hf
    exact .invalid (Machine.kind_of_load ⟨a, policy, rfl⟩ hl)
  | ok m =>
    rw [load, hl] at hf
    cases hf

/-- Without a machine, operations fail for want of one or by a load. -/
theorem failure_of_empty (hf : (empty.call c).2 = .error fault) :
    empty.Failure c fault (empty.call c).1 := by
  cases c with
  | load a policy program => exact failure_of_load hf
  | advance =>
    obtain rfl := Except.error.inj hf
    exact .empty rfl
  | abort =>
    obtain rfl := Except.error.inj hf
    exact .empty rfl
  | reset =>
    obtain rfl := Except.error.inj hf
    exact .empty rfl

/-- With a machine, operations fail by a refusal, a faulty step or a load. -/
theorem failure_of_machine {p : Profile} {program : Program} {m : Machine} (hp : p.Registered)
    (h : Machine.Reachable p program m) (hf : (call ⟨some m⟩ c).2 = .error fault) :
    Failure ⟨some m⟩ c fault (call ⟨some m⟩ c).1 := by
  cases c with
  | load a policy program => exact failure_of_load hf
  | advance =>
    have hadvance : m.advance.2 = .error fault := by
      cases hresult : m.advance.2 with
      | error found => simpa [call, advance, lift, hresult, Except.map] using hf
      | ok r => simp [call, advance, lift, hresult, Except.map] at hf
    show Failure ⟨some m⟩ .advance fault ⟨some m.advance.1⟩
    rcases h.advance_of_error hp hadvance with ⟨hstopped, rfl, hm⟩ | ⟨hlive, hkind, hm⟩
    · rw [hm]
      exact .refused rfl hstopped
    · rw [hm]
      exact .step rfl hlive hkind
  | abort =>
    obtain ⟨hstopped, rfl, hm⟩ := Machine.abort_of_error (m := m) hf
    show Failure ⟨some m⟩ .abort _ ⟨some m.abort.1⟩
    rw [hm]
    exact .refused rfl hstopped
  | reset =>
    have hreset : m.reset.2 = .error fault := hf
    rw [(h.sound hp).reset_eq (h.wellFormed hp) hp] at hreset
    cases hreset

section

variable {e' : Engine}

/-- The fault that nothing is loaded comes from the empty engine only. -/
theorem Failure.of_notLoaded (h : e.Failure c .notLoaded e') :
    e = Engine.empty ∧ e' = Engine.empty := by
  cases h with
  | empty hempty => exact ⟨hempty, hempty⟩
  | invalid hkind => cases hkind
  | step _ _ hkind => cases hkind

/-- A refusal comes from a stopped machine only, and names its state. -/
theorem Failure.of_finished {s : RunState} (h : e.Failure c (.finished s) e') :
    e' = e ∧ ∃ m, e.machine? = some m ∧ m.state = s ∧ (s = .completed ∨ s = .aborted) := by
  cases h with
  | refused hm hstopped => exact ⟨rfl, _, hm, rfl, RunState.isLive_eq_false_iff.mp hstopped⟩
  | invalid hkind => cases hkind
  | step _ _ hkind => cases hkind

/-- A failure leaves the engine as it was, unless it is that of a step. -/
theorem Failure.eq_or_step (h : e.Failure c fault e') :
    e' = e ∨ c = .advance ∧ fault.kind = .programData := by
  cases h with
  | empty => exact .inl rfl
  | refused => exact .inl rfl
  | invalid => exact .inl rfl
  | step _ _ hkind => exact .inr ⟨rfl, hkind⟩

end

theorem call_advance_of_error (hf : e.advance.2 = .error fault) :
    (e.call .advance).2 = .error fault := by
  rw [call, hf]
  rfl

theorem Reachable.advances {m : Machine} (h : Reachable ⟨some m⟩) (k : Nat) :
    Reachable ⟨some (m.advances k)⟩ := by
  induction k with
  | zero => exact h
  | succ k ih => exact ih.advance

/-- In every engine that can be reached, an operation can fail only in the ways listed. -/
theorem Reachable.failure (h : Reachable e) (hf : (e.call c).2 = .error fault) :
    e.Failure c fault (e.call c).1 := by
  cases hm : e.machine? with
  | none =>
    obtain rfl := eq_empty_of_machine? hm
    exact failure_of_empty hf
  | some m =>
    obtain ⟨p, program, hp, hr⟩ := h.machine_reachable hm
    obtain rfl := eq_of_machine? hm
    exact failure_of_machine hp hr hf

/-- What becomes of an engine when an operation fails. -/
structure Atomic (e : Engine) : Prop where
  /-- A failure changes nothing, unless a step has raised it. -/
  error : ∀ {c : Call} {fault : Fault}, (e.call c).2 = .error fault →
    (e.call c).1 = e ∨ c = .advance ∧ fault.kind = .programData
  notLoaded : ∀ {c : Call}, (e.call c).2 = .error .notLoaded → e = empty ∧ (e.call c).1 = empty
  finished : ∀ {c : Call} {s : RunState}, (e.call c).2 = .error (.finished s) → (e.call c).1 = e
  advance_finished_iff : ∀ {s : RunState}, e.advance.2 = .error (.finished s) ↔
    ∃ m, e.machine? = some m ∧ m.state = s ∧ (s = .completed ∨ s = .aborted)
  abort_finished_iff : ∀ {s : RunState}, e.abort.2 = .error (.finished s) ↔
    ∃ m, e.machine? = some m ∧ m.state = s ∧ (s = .completed ∨ s = .aborted)
  load_invalid : ∀ {p : Profile} {program : Program} {fault : Fault},
    program.validate p = .error fault → e.load p program = (e, .error fault)
  /-- What a step raises stops the machine and is kept, and nothing else changes. -/
  advance_fault : ∀ {m : Machine} {fault : Fault}, e.machine? = some m →
    e.advance.2 = .error fault → (∀ s, fault ≠ .finished s) →
    e.advance.1.machine? = some { m with state := .aborted, fault := some fault }

/-- Steps are refused exactly by stopped machines. -/
theorem Reachable.advance_finished_iff (h : Reachable e) {s : RunState} :
    e.advance.2 = .error (.finished s) ↔
      ∃ m, e.machine? = some m ∧ m.state = s ∧ (s = .completed ∨ s = .aborted) := by
  constructor
  · intro hf
    exact (h.failure (call_advance_of_error hf)).of_finished.2
  · rintro ⟨m, hm, rfl, hstate⟩
    obtain rfl := eq_of_machine? hm
    show m.advance.2 = _
    rw [Machine.advance_of_stopped (RunState.isLive_eq_false_iff.mpr hstate)]

theorem Reachable.abort_finished_iff (h : Reachable e) {s : RunState} :
    e.abort.2 = .error (.finished s) ↔
      ∃ m, e.machine? = some m ∧ m.state = s ∧ (s = .completed ∨ s = .aborted) := by
  constructor
  · intro hf
    exact (h.failure (c := .abort) hf).of_finished.2
  · rintro ⟨m, hm, rfl, hstate⟩
    obtain rfl := eq_of_machine? hm
    show m.abort.2 = _
    rw [Machine.abort_of_stopped (RunState.isLive_eq_false_iff.mpr hstate)]

theorem Reachable.atomic (h : Reachable e) : e.Atomic where
  error := fun hf ↦ (h.failure hf).eq_or_step
  notLoaded := fun hf ↦ (h.failure hf).of_notLoaded
  finished := fun hf ↦ (h.failure hf).of_finished.1
  advance_finished_iff := h.advance_finished_iff
  abort_finished_iff := h.abort_finished_iff
  load_invalid := fun hv ↦ load_of_error (Machine.load_of_invalid hv)
  advance_fault := by
    intro m fault hm hf hne
    have hfailure := h.failure (call_advance_of_error hf)
    rw [call] at hfailure
    generalize e.advance.1 = e' at hfailure ⊢
    cases hfailure with
    | empty hempty => rw [hempty] at hm; cases hm
    | refused => exact absurd rfl (hne _)
    | step hm' =>
      obtain rfl := Option.some.inj (hm.symm.trans hm')
      rfl

end Engine

/-! ## Sessions -/

/-- A session that has come to its end turns down every call that would go on with it: nothing
changes and nothing is emitted. -/
structure Session.RefusesQuietly (s : Session) : Prop where
  advance : s.advance = ⟨s, [], .error (.finished s.state)⟩
  abort : s.abort = (s, .error (.finished s.state))
  run : s.runToCompletion = ⟨s, [], .error (.finished s.state)⟩

/-- A stopped session refuses all but a reset, and emits nothing. -/
theorem Session.refusesQuietly_of_stopped {p : Profile} {program : Program} {s : Session}
    (hp : p.Registered) (h : Machine.Reachable p program s.machine)
    (hstopped : s.state.isLive = false) : s.RefusesQuietly where
  advance := by
    have hspec := advance_spec h hp
    generalize s.advance = response at hspec ⊢
    cases hspec with
    | refused => rfl
    | faulted hlive => exact nomatch hlive.symm.trans hstopped
    | applied hlive => exact nomatch hlive.symm.trans hstopped
  abort := by
    rw [Session.abort, Machine.abort_of_stopped hstopped]
    rfl
  run := runToCompletion_of_stopped hstopped

/-- An operation that fails leaves nothing half done, neither on an engine, whatever has been loaded
and called on it, nor on a session whose machine has stopped. -/
theorem failing_operations_atomic :
    (∀ {e : Engine}, Engine.Reachable e → e.Atomic) ∧
    ∀ {p : Profile} {program : Program} {s : Session}, p.Registered →
      Machine.Reachable p program s.machine → (s.state = .completed ∨ s.state = .aborted) →
      s.RefusesQuietly :=
  ⟨fun h ↦ h.atomic, fun hp h hstate ↦
    Session.refusesQuietly_of_stopped hp h (RunState.isLive_eq_false_iff.mpr hstate)⟩

/-- A step fails half way through a program; a program that reads an unpopulated register is turned
down while that one is loaded; and a completed session is advanced. -/
theorem failing_operations_storeThenDivide :
    (∃ (e : Engine) (m : Machine), Engine.Reachable e ∧ e.machine? = some m ∧ m.cursor = 3 ∧
      e.advance.1.machine? =
        some { m with state := .aborted, fault := some (.divisionByZero .mq) } ∧
      e.load .ias { Program.storeThenDivide with overrides := [] } =
        (e, .error (.unpopulated 0 .ac))) ∧
    ∃ s : Session, s.state = .completed ∧ s.advance = ⟨s, [], .error (.finished s.state)⟩ := by
  have hp : Profile.ias.Registered := ⟨.ias, .simplified, rfl⟩
  constructor
  · have hl := Machine.load_storeThenDivide
    have hloaded : Engine.Reachable ⟨some (Machine.fresh .ias .storeThenDivide)⟩ := by
      have hload := Engine.Reachable.load .storeThenDivide hp .empty
      rwa [Engine.load, hl] at hload
    obtain ⟨hcursor, hfault⟩ := Machine.stopped_storeThenDivide
    have hlast := ((((Machine.Reachable.load hl).advances 4).history hp).faulted hfault).2
    rw [hcursor] at hlast
    have hunpopulated : Program.validate .ias { Program.storeThenDivide with overrides := [] } =
        .error (.unpopulated 0 .ac) := rfl
    obtain ⟨m, hr, hm, hadvance⟩ : ∃ m, Engine.Reachable ⟨some m⟩ ∧ m.cursor = 3 ∧
        m.advance.2 = .error (.divisionByZero .mq) :=
      ⟨_, hloaded.advances 3, by decide +kernel, congrArg Prod.snd hlast⟩
    have hatomic := failing_operations_atomic.1 hr
    exact ⟨_, m, hr, rfl, hm, hatomic.advance_fault rfl hadvance (fun _ ↦ Fault.noConfusion),
      hatomic.load_invalid hunpopulated⟩
  · have hempty : Program.validate .ias ⟨"", [], [], []⟩ = .ok () := rfl
    have hl := Machine.load_of_validate hp hempty
    exact ⟨⟨_, {}, false⟩, rfl, (failing_operations_atomic.2 hp (.load hl) (.inl rfl)).advance⟩

end FetchExecute
