import FetchExecute.Proofs.Lockstep

/-!
# One program in place of another

What a machine holds and answers depends on its program through few things: the storage
that the program declares, and what its steps are called, what kind they are, and
what effect they have.  A program that agrees with another one in these
(`Program.StandsIn`) can be put in its place in any machine that is running it, at any
time (`Machine.replacement_running`), and nothing but the steps that are recorded will
be others (`Session.call_running`, `Session.after_running`).  Sessions on two programs that a third
one can stand in for are therefore alike (`Session.alikeUpTo_after`).

This is put to use for second destinations.  Additions and subtractions have no use
for one, so that a program without any stands in for one that names them, be it that
the machine lacks the registers (`spare_destination_is_inert`).
-/

namespace FetchExecute

/-! ## Steps that pass for others -/

/-- Steps that do the same and are called the same. -/
structure MicroStep.Interchangeable (step step' : MicroStep) : Prop where
  label : step.label = step'.label
  kind : step.kind = step'.kind
  reads : step.reads = step'.reads
  writes : step.writes = step'.writes
  effect : step.effect = step'.effect

theorem MicroStep.Interchangeable.refl (step : MicroStep) : step.Interchangeable step :=
  ⟨rfl, rfl, rfl, rfl, rfl⟩

/-- The other program suits the machine, declares the same storage, and has the same steps but for
a rewriting that is not noticed. -/
structure Program.StandsIn (p : Profile) (f : MicroStep → MicroStep) (program program' : Program) :
    Prop where
  interchangeable : ∀ step, (f step).Interchangeable step
  name : program'.name = program.name
  steps : program'.steps = program.steps.map f
  declared : program'.declared p = program.declared p
  wellFormed : program'.WellFormed p

theorem Program.StandsIn.length_eq {p : Profile} {f : MicroStep → MicroStep}
    {program program' : Program} (h : program.StandsIn p f program') :
    program'.steps.length = program.steps.length := by
  rw [h.steps, List.length_map]

/-! ## Machines -/

namespace Machine

/-- The machine with another program. -/
def running (m : Machine) (program : Program) : Machine := { m with program := program }

variable {p : Profile} {f : MicroStep → MicroStep} {program program' : Program} {m : Machine}
  (h : program.StandsIn p f program')
include h

theorem running_fresh : (fresh p program).running program' = fresh p program' := by
  rw [fresh, fresh, running, h.declared, h.length_eq]

theorem total_running (hprogram : m.program = program) : (m.running program').total = m.total := by
  rw [total, total, hprogram]
  exact h.length_eq

/-- Applying the rewritten step on the machine with another program does what the step does. -/
theorem apply_running (hprogram : m.program = program) (step : MicroStep) :
    (m.running program').apply (f step) =
      ((m.apply step).1.running program', (m.apply step).2.map (StepRecord.rewrite f)) := by
  have hadvanced (s : Storage) :
      (m.running program').advanced (f step) s = (m.advanced step s).running program' := by
    rw [advanced, advanced, total_running h hprogram, (h.interchangeable step).kind]
    rfl
  have heffect : (f step).effect (m.running program').profile (m.running program').storage =
      step.effect m.profile m.storage := by
    rw [(h.interchangeable step).effect]
    rfl
  rw [apply, apply, heffect]
  cases step.effect m.profile m.storage with
  | error fault => rfl
  | ok e =>
    have hstorage : (m.running program').storage = m.storage := rfl
    have hprofile : (m.running program').profile = m.profile := rfl
    simp only [hstorage, hprofile, hadvanced]
    rcases e.commit m.profile.architecture m.storage with ⟨s, fault | _⟩
    · rfl
    · rfl

/-- Advancing goes the same way with the other program, but that other steps are recorded. -/
theorem advance_running (hprogram : m.program = program) :
    (m.running program').advance =
      (m.advance.1.running program', m.advance.2.map (StepRecord.rewrite f)) := by
  have hstep : (m.running program').program.steps[(m.running program').cursor]? =
      m.program.steps[m.cursor]?.map f := by
    rw [hprogram, ← List.getElem?_map, ← h.steps]
    rfl
  have hstate : (m.running program').state = m.state := rfl
  rw [advance, advance, hstep, hstate]
  split
  · cases m.program.steps[m.cursor]? with
    | none => rfl
    | some step => exact apply_running h hprogram step
  · rfl

omit h in
theorem abort_running (m : Machine) (program' : Program) :
    (m.running program').abort = (m.abort.1.running program', m.abort.2) := by
  have hstate : (m.running program').state = m.state := rfl
  rw [abort, abort, hstate]
  split
  · rfl
  · rfl

theorem Sound.running (hs : m.Sound p program) : (m.running program').Sound p program' where
  profile_eq := hs.profile_eq
  program_eq := rfl
  fits := hs.fits
  cursor_le := h.length_eq ▸ hs.cursor_le
  live := h.length_eq ▸ hs.live

/-- Resetting leads to the storage that both programs declare. -/
theorem Sound.reset_running (hs : m.Sound p program) (hwf : program.WellFormed p)
    (hp : p.Registered) :
    (m.running program').reset = (m.reset.1.running program', m.reset.2) := by
  rw [hs.reset_eq hwf hp, (Sound.running h hs).reset_eq h.wellFormed hp, running_fresh h]

/-- Of the program, a snapshot shows the name and the number of steps. -/
theorem snapshot_running (hprogram : m.program = program) (showZeros : Bool) :
    (m.running program').snapshot showZeros = m.snapshot showZeros := by
  rw [snapshot, snapshot, total_running h hprogram, hprogram, ← h.name]
  rfl

/-- The program can be exchanged in any machine that is running the other one. -/
theorem replacement_running (hp : p.Registered) :
    Replacement p program f (fun _ ↦ True) (·.running program') where
  state := fun _ ↦ rfl
  cursor := fun _ ↦ rfl
  fault := fun _ ↦ rfl
  total := fun hr ↦ total_running h (hr.sound hp).program_eq
  advance := fun hr _ ↦ advance_running h (hr.sound hp).program_eq
  abort := fun _ ↦ abort_running _ program'
  reset := fun hr ↦ Sound.reset_running h (hr.sound hp) (hr.wellFormed hp) hp
  snapshot := fun hr ↦ snapshot_running h (hr.sound hp).program_eq

end Machine

/-! ## Sessions -/

namespace Session

def running (s : Session) (program : Program) : Session :=
  { s with machine := s.machine.running program }

variable {p : Profile} {f : MicroStep → MicroStep} {program program' : Program} {s : Session}
  (h : program.StandsIn p f program')
include h

theorem statusLine_running (hprogram : s.machine.program = program) :
    (s.running program').statusLine = s.statusLine := by
  have hstate : (s.running program').state = s.state := rfl
  have hcursor : (s.running program').cursor = s.cursor := rfl
  have htotal : (s.running program').total = s.total := Machine.total_running h hprogram
  have hsteps : (s.running program').steps = s.steps.map f :=
    h.steps.trans (congrArg (·.steps.map f) hprogram.symm)
  rw [statusLine, statusLine, hstate, hcursor, htotal, hsteps]
  cases s.state with
  | running =>
    cases s.cursor with
    | zero => rfl
    | succ last =>
      cases hlast : s.steps[last]? with
      | none => simp [hlast]
      | some step => simp [hlast, (h.interchangeable _).label]
  | _ => rfl

/-- Every call leaves the same, and answers the same, with the other program. -/
theorem call_running (hp : p.Registered) (hr : Machine.Reachable p program s.machine) (c : Call) :
    (s.running program').call c =
        ((s.call c).1.running program', (s.call c).2.map (Event.rewrite f)) ∧
      (s.running program').reply c = s.reply c :=
  (Machine.replacement_running h hp).call hr c fun _ _ ↦ trivial

/-- A sequence of calls leads to the session with its program exchanged. -/
theorem after_running (hp : p.Registered) (hr : Machine.Reachable p program s.machine)
    (calls : List Call) :
    (s.running program').after calls = (s.after calls).running program' :=
  (Machine.replacement_running h hp).after hr fun _ _ ↦ trivial

end Session

/-! ## Programs with a common stand-in -/

/-- Sessions that hold the same and answer the same, but that some steps they name in records and
events need rewriting. -/
structure Session.AlikeUpTo (f : MicroStep → MicroStep) (s s' : Session) : Prop where
  storage : s.machine.storage = s'.machine.storage
  control : s.machine.control = s'.machine.control
  cursor : s.cursor = s'.cursor
  state : s.state = s'.state
  fault : s.fault = s'.fault
  statusLine : s.statusLine = s'.statusLine
  record : s.machine.advance.2.map (StepRecord.rewrite f) =
    s'.machine.advance.2.map (StepRecord.rewrite f)
  reply : ∀ c, s.reply c = s'.reply c
  events : ∀ c, (s.call c).2.map (Event.rewrite f) = (s'.call c).2.map (Event.rewrite f)

section

variable {p : Profile} {f : MicroStep → MicroStep} {program program' common : Program}
  (h : program.StandsIn p f common) (h' : program'.StandsIn p f common) (hp : p.Registered)
include h h' hp

/-- Sessions that are the same once they run a common program are alike. -/
theorem Session.alikeUpTo_of_running_eq {s s' : Session}
    (hr : Machine.Reachable p program s.machine) (hr' : Machine.Reachable p program' s'.machine)
    (heq : s.running common = s'.running common) : s.AlikeUpTo f s' where
  storage := congrArg (·.machine.storage) heq
  control := congrArg (·.machine.control) heq
  cursor := congrArg (·.machine.cursor) heq
  state := congrArg (·.machine.state) heq
  fault := congrArg (·.machine.fault) heq
  statusLine := by
    rw [← statusLine_running h (hr.sound hp).program_eq, heq,
      statusLine_running h' (hr'.sound hp).program_eq]
  record := by
    have hadvance := Machine.advance_running h (hr.sound hp).program_eq
    have hadvance' := Machine.advance_running h' (hr'.sound hp).program_eq
    have hmachine : s.machine.running common = s'.machine.running common :=
      congrArg (·.machine) heq
    rw [hmachine, hadvance'] at hadvance
    exact (congrArg Prod.snd hadvance).symm
  reply := by
    intro c
    rw [← (call_running h hp hr c).2, heq, (call_running h' hp hr' c).2]
  events := by
    intro c
    have hcall := (call_running h hp hr c).1
    rw [heq, (call_running h' hp hr' c).1] at hcall
    exact (congrArg Prod.snd hcall).symm

/-- Sessions on programs with a common stand-in are alike, whatever is called on both. -/
theorem Session.alikeUpTo_after (hwf : program.WellFormed p) (hwf' : program'.WellFormed p)
    (config : Config) (hasSink : Bool) (calls : List Call) :
    ((⟨.fresh p program, config, hasSink⟩ : Session).after calls).AlikeUpTo f
      ((⟨.fresh p program', config, hasSink⟩ : Session).after calls) := by
  have hr : Machine.Reachable p program (.fresh p program) :=
    .load ((Machine.load_eq_ok_iff hp).mpr ⟨hwf, rfl⟩)
  have hr' : Machine.Reachable p program' (.fresh p program') :=
    .load ((Machine.load_eq_ok_iff hp).mpr ⟨hwf', rfl⟩)
  have hstart : (⟨.fresh p program, config, hasSink⟩ : Session).running common =
      (⟨.fresh p program', config, hasSink⟩ : Session).running common :=
    congrArg (Session.mk · config hasSink)
      ((Machine.running_fresh h).trans (Machine.running_fresh h').symm)
  refine alikeUpTo_of_running_eq h h' hp (reachable_after hp hr calls)
    (reachable_after hp hr' calls) ?_
  rw [← after_running h hp hr, hstart, after_running h' hp hr']

end

/-! ## Second destinations that no result needs -/

/-- The operation without a second destination, if it is an addition or a subtraction. -/
def MicroOp.withoutSpare : MicroOp → MicroOp
  | .combine .add left right target _ => .combine .add left right target none
  | .combine .sub left right target _ => .combine .sub left right target none
  | op => op

def MicroStep.withoutSpare (step : MicroStep) : MicroStep :=
  { step with op := step.op.withoutSpare }

def Program.withoutSpares (program : Program) : Program :=
  { program with steps := program.steps.map .withoutSpare }

/-- Without the second destination of an addition, a step does the same and is called the same. -/
theorem MicroStep.interchangeable_withoutSpare (step : MicroStep) :
    step.withoutSpare.Interchangeable step := by
  obtain ⟨phase, op⟩ := step
  cases op with
  | combine op left right target second =>
    cases op with
    | add | sub =>
      refine ⟨rfl, rfl, rfl, ?_, rfl⟩
      show _ = MicroOp.writes (.combine _ left right target second)
      rw [MicroOp.writes_combine]
      rfl
    | mul | div => exact .refl _
  | _ => exact .refl _

namespace Program

/-- All labels of a program stay. -/
theorem map_label_withoutSpares (program : Program) :
    program.withoutSpares.steps.map MicroStep.label = program.steps.map MicroStep.label := by
  rw [withoutSpares, List.map_map]
  exact List.map_congr_left fun step _ ↦ step.interchangeable_withoutSpare.label

theorem stepsDefect?_map {f : MicroStep → MicroStep} (hf : ∀ step, (f step).Interchangeable step)
    (p : Profile) (known : List Register) (index : Nat) (steps : List MicroStep) :
    stepsDefect? p known index (steps.map f) = stepsDefect? p known index steps := by
  induction steps generalizing known index with
  | nil => rfl
  | cons step rest ih =>
    rw [List.map_cons, stepsDefect?, stepsDefect?, stepDefect?, stepDefect?, (hf step).reads,
      (hf step).writes, ih]

/-- A program is accepted, or rejected with a fault, as it is without spare destinations. -/
theorem validate_withoutSpares (p : Profile) (program : Program) :
    program.withoutSpares.validate p = program.validate p := by
  rw [validate, defect?, withoutSpares, stepsDefect?_map MicroStep.interchangeable_withoutSpare]
  rfl

/-- An accepted program has a stand-in without spare destinations. -/
theorem standsIn_withoutSpares {p : Profile} {program : Program} (h : program.WellFormed p) :
    program.StandsIn p .withoutSpare program.withoutSpares where
  interchangeable := MicroStep.interchangeable_withoutSpare
  name := rfl
  steps := rfl
  declared := rfl
  wellFormed := validate_eq_ok_iff.mp <|
    (validate_withoutSpares p program).trans (validate_eq_ok_iff.mpr h)

end Program

/-- Programs that differ in the second destinations of additions and subtractions are labelled and
accepted alike.  If they are, sessions on them stay alike under all calls, up to the steps
themselves; if not, they are refused with the same fault. -/
theorem spare_destination_is_inert {program program' : Program}
    (h : program.withoutSpares = program'.withoutSpares) (p : Profile) :
    program.validate p = program'.validate p ∧
    program.steps.map MicroStep.label = program'.steps.map MicroStep.label ∧
    (p.Registered →
      (∃ fault, Machine.load p program = .error fault ∧ Machine.load p program' = .error fault) ∨
      ∃ m m', Machine.load p program = .ok m ∧ Machine.load p program' = .ok m' ∧
        ∀ config hasSink calls,
          ((⟨m, config, hasSink⟩ : Session).after calls).AlikeUpTo .withoutSpare
            ((⟨m', config, hasSink⟩ : Session).after calls)) := by
  have hvalidate : program.validate p = program'.validate p := by
    rw [← Program.validate_withoutSpares, h, Program.validate_withoutSpares]
  have hlabels : program.steps.map MicroStep.label = program'.steps.map MicroStep.label := by
    rw [← Program.map_label_withoutSpares, h, Program.map_label_withoutSpares]
  refine ⟨hvalidate, hlabels, ?_⟩
  intro hp
  cases hv : program.validate p with
  | error fault =>
    refine .inl ⟨fault, ?_, ?_⟩
    · rw [Machine.load, hv]
      rfl
    · rw [Machine.load, ← hvalidate, hv]
      rfl
  | ok _ =>
    have hv' := hvalidate.symm.trans hv
    have hwf := Program.validate_eq_ok_iff.mp hv
    have hwf' := Program.validate_eq_ok_iff.mp hv'
    refine .inr ⟨_, _, Machine.load_of_validate hp hv, Machine.load_of_validate hp hv', ?_⟩
    exact Session.alikeUpTo_after (Program.standsIn_withoutSpares hwf)
      (h ▸ Program.standsIn_withoutSpares hwf') hp hwf hwf'

/-- Adds and subtracts, and names a second destination for both results or none. -/
def Program.sumAndDifference (second : Option Register) : Program where
  name := "Sum and difference"
  words := []
  overrides := [(.ac, 7), (.mbr, 2)]
  steps :=
    [.execute (.combine .add .ac .mbr .ac second), .execute (.combine .sub .ac .mbr .mar second)]

/-- The hypothetical machine has no multiplier quotient, but never looks for it. -/
theorem spare_absent_register_is_inert :
    ∃ m m', Machine.load .hypothetical (.sumAndDifference none) = .ok m ∧
      Machine.load .hypothetical (.sumAndDifference (some .mq)) = .ok m' ∧
      ((⟨m, {}, true⟩ : Session).after [.advance, .run]).AlikeUpTo .withoutSpare
        ((⟨m', {}, true⟩ : Session).after [.advance, .run]) := by
  have hp : Profile.hypothetical.Registered := ⟨.hypothetical, .simplified, rfl⟩
  have h : (Program.sumAndDifference none).withoutSpares =
      (Program.sumAndDifference (some .mq)).withoutSpares := rfl
  obtain ⟨-, -, hload⟩ := spare_destination_is_inert h .hypothetical
  rcases hload hp with ⟨fault, hfails, -⟩ | ⟨m, m', hm, hm', halike⟩
  · exact nomatch (Machine.load_of_validate hp rfl).symm.trans hfails
  · exact ⟨m, m', hm, hm', halike {} true _⟩

end FetchExecute
