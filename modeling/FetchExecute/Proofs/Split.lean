import FetchExecute.Proofs.Lockstep

/-!
# The split policy

A product or quotient may have a second part, and the profile says what becomes of
it.  Two sessions on one program that differ in this policy go in lockstep as long
as they take no step that has a second part to place (`MicroOp.Splits`), for one
policy is a replacement for the other so long (`Machine.replacement_withSplit`):
whatever either of them answers, the other one answers too (`Session.call_withSplit`),
and they stay equal but for the policy (`Session.after_withSplit`).

At the first step that splits, the sessions still fail alike or succeed alike, and
part in the two destinations at most (`Session.parts_withSplit`).  The quotient of the
operands is no part of the difference (`Session.Quotient`).  It is lost, though, if the
second part goes to the same register, since that is written last
(`quotient_is_overwritten`).
-/

namespace FetchExecute

/-! ## Steps that split -/

/-- The operation multiplies or divides, with a register for the second part of the result. -/
inductive MicroOp.Splits : MicroOp → Prop
  | mul {left right target low : Register} : Splits (.combine .mul left right target (some low))
  | div {left right target low : Register} : Splits (.combine .div left right target (some low))

instance : DecidablePred MicroOp.Splits
  | .combine .mul _ _ _ (some _) => .isTrue .mul
  | .combine .div _ _ _ (some _) => .isTrue .div
  | .combine .add .. | .combine .sub .. | .combine .mul _ _ _ none | .combine .div _ _ _ none
  | .observe _ | .copy .. | .readMemory .. | .writeMemory .. | .increment _ | .loadHalf ..
  | .decode _ | .extractAddress .. | .signal _ => .isFalse nofun

theorem MicroOp.secondTarget_of_not_splits {op : AluOp} {left right target : Register}
    {second : Option Register} (h : ¬ (combine op left right target second).Splits) :
    op.secondTarget second = none := by
  cases second with
  | none => cases op <;> rfl
  | some low =>
    cases op with
    | add => rfl
    | sub => rfl
    | mul => exact absurd .mul h
    | div => exact absurd .div h

/-- Without a second result the policy has nothing to decide. -/
theorem Alu.outcome_of_single {t : Task} (h : t.secondaryWidth = none) (policy : SplitPolicy) :
    outcome { t with policy := policy } = outcome t := by
  cases hop : t.op <;> simp [outcome, product, quotient, Result.single, hop, h]

theorem Alu.combine_of_single {t : Task} (h : t.secondaryWidth = none) (policy : SplitPolicy) :
    combine { t with policy := policy } = combine t := by
  cases hop : t.op <;> simp [combine, product, quotient, Result.single, hop, h]

section

variable {p : Profile} {s : Storage} {op : MicroOp} (policy : SplitPolicy)

theorem Storage.secondaryWidth_task {op : AluOp} {left right target : Register}
    {second : Option Register} (h : ¬ (MicroOp.combine op left right target second).Splits) :
    (s.task policy op left right target second).secondaryWidth = none := by
  rw [task, MicroOp.secondTarget_of_not_splits h]
  rfl

/-- The policy is the only thing that the task of an operation takes from it. -/
theorem Storage.task_withSplit (policy' : SplitPolicy) (op : AluOp)
    (left right target : Register) (second : Option Register) :
    s.task policy op left right target second =
      { s.task policy' op left right target second with policy := policy } := rfl

/-- What is transferred does not depend on the policy, unless the operation splits. -/
theorem MicroOp.transfers_withSplit (h : ¬ op.Splits) :
    op.transfers (p.withSplit policy) s = op.transfers p s := by
  cases op with
  | combine op left right target second =>
    simp only [transfers]
    rw [Storage.task_withSplit (p.withSplit policy).splitPolicy p.splitPolicy,
      Alu.outcome_of_single (Storage.secondaryWidth_task _ h)]
  | _ => rfl

theorem MicroOp.perform_withSplit (h : ¬ op.Splits) :
    op.perform (p.withSplit policy) s = op.perform p s := by
  rw [perform, perform, transfers_withSplit policy h]

/-- What does not split has the same effect under any policy, its description included. -/
theorem MicroOp.effect_withSplit (h : ¬ op.Splits) (hpresent : op.Present s) (phase : Phase) :
    op.effect ⟨p.withSplit policy, phase, s⟩ = op.effect ⟨p, phase, s⟩ := by
  cases op with
  | combine op left right target second =>
    rw [effect, effect, combineEffect_eq hpresent, combineEffect_eq hpresent]
    show _ <$> Alu.combine (s.task policy op left right target second) = _
    rw [Storage.task_withSplit policy p.splitPolicy,
      Alu.combine_of_single (Storage.secondaryWidth_task _ h)]
  | _ => rfl

theorem MicroStep.effect_withSplit {step : MicroStep} (h : ¬ step.op.Splits)
    (hpresent : step.op.Present s) : step.effect (p.withSplit policy) s = step.effect p s := by
  rw [MicroStep.effect, MicroStep.effect, MicroOp.effect_withSplit policy h hpresent]

end

/-! ## Machines under another policy -/

/-- A profile stays one of the two machines under another policy. -/
theorem Profile.Registered.withSplit {p : Profile} (hp : p.Registered) (policy : SplitPolicy) :
    (p.withSplit policy).Registered := by
  obtain ⟨a, old, rfl⟩ := hp
  exact ⟨a, policy, rfl⟩

theorem Storage.Fits.withSplit {p : Profile} {s : Storage} (h : s.Fits p) (policy : SplitPolicy) :
    s.Fits (p.withSplit policy) :=
  ⟨h.layout, h.nodup, h.value_lt, h.wordBits, h.size, h.word_lt⟩

/-- A program that is accepted under one policy is accepted under any. -/
theorem Program.WellFormed.withSplit {p : Profile} {program : Program} (h : program.WellFormed p)
    (policy : SplitPolicy) : program.WellFormed (p.withSplit policy) :=
  ⟨h.words, h.overrides, h.reads, h.writes⟩

namespace Machine

/-- The machine under another policy. -/
def withSplit (m : Machine) (policy : SplitPolicy) : Machine :=
  { m with profile := m.profile.withSplit policy }

variable {p : Profile} {program : Program} {m : Machine}

theorem Sound.withSplit (h : m.Sound p program) (policy : SplitPolicy) :
    (m.withSplit policy).Sound (p.withSplit policy) program where
  profile_eq := congrArg (·.withSplit policy) h.profile_eq
  program_eq := h.program_eq
  fits := h.fits.withSplit policy
  cursor_le := h.cursor_le
  live := h.live

/-- An advance does the same under any policy, unless it takes a step that splits. -/
theorem Sound.advance_withSplit (h : m.Sound p program) (hwf : program.WellFormed p)
    (policy : SplitPolicy)
    (hsplits : ∀ step, m.program.steps[m.cursor]? = some step → m.cursor < m.advance.1.cursor →
      ¬ step.op.Splits) :
    (m.withSplit policy).advance = (m.advance.1.withSplit policy, m.advance.2) := by
  have h' := h.withSplit policy
  have hwf' := hwf.withSplit policy
  cases hlive : m.state.isLive with
  | false =>
    have hstopped : (m.withSplit policy).state.isLive = false := hlive
    rw [advance_of_stopped hlive, advance_of_stopped hstopped]
    rfl
  | true =>
    obtain ⟨step, hstep⟩ := h.exists_step hlive
    cases hhazard : step.op.hazard? m.storage with
    | some fault =>
      rw [h.advance_of_hazard hwf hlive hstep hhazard,
        h'.advance_of_hazard hwf' hlive hstep hhazard]
      rfl
    | none =>
      obtain ⟨e, he, -, hadvance⟩ := h.advance_of_safe hwf hlive hstep hhazard
      have hnot : ¬ step.op.Splits := by
        refine hsplits step (h.program_eq ▸ hstep) ?_
        rw [hadvance]
        exact Nat.lt_succ_self _
      obtain ⟨e', he', -, hadvance'⟩ := h'.advance_of_safe hwf' hlive hstep hhazard
      obtain rfl : e = e' := by
        have hsame := MicroStep.effect_withSplit (p := p) policy hnot (hwf.present h.fits hstep)
        exact Except.ok.inj (he.symm.trans (hsame.symm.trans he'))
      rw [hadvance, hadvance']
      show (Machine.advanced _ _ (step.op.perform (p.withSplit policy) m.storage), _) = _
      rw [MicroOp.perform_withSplit policy hnot]
      rfl

theorem abort_withSplit (m : Machine) (policy : SplitPolicy) :
    (m.withSplit policy).abort = (m.abort.1.withSplit policy, m.abort.2) := by
  cases hlive : m.state.isLive with
  | true =>
    have hlive' : (m.withSplit policy).state.isLive = true := hlive
    rw [abort_of_live hlive, abort_of_live hlive']
    rfl
  | false =>
    have hstopped : (m.withSplit policy).state.isLive = false := hlive
    rw [abort_of_stopped hlive, abort_of_stopped hstopped]
    rfl

/-- Resetting takes no notice of the policy, since the program declares the same storage. -/
theorem Sound.reset_withSplit (h : m.Sound p program) (hwf : program.WellFormed p)
    (hp : p.Registered) (policy : SplitPolicy) :
    (m.withSplit policy).reset = (m.reset.1.withSplit policy, m.reset.2) := by
  rw [h.reset_eq hwf hp,
    (h.withSplit policy).reset_eq (hwf.withSplit policy) (hp.withSplit policy)]
  rfl

/-- The policy can be exchanged in any machine that is about to take steps that do not split. -/
theorem replacement_withSplit (hp : p.Registered) (policy : SplitPolicy) :
    Replacement p program id (fun step ↦ ¬ step.op.Splits) (·.withSplit policy) where
  state := fun _ ↦ rfl
  cursor := fun _ ↦ rfl
  fault := fun _ ↦ rfl
  total := fun _ ↦ rfl
  advance := by
    intro m hr hsteps
    rw [StepRecord.rewrite_id, Except.map_id]
    exact (hr.sound hp).advance_withSplit (hr.wellFormed hp) policy hsteps
  abort := fun _ ↦ abort_withSplit _ policy
  reset := fun hr ↦ (hr.sound hp).reset_withSplit (hr.wellFormed hp) hp policy
  snapshot := fun _ _ ↦ rfl

end Machine

/-! ## Sessions under another policy -/

namespace Session

def withSplit (s : Session) (policy : SplitPolicy) : Session :=
  { s with machine := s.machine.withSplit policy }

variable {p : Profile} {program : Program} {s : Session}

/-- A call that takes no step that splits does and answers the same under any policy. -/
theorem call_withSplit (h : Machine.Reachable p program s.machine) (hp : p.Registered)
    (policy : SplitPolicy) (c : Call) (hsteps : ∀ step ∈ s.stepsOf c, ¬ step.op.Splits) :
    (s.withSplit policy).call c = ((s.call c).1.withSplit policy, (s.call c).2) ∧
      (s.withSplit policy).reply c = s.reply c := by
  obtain ⟨hcall, hreply⟩ := (Machine.replacement_withSplit hp policy).call h c hsteps
  rw [Event.rewrite_id, List.map_id] at hcall
  exact ⟨hcall, hreply⟩

/-- A sequence of calls in which no step splits takes no notice of the policy. -/
theorem after_withSplit (h : Machine.Reachable p program s.machine) (hp : p.Registered)
    (policy : SplitPolicy) {calls : List Call}
    (hsteps : ∀ step ∈ s.stepsTaken calls, ¬ step.op.Splits) :
    (s.withSplit policy).after calls = (s.after calls).withSplit policy :=
  (Machine.replacement_withSplit hp policy).after h hsteps

end Session

/-! ## Where the sessions part -/

namespace MicroOp

variable {p : Profile} {s : Storage} {op : MicroOp} {left right target low : Register}

/-- An operation leaves the registers alone that it does not write. -/
theorem value_perform {register : Register} (h : register ∉ op.writes) :
    (op.perform p s).value register = s.value register := by
  have hkeys : ∀ entry ∈ op.transfers p s, entry.1 ≠ register := by
    rintro entry hentry rfl
    apply h
    rw [← map_fst_transfers op p s]
    exact List.mem_map_of_mem hentry
  rw [perform]
  cases op.memoryWrite? s with
  | none => exact Storage.value_putAll_of_forall_ne hkeys s
  | some entry => exact Storage.value_putAll_of_forall_ne hkeys (s.putWord entry.1 entry.2)

/-- Operations that split write registers only. -/
theorem Splits.memory_perform (h : op.Splits) : (op.perform p s).memory = s.memory := by
  cases h with
  | mul => exact Storage.memory_putAll _ _
  | div => exact Storage.memory_putAll _ _

/-- Under the simplified policy the remainder is given up, and zero is written in its place. -/
theorem transfers_div_simplified :
    (MicroOp.combine .div left right target (some low)).transfers (p.withSplit .simplified) s =
      [(target, Word.truncate (s.width target) (s.value left / s.value right)), (low, 0)] := rfl

/-- Under the faithful policy both are written, each cut to its register. -/
theorem transfers_div_faithful :
    (MicroOp.combine .div left right target (some low)).transfers (p.withSplit .faithful) s =
      [(target, Word.truncate (s.width target) (s.value left / s.value right)),
        (low, Word.truncate (s.width low) (s.value left % s.value right))] := rfl

theorem perform_div :
    (MicroOp.combine .div left right target (some low)).perform p s =
      s.putAll ((MicroOp.combine .div left right target (some low)).transfers p s) := rfl

end MicroOp

namespace Storage

variable {s : Storage} {target low : Register} (v w : Nat)

theorem value_putAll_first (h : low ≠ target) :
    (s.putAll [(target, Word.truncate (s.width target) v), (low, w)]).value target =
      Word.truncate (s.width target) v := by
  have hafter : ∀ entry ∈ [(low, w)], entry.1 ≠ target := by
    rintro entry hentry rfl
    obtain rfl := List.mem_singleton.mp hentry
    exact h rfl
  exact (s.value_putAll_append [] _ hafter).trans (Word.truncate_truncate _ v)

theorem value_putAll_second :
    (s.putAll [(target, v), (target, w)]).value target = Word.truncate (s.width target) w := by
  have hafter : ∀ entry ∈ ([] : List (Register × Nat)), entry.1 ≠ target := nofun
  exact s.value_putAll_append [(target, v)] w hafter

end Storage

namespace Session

/-- What becomes of a quotient: under either policy it is written first, and under either policy it
is overwritten if the second destination is the same as the first. -/
structure Quotient (target low : Register) (s t : Session) (r r' : StepRecord)
    (quotient remainder : Nat) : Prop where
  simplified : r.effect.registerWrites = [(target, quotient), (low, 0)]
  faithful : r'.effect.registerWrites = [(target, quotient), (low, remainder)]
  kept : low ≠ target →
    s.machine.storage.value target = quotient ∧ t.machine.storage.value target = quotient
  overwritten : low = target →
    s.machine.storage.value target = 0 ∧ t.machine.storage.value target = remainder

/-- What sessions that have been alike leave and record, when they have taken a step that splits
from the same storage. -/
structure Parted (before : Storage) (step : MicroStep) (s t : Session) (r r' : StepRecord) :
    Prop where
  memory : s.machine.storage.memory = t.machine.storage.memory
  value : ∀ register ∉ step.writes,
    s.machine.storage.value register = t.machine.storage.value register
  control : s.machine.control = t.machine.control
  cursor : s.cursor = t.cursor
  state : s.state = t.state
  fault : s.fault = t.fault
  quotient : ∀ {left right target low : Register},
    step.op = .combine .div left right target (some low) →
    Quotient target low s t r r'
      (Word.truncate (before.width target) (before.value left / before.value right))
      (Word.truncate (before.width low) (before.value left % before.value right))

/-- What comes of a step on two sessions: the same fault on both, or a record on both. -/
inductive Parts (step : MicroStep) (s t : Session) : Prop
  | failed {fault : Fault} : s.machine.advance.2 = .error fault →
      t.machine.advance.2 = .error fault → Parts step s t
  | taken {r r' : StepRecord} : s.machine.advance.2 = .ok r → t.machine.advance.2 = .ok r' →
      Parted s.machine.storage step s.advance.session t.advance.session r r' → Parts step s t

variable {p : Profile} {program : Program} {s : Session}

/-- The quotient and the remainder are those of the values before the step, whether or not they are
kept. -/
theorem quotient_of_perform {s t : Session} {r r' : StepRecord} {before : Storage}
    {left right target low : Register} {op : MicroOp}
    (hop : op = .combine .div left right target (some low))
    (hs : s.machine.storage = op.perform (p.withSplit .simplified) before)
    (ht : t.machine.storage = op.perform (p.withSplit .faithful) before)
    (hr : r.effect.registerWrites = op.transfers (p.withSplit .simplified) before)
    (hr' : r'.effect.registerWrites = op.transfers (p.withSplit .faithful) before) :
    Quotient target low s t r r'
      (Word.truncate (before.width target) (before.value left / before.value right))
      (Word.truncate (before.width low) (before.value left % before.value right)) := by
  subst hop
  rw [MicroOp.perform_div, MicroOp.transfers_div_simplified] at hs
  rw [MicroOp.perform_div, MicroOp.transfers_div_faithful] at ht
  refine ⟨hr, hr', ?_, ?_⟩
  · intro hne
    rw [hs, ht]
    exact ⟨Storage.value_putAll_first _ _ hne, Storage.value_putAll_first _ _ hne⟩
  · rintro rfl
    rw [hs, ht, Storage.value_putAll_second, Storage.value_putAll_second]
    exact ⟨Word.truncate_zero _, Word.truncate_truncate _ _⟩

/-- A step that splits fails under both policies with the same fault, or is taken under both. Then
all is alike but for the registers that it writes. -/
theorem parts_withSplit (h : Machine.Reachable (p.withSplit .simplified) program s.machine)
    (hp : p.Registered) {step : MicroStep} (hstep : s.steps[s.cursor]? = some step)
    (hsplits : step.op.Splits) : Parts step s (s.withSplit .faithful) := by
  have hs := h.sound (hp.withSplit _)
  have hwf := h.wellFormed (hp.withSplit _)
  have hs' : (s.withSplit .faithful).machine.Sound (p.withSplit .faithful) program :=
    hs.withSplit .faithful
  have hwf' : program.WellFormed (p.withSplit .faithful) := hwf.withSplit .faithful
  rw [steps, hs.program_eq] at hstep
  cases hlive : s.machine.state.isLive with
  | false =>
    have hstopped : (s.withSplit .faithful).machine.state.isLive = false := hlive
    exact .failed (congrArg Prod.snd (Machine.advance_of_stopped hlive))
      (congrArg Prod.snd (Machine.advance_of_stopped hstopped))
  | true =>
    cases hhazard : step.op.hazard? s.machine.storage with
    | some fault =>
      exact .failed (congrArg Prod.snd (hs.advance_of_hazard hwf hlive hstep hhazard))
        (congrArg Prod.snd (hs'.advance_of_hazard hwf' hlive hstep hhazard))
    | none =>
      obtain ⟨e, -, hwrites, hadvance⟩ := hs.advance_of_safe hwf hlive hstep hhazard
      obtain ⟨e', -, hwrites', hadvance'⟩ := hs'.advance_of_safe hwf' hlive hstep hhazard
      refine .taken (congrArg Prod.snd hadvance) (congrArg Prod.snd hadvance') ?_
      rw [session_advance, session_advance, hadvance, hadvance']
      exact {
        memory := hsplits.memory_perform.trans hsplits.memory_perform.symm
        value := fun register hnot ↦
          (MicroOp.value_perform hnot).trans (MicroOp.value_perform hnot).symm
        control := rfl
        cursor := rfl
        state := rfl
        fault := rfl
        quotient := fun hop ↦ quotient_of_perform hop rfl rfl hwrites hwrites' }

/-- Two sessions that nothing has told apart: what they hold, what they answer as long as no step
splits, and what comes of the first step that does. -/
structure Alike (s t : Session) : Prop where
  registers : s.machine.storage.registers = t.machine.storage.registers
  memory : s.machine.storage.memory = t.machine.storage.memory
  control : s.machine.control = t.machine.control
  cursor : s.cursor = t.cursor
  state : s.state = t.state
  fault : s.fault = t.fault
  call : ∀ c, (∀ step ∈ s.stepsOf c, ¬ step.op.Splits) →
    s.reply c = t.reply c ∧ (s.call c).2 = (t.call c).2
  /-- The effect of a step is the same as well. -/
  advance : (∀ step ∈ s.stepsOf .advance, ¬ step.op.Splits) →
    s.machine.advance.2 = t.machine.advance.2
  parts : ∀ {step : MicroStep}, s.steps[s.cursor]? = some step → step.op.Splits → Parts step s t

/-- A reachable session is alike to the same one under the other policy. -/
theorem alike_withSplit (h : Machine.Reachable (p.withSplit .simplified) program s.machine)
    (hp : p.Registered) : Alike s (s.withSplit .faithful) where
  registers := rfl
  memory := rfl
  control := rfl
  cursor := rfl
  state := rfl
  fault := rfl
  call := by
    intro c hsteps
    obtain ⟨hcall, hreply⟩ := call_withSplit h (hp.withSplit _) .faithful c hsteps
    rw [hcall, hreply]
    exact ⟨rfl, rfl⟩
  advance := by
    intro hsteps
    have hmachine := (Machine.replacement_withSplit (hp.withSplit _) .faithful).machine_advance h
      hsteps
    rw [StepRecord.rewrite_id, Except.map_id] at hmachine
    exact (congrArg Prod.snd hmachine).symm
  parts := parts_withSplit h hp

end Session

/-- A program that suits a machine can be loaded under either policy, and the same calls keep the two
sessions on it alike until the first step is taken that splits. -/
theorem split_policy_matters_where_named {p : Profile} {program : Program} (hp : p.Registered)
    (hv : program.validate p = .ok ()) :
    ∃ m m', Machine.load (p.withSplit .simplified) program = .ok m ∧
      Machine.load (p.withSplit .faithful) program = .ok m' ∧
      ∀ (config : Config) (hasSink : Bool) (calls : List Session.Call),
        (∀ step ∈ Session.stepsTaken ⟨m, config, hasSink⟩ calls, ¬ step.op.Splits) →
        Session.Alike (Session.after ⟨m, config, hasSink⟩ calls)
          (Session.after ⟨m', config, hasSink⟩ calls) := by
  have hwf : program.WellFormed p := Program.validate_eq_ok_iff.mp hv
  have hl : ∀ policy, Machine.load (p.withSplit policy) program =
      .ok (.fresh (p.withSplit policy) program) := fun policy ↦
    (Machine.load_eq_ok_iff (hp.withSplit policy)).mpr ⟨hwf.withSplit policy, rfl⟩
  refine ⟨_, _, hl .simplified, hl .faithful, ?_⟩
  intro config hasSink calls hsteps
  generalize hs : Session.mk (.fresh (p.withSplit .simplified) program) config hasSink = s
    at hsteps ⊢
  have h : Machine.Reachable (p.withSplit .simplified) program s.machine := by
    rw [← hs]
    exact .load (hl .simplified)
  have hfaithful : Session.mk (.fresh (p.withSplit .faithful) program) config hasSink =
      s.withSplit .faithful := by
    rw [← hs]
    rfl
  rw [hfaithful, Session.after_withSplit h (hp.withSplit _) .faithful hsteps]
  exact Session.alike_withSplit (Session.reachable_after (hp.withSplit _) h calls) hp

/-- Adds, with a register to spare, and then divides into a single register. -/
def Program.divideInPlace : Program where
  name := "Divide in place"
  overrides := [(.ac, 5), (.mq, 2)]
  words := []
  steps := [
    .execute (.combine .add .ac .mq .ac (some .mbr)),
    .execute (.combine .div .ac .mq .mbr (some .mbr))]

theorem split_policy_divideInPlace :
    ∃ s t, Session.ofProgram (Profile.ias.withSplit .simplified) .divideInPlace {} = .ok s ∧
      Session.ofProgram (Profile.ias.withSplit .faithful) .divideInPlace {} = .ok t ∧
      Session.Alike (s.after [.advance]) (t.after [.advance]) ∧
      (s.after [.advance]).stepsOf .advance =
        [.execute (.combine .div .ac .mq .mbr (some .mbr))] := by
  have hp : Profile.ias.Registered := ⟨.ias, .simplified, rfl⟩
  have hv : Program.divideInPlace.validate .ias = .ok () := rfl
  obtain ⟨m, m', hm, hm', halike⟩ := split_policy_matters_where_named hp hv
  obtain ⟨-, rfl⟩ := (Machine.load_eq_ok_iff (hp.withSplit _)).mp hm
  obtain ⟨-, rfl⟩ := (Machine.load_eq_ok_iff (hp.withSplit _)).mp hm'
  exact ⟨_, _, Session.ofProgram_of_validate (hp.withSplit _) rfl {},
    Session.ofProgram_of_validate (hp.withSplit _) rfl {},
    halike {} false [.advance] (by decide +kernel), by decide +kernel⟩

/-- The register that is given the quotient does not hold it in the end, if it is also given the
second part: zero under the one policy, and the remainder under the other. -/
theorem quotient_is_overwritten :
    ¬ ∀ {p : Profile} {program : Program} {m m' : Machine} {n : Nat} {phase : Phase}
        {left right target low : Register}, p.Registered →
        Machine.load (p.withSplit .simplified) program = .ok m →
        Machine.load (p.withSplit .faithful) program = .ok m' →
        (∀ step ∈ program.steps.take n, ¬ step.op.Splits) →
        program.steps[n]? = some ⟨phase, .combine .div left right target (some low)⟩ →
        (m.advances (n + 1)).cursor = n + 1 → (m'.advances (n + 1)).cursor = n + 1 →
        (m.advances (n + 1)).storage.value target = (m'.advances (n + 1)).storage.value target := by
  intro h
  have hp : Profile.ias.Registered := ⟨.ias, .simplified, rfl⟩
  have hl : ∀ policy, Machine.load (Profile.ias.withSplit policy) .divideInPlace =
      .ok (.fresh (Profile.ias.withSplit policy) .divideInPlace) := fun policy ↦
    Machine.load_of_validate (hp.withSplit policy) rfl
  have heq := h (n := 1) hp (hl .simplified) (hl .faithful) (by decide) rfl (by decide +kernel)
    (by decide +kernel)
  exact absurd heq (by decide +kernel)

end FetchExecute
