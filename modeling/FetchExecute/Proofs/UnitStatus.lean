import FetchExecute.Proofs.History
import Mathlib.Data.List.DropRight

/-!
# What the units show

The status of the units is kept from step to step: a step changes one of the two, or sets
both idle.  Here it is told in two other ways, neither of which keeps anything.

* In closed form (`ControlState.foldl_track`): only the kinds after the last transfer
  count, and of these the last arithmetic operation, and whether there was any decoding.
* By looking ahead (`ControlState.lookAhead`): each step sets its own status and leaves it to
  the next one, unless that is a transfer.  The two agree (`ControlState.getElem?_lookAhead`),
  so no step needs to know the next one.

A machine shows the status that belongs to the steps its cursor has passed, whatever has
been called on it (`Machine.Reachable.control_eq`).
-/

namespace FetchExecute

/-- The arithmetic operation that a step of this kind is about. -/
def StepKind.operation? : StepKind → Option AluOp
  | .alu op => some op
  | .transfer | .decode => none

theorem StepKind.operation?_eq_some_iff {kind : StepKind} {op : AluOp} :
    kind.operation? = some op ↔ kind = .alu op := by
  cases kind <;> simp [operation?]

theorem StepKind.operation?_eq_none_iff {kind : StepKind} :
    kind.operation? = none ↔ kind = .transfer ∨ kind = .decode := by
  cases kind <;> simp [operation?]

theorem UnitStatus.ofAluOp_ne_idle (op : AluOp) : ofAluOp op ≠ idle := by
  cases op <;> nofun

/-- A unit tells operations apart. -/
theorem UnitStatus.ofAluOp_inj {op op' : AluOp} : ofAluOp op = ofAluOp op' ↔ op = op' := by
  cases op <;> cases op' <;> decide

namespace ControlState

/-! ## The closed form -/

/-- What comes after the last transfer: all kinds, if there is no transfer. -/
def sinceTransfer (kinds : List StepKind) : List StepKind := kinds.rtakeWhile (· ≠ .transfer)

/-- The operation of the last arithmetic step. -/
def lastOperation? (kinds : List StepKind) : Option AluOp :=
  kinds.reverse.findSome? StepKind.operation?

/-- The status after steps of these kinds.  A unit that had nothing to do since the last transfer
is idle, or shows what it did at the start if there has been no transfer. -/
def shownAfter (s : ControlState) (kinds : List StepKind) : ControlState where
  alu := match lastOperation? (sinceTransfer kinds) with
    | some op => .ofAluOp op
    | none => if sinceTransfer kinds = kinds then s.alu else .idle
  control :=
    if .decode ∈ sinceTransfer kinds then .decoding
    else if sinceTransfer kinds = kinds then s.control
    else .idle

/-- The longest end of a list of kinds that is free of transfers. -/
structure IsLongestEnd (kinds tail : List StepKind) : Prop where
  suffix : tail <:+ kinds
  free : .transfer ∉ tail
  longest : ∀ other, other <:+ kinds → .transfer ∉ other → other <:+ tail

variable {kinds : List StepKind}

/-- What is added without a transfer is added to what comes after the last one. -/
theorem sinceTransfer_append {before tail : List StepKind} (h : .transfer ∉ tail) :
    sinceTransfer (before ++ tail) = sinceTransfer before ++ tail := by
  have hfree : ∀ kind ∈ tail.reverse, decide (kind ≠ .transfer) = true := by
    intro kind hkind
    refine decide_eq_true ?_
    rintro rfl
    exact h (List.mem_reverse.mp hkind)
  rw [sinceTransfer, List.rtakeWhile, List.reverse_append, List.takeWhile_append_of_pos hfree,
    List.reverse_append, List.reverse_reverse]
  rfl

theorem sinceTransfer_concat {kind : StepKind} (h : kind ≠ .transfer) :
    sinceTransfer (kinds ++ [kind]) = sinceTransfer kinds ++ [kind] := by
  refine sinceTransfer_append fun hmem ↦ h ?_
  exact (List.mem_singleton.mp hmem).symm

/-- What comes after the last transfer is the longest end without one. -/
theorem isLongestEnd_sinceTransfer (kinds : List StepKind) :
    IsLongestEnd kinds (sinceTransfer kinds) where
  suffix := List.rtakeWhile_suffix _ _
  free := by
    intro h
    simpa using List.mem_rtakeWhile_imp h
  longest := by
    rintro other ⟨before, rfl⟩ hfree
    rw [sinceTransfer_append hfree]
    exact List.suffix_append _ _

theorem lastOperation?_concat (kinds : List StepKind) (kind : StepKind) :
    lastOperation? (kinds ++ [kind]) = kind.operation?.or (lastOperation? kinds) := by
  rw [lastOperation?, List.reverse_concat, List.findSome?_cons]
  cases kind.operation? <;> rfl

/-- The operation of the last arithmetic step is one behind which there is no other. -/
theorem lastOperation?_eq_some_iff {op : AluOp} :
    lastOperation? kinds = some op ↔
      ∃ before after, kinds = before ++ .alu op :: after ∧
        ∀ kind ∈ after, kind = .transfer ∨ kind = .decode := by
  simp only [lastOperation?, List.findSome?_eq_some_iff, StepKind.operation?_eq_some_iff,
    StepKind.operation?_eq_none_iff]
  constructor
  · rintro ⟨after, _, before, hkinds, rfl, hafter⟩
    refine ⟨before.reverse, after.reverse, ?_, by simpa using hafter⟩
    rw [← List.reverse_reverse kinds, hkinds]
    simp
  · rintro ⟨before, after, rfl, hafter⟩
    exact ⟨after.reverse, _, before.reverse, by simp, rfl, by simpa using hafter⟩

/-- Keeping the status from step to step comes to the closed form. -/
theorem foldl_track (s : ControlState) (kinds : List StepKind) :
    kinds.foldl track s = s.shownAfter kinds := by
  induction kinds using List.reverseRecOn with
  | nil => rfl
  | append_singleton kinds kind ih =>
    rw [List.foldl_concat, ih]
    cases kind with
    | transfer =>
      have htail : sinceTransfer (kinds ++ [.transfer]) = [] :=
        List.rtakeWhile_concat_neg _ _ _ (by simp)
      simp [shownAfter, htail, idle, lastOperation?]
    | decode =>
      have htail : sinceTransfer (kinds ++ [.decode]) = sinceTransfer kinds ++ [.decode] :=
        sinceTransfer_concat nofun
      simp [shownAfter, htail, lastOperation?_concat, StepKind.operation?]
    | alu op =>
      have htail : sinceTransfer (kinds ++ [.alu op]) = sinceTransfer kinds ++ [.alu op] :=
        sinceTransfer_concat nofun
      simp [shownAfter, htail, lastOperation?_concat, StepKind.operation?]

/-- From idle units on, the arithmetic unit shows an operation exactly from a step with that
operation up to the next transfer or the next arithmetic step. -/
theorem alu_foldl_track_idle_eq_iff {op : AluOp} :
    (kinds.foldl track idle).alu = .ofAluOp op ↔
      ∃ before after, kinds = before ++ .alu op :: after ∧ ∀ kind ∈ after, kind = .decode := by
  have hlast : (kinds.foldl track idle).alu = .ofAluOp op ↔
      lastOperation? (sinceTransfer kinds) = some op := by
    rw [foldl_track, shownAfter]
    cases lastOperation? (sinceTransfer kinds) with
    | none => simp [idle, (UnitStatus.ofAluOp_ne_idle op).symm]
    | some other => simp [UnitStatus.ofAluOp_inj]
  rw [hlast, lastOperation?_eq_some_iff]
  constructor
  · rintro ⟨before, after, htail, hafter⟩
    have hend := isLongestEnd_sinceTransfer kinds
    rw [htail] at hend
    obtain ⟨⟨start, hkinds⟩, hfree, -⟩ := hend
    refine ⟨start ++ before, after, by rw [← hkinds, List.append_assoc], ?_⟩
    intro kind hkind
    refine (hafter kind hkind).resolve_left ?_
    rintro rfl
    exact hfree (by simp [hkind])
  · rintro ⟨before, after, rfl, hafter⟩
    have hfree : .transfer ∉ StepKind.alu op :: after := by
      intro h
      rcases List.mem_cons.mp h with h | h
      · cases h
      · cases hafter _ h
    exact ⟨sinceTransfer before, after, sinceTransfer_append hfree,
      fun kind hkind ↦ .inr (hafter kind hkind)⟩

/-! ## Looking ahead -/

/-- The status with what a step of this kind sets by itself. -/
def setBy (s : ControlState) : StepKind → ControlState
  | .alu op => { s with alu := .ofAluOp op }
  | .decode => { s with control := .decoding }
  | .transfer => s

/-- What of a status lasts into a following step of this kind: all of it if that step keeps a unit
busy, and nothing otherwise. -/
def lasting (s : ControlState) (next : StepKind) : ControlState :=
  if next.isActive then s else idle

/-- The statuses during steps of these kinds, where each step decides by the kind of the next one
what to leave to it. -/
def lookAhead (s : ControlState) : List StepKind → List ControlState
  | [] => []
  | [kind] => [s.setBy kind]
  | kind :: next :: rest => s.setBy kind :: lookAhead ((s.setBy kind).lasting next) (next :: rest)

/-- The status kept through a step and then set by it is what tracking comes to. -/
theorem setBy_lasting (s : ControlState) (kind : StepKind) :
    (s.lasting kind).setBy kind = s.track kind := by
  cases kind <;> rfl

@[simp] theorem idle_lasting (next : StepKind) : idle.lasting next = idle := ite_self _

/-- Looking ahead gives the status after each step, as tracking does. -/
theorem getElem?_lookAhead_lasting (s : ControlState) (kind : StepKind) (rest : List StepKind)
    {i : Nat} (hi : i < (kind :: rest).length) :
    ((s.lasting kind).lookAhead (kind :: rest))[i]? =
      some (((kind :: rest).take (i + 1)).foldl track s) := by
  induction rest generalizing s kind i with
  | nil =>
    obtain rfl : i = 0 := Nat.lt_one_iff.mp hi
    exact congrArg some (setBy_lasting s kind)
  | cons next rest ih =>
    rw [lookAhead, setBy_lasting]
    cases i with
    | zero => rfl
    | succ i =>
      rw [List.getElem?_cons_succ, ih (s.track kind) next (Nat.lt_of_succ_lt_succ hi)]
      rfl

/-- Looking ahead and keeping the status from step to step show the same. -/
theorem getElem?_lookAhead {i : Nat} (hi : i < kinds.length) :
    (idle.lookAhead kinds)[i]? = some ((kinds.take (i + 1)).foldl track idle) := by
  cases kinds with
  | nil => exact absurd hi (Nat.not_lt_zero i)
  | cons kind rest => simpa using getElem?_lookAhead_lasting idle kind rest hi

end ControlState

/-! ## Machines -/

namespace Machine

/-- The units show what the steps that the cursor has passed have made of idle units. -/
def StatusKept (m : Machine) : Prop :=
  m.control =
    ((m.program.steps.take m.cursor).map MicroStep.kind).foldl ControlState.track .idle

variable {p : Profile} {program : Program} {m : Machine}

/-- The invariant is preserved by every step. -/
theorem StatusKept.advance (h : m.StatusKept) (hs : m.Sound p program)
    (hwf : program.WellFormed p) : m.advance.1.StatusKept := by
  have hspec := hs.advance_spec hwf
  cases hadvance : m.advance with | mk m' result
  rw [hadvance] at hspec
  cases hspec with
  | refused => exact h
  | faulted => exact h
  | @applied step e hlive hstep =>
    show m.control.track step.kind = ((m.program.steps.take (m.cursor + 1)).map _).foldl _ _
    have hget : m.program.steps[m.cursor]? = some step := hs.program_eq ▸ hstep
    rw [List.take_add_one, hget, List.map_append, List.foldl_append, h]
    rfl

theorem StatusKept.abort (h : m.StatusKept) : m.abort.1.StatusKept := by
  cases hlive : m.state.isLive with
  | false => rwa [abort_of_stopped hlive]
  | true =>
    rw [abort_of_live hlive]
    exact h

/-- The invariant holds of every reachable machine. -/
theorem Reachable.statusKept (h : Reachable p program m) (hp : p.Registered) : m.StatusKept := by
  induction h with
  | load hl =>
    obtain ⟨-, rfl⟩ := (load_eq_ok_iff hp).mp hl
    rfl
  | advance h ih => exact ih.advance (h.sound hp) (h.wellFormed hp)
  | abort _ ih => exact ih.abort
  | reset h _ =>
    rw [(h.sound hp).reset_eq (h.wellFormed hp) hp]
    rfl

/-- The status of a reachable machine is that of the steps its cursor has passed. -/
theorem Reachable.control_eq (h : Reachable p program m) (hp : p.Registered) :
    m.control =
      ((program.steps.take m.cursor).map MicroStep.kind).foldl ControlState.track .idle :=
  (h.sound hp).program_eq ▸ h.statusKept hp

end Machine

/-- What tracking shows depends on the kinds since the last transfer only, as the closed form says.
A machine shows what tracking makes of idle units and the steps it has passed, also where a fault or
an abort has stopped it.  So its arithmetic unit shows an operation as long as nothing but decoding
follows the step with that operation, and both units show what looking ahead to the next step at
each step would show. -/
theorem units_show_steps_since_transfer :
    (∀ (s : ControlState) (kinds : List StepKind),
      ControlState.IsLongestEnd kinds (ControlState.sinceTransfer kinds) ∧
        kinds.foldl ControlState.track s = s.shownAfter kinds) ∧
    ∀ {p : Profile} {program : Program} {m : Machine}, p.Registered →
      Machine.Reachable p program m →
        m.control =
          ((program.steps.take m.cursor).map MicroStep.kind).foldl ControlState.track .idle ∧
        (∀ op, m.control.alu = .ofAluOp op ↔
          ∃ before step after, program.steps.take m.cursor = before ++ step :: after ∧
            step.kind = .alu op ∧ ∀ later ∈ after, later.kind = .decode) ∧
        ∀ i, m.cursor = i + 1 →
          (ControlState.idle.lookAhead (program.steps.map MicroStep.kind))[i]? =
            some m.control := by
  refine ⟨fun s kinds ↦ ⟨ControlState.isLongestEnd_sinceTransfer kinds,
    ControlState.foldl_track s kinds⟩, ?_⟩
  intro p program m hp h
  have hcontrol := h.control_eq hp
  refine ⟨hcontrol, ?_, ?_⟩
  · intro op
    rw [hcontrol, ControlState.alu_foldl_track_idle_eq_iff]
    constructor
    · rintro ⟨before, after, hkinds, hafter⟩
      obtain ⟨first, last, htaken, -, hlast⟩ := List.map_eq_append_iff.mp hkinds
      obtain ⟨step, rest, rfl, hkind, rfl⟩ := List.map_eq_cons_iff.mp hlast
      exact ⟨first, step, rest, htaken, hkind, by simpa using hafter⟩
    · rintro ⟨before, step, after, htaken, hkind, hafter⟩
      refine ⟨before.map MicroStep.kind, after.map MicroStep.kind, ?_, by simpa using hafter⟩
      rw [htaken, List.map_append, List.map_cons, hkind]
  · intro i hi
    have hlt : i < (program.steps.map MicroStep.kind).length := by
      have hle := (h.sound hp).cursor_le
      rw [List.length_map]
      omega
    rw [ControlState.getElem?_lookAhead hlt, hcontrol, hi, List.map_take]

/-- A division that has been announced is still shown after it has failed. -/
theorem units_show_failed_division :
    ∃ m, Machine.Reachable .ias .storeThenDivide m ∧ m.fault = some (.divisionByZero .mq) ∧
      m.control.alu = .dividing ∧
      (ControlState.idle.lookAhead (Program.storeThenDivide.steps.map MicroStep.kind))[2]? =
        some m.control := by
  have hp : Profile.ias.Registered := ⟨.ias, .simplified, rfl⟩
  have h := (Machine.Reachable.load Machine.load_storeThenDivide).advances 4
  obtain ⟨hcursor, hfault⟩ := Machine.stopped_storeThenDivide
  obtain ⟨-, halu, hahead⟩ := units_show_steps_since_transfer.2 hp h
  have hdividing := (halu .div).mpr
    ⟨Program.storeThenDivide.steps.take 2, .execute (.signal .div), [], by rw [hcursor]; rfl, rfl,
      List.forall_mem_nil _⟩
  exact ⟨_, h, hfault, hdividing, hahead 2 hcursor⟩

end FetchExecute
