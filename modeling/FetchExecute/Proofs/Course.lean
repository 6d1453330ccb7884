import FetchExecute.Proofs.Reachability

/-!
# Courses of steps

`Storage.follow` carries out a list of steps on storage alone, up to the first
hazard.  It composes over the parts of a list (`Storage.follow_append`), which a
machine with its cursor does not; so what a block of steps does is worked out
here first, and then carried over to machines.

For a machine that nothing has stopped, a number of advances is the same as
following the steps under its cursor (`Machine.Sound.advances_follow`): the
storage and the fault are those of the course, and the cursor has passed all of
them if there is no fault.
-/

namespace FetchExecute

namespace Storage

/-- Carries out steps in order, up to the first that raises a fault. -/
def follow (p : Profile) : List MicroStep → Storage → Storage × Option Fault
  | [], s => (s, none)
  | step :: rest, s =>
    match step.op.hazard? s with
    | some fault => (s, some fault)
    | none => follow p rest (step.op.perform p s)

variable {p : Profile} {s : Storage} {step : MicroStep} {rest : List MicroStep}

@[simp] theorem follow_nil : s.follow p [] = (s, none) := rfl

/-- A step with a hazard ends the course. -/
theorem follow_cons_of_hazard {fault : Fault} (h : step.op.hazard? s = some fault) :
    s.follow p (step :: rest) = (s, some fault) := by
  rw [follow, h]

/-- After a step without a hazard, the course goes on from what the step performs. -/
theorem follow_cons_of_safe (h : step.op.hazard? s = none) :
    s.follow p (step :: rest) = (step.op.perform p s).follow p rest := by
  rw [follow, h]

/-- A course is followed in two stretches. -/
theorem follow_append {first : List MicroStep} {s' : Storage}
    (h : s.follow p first = (s', none)) :
    s.follow p (first ++ rest) = s'.follow p rest := by
  induction first generalizing s with
  | nil =>
    obtain rfl : s = s' := congrArg Prod.fst h
    rfl
  | cons step first ih =>
    cases hs : step.op.hazard? s with
    | some fault =>
      rw [follow_cons_of_hazard hs] at h
      cases h
    | none =>
      rw [follow_cons_of_safe hs] at h
      rw [List.cons_append, follow_cons_of_safe hs, ih h]

/-- After a fault nothing is followed. -/
theorem follow_append_of_fault {first : List MicroStep} {s' : Storage} {fault : Fault}
    (h : s.follow p first = (s', some fault)) :
    s.follow p (first ++ rest) = (s', some fault) := by
  induction first generalizing s with
  | nil => cases h
  | cons step first ih =>
    cases hs : step.op.hazard? s with
    | some _ => rwa [List.cons_append, follow_cons_of_hazard hs, ← follow_cons_of_hazard hs]
    | none =>
      rw [follow_cons_of_safe hs] at h
      rw [List.cons_append, follow_cons_of_safe hs, ih h]

/-! ### Single steps -/

section

variable (phase : Phase)

/-- Observing, decoding and signalling leave storage alone. -/
@[simp] theorem follow_observe (r : Register) :
    s.follow p (⟨phase, .observe r⟩ :: rest) = s.follow p rest := rfl

@[simp] theorem follow_decode (r : Register) :
    s.follow p (⟨phase, .decode r⟩ :: rest) = s.follow p rest := rfl

@[simp] theorem follow_signal (op : AluOp) :
    s.follow p (⟨phase, .signal op⟩ :: rest) = s.follow p rest := rfl

@[simp] theorem follow_copy (source target : Register) :
    s.follow p (⟨phase, .copy source target⟩ :: rest) =
      (s.put target (Word.truncate (s.width target) (s.value source))).follow p rest := rfl

@[simp] theorem follow_increment (r : Register) :
    s.follow p (⟨phase, .increment r⟩ :: rest) =
      (s.put r (Word.truncate (s.width r) (s.value r + 1))).follow p rest := rfl

@[simp] theorem follow_loadHalf (half : Half) (source target : Register) :
    s.follow p (⟨phase, .loadHalf half source target⟩ :: rest) =
      (s.put target (Word.truncate (s.width target)
        (p.layout.instruction (s.value source) half))).follow p rest := rfl

@[simp] theorem follow_extractAddress (source : Register) (mask : Nat) (target : Register) :
    s.follow p (⟨phase, .extractAddress source mask target⟩ :: rest) =
      (s.put target (Word.truncate (s.width target) (s.value source &&& mask))).follow p rest := rfl

/-- An arithmetic step puts its results, unless it divides by zero. -/
theorem follow_combine (op : AluOp) {left right target : Register} {second : Option Register}
    (h : op = .div → s.value right ≠ 0) :
    s.follow p (⟨phase, .combine op left right target second⟩ :: rest) =
      (s.putAll ((MicroOp.combine op left right target second).transfers p s)).follow p rest := by
  refine follow_cons_of_safe ?_
  cases op with
  | div => exact if_neg (h rfl)
  | _ => rfl

/-- An access outside memory ends the course where it is. -/
theorem follow_readMemory (address target : Register) :
    s.follow p (⟨phase, .readMemory address target⟩ :: rest) =
      if s.memory.size ≤ s.value address then
        (s, some (.addressOutOfRange (s.value address) s.memory.size))
      else
        (s.put target (Word.truncate (s.width target)
          (s.word (s.value address)))).follow p rest := by
  split
  · exact follow_cons_of_hazard (if_pos ‹_›)
  · exact follow_cons_of_safe (if_neg ‹_›)

theorem follow_writeMemory (address source : Register) :
    s.follow p (⟨phase, .writeMemory address source⟩ :: rest) =
      if s.memory.size ≤ s.value address then
        (s, some (.addressOutOfRange (s.value address) s.memory.size))
      else
        (s.putWord (s.value address)
          (Word.truncate s.memory.wordBits (s.value source))).follow p rest := by
  split
  · exact follow_cons_of_hazard (if_pos ‹_›)
  · exact follow_cons_of_safe (if_neg ‹_›)

end

/-- Whatever course is followed, the shape of the storage stays. -/
theorem Fits.follow (h : s.Fits p) (steps : List MicroStep) : (s.follow p steps).1.Fits p := by
  induction steps generalizing s with
  | nil => exact h
  | cons step rest ih =>
    cases hs : step.op.hazard? s with
    | some fault => rwa [follow_cons_of_hazard hs]
    | none =>
      rw [follow_cons_of_safe hs]
      exact ih (h.perform step.op)

theorem Fits.of_follow {steps : List MicroStep} {s' : Storage} {fault : Option Fault}
    (h : s.Fits p) (hf : s.follow p steps = (s', fault)) : s'.Fits p := by
  have hs' := h.follow steps
  rwa [hf] at hs'

end Storage

/-! ## Machines on their way -/

namespace Machine

theorem advances_succ (m : Machine) (k : Nat) :
    m.advances (k + 1) = m.advance.1.advances k := by
  induction k with
  | zero => rfl
  | succ k ih => exact congrArg (·.advance.1) ih

/-- A number of steps may be taken in two stretches. -/
theorem advances_add (m : Machine) (j k : Nat) :
    m.advances (j + k) = (m.advances j).advances k := by
  induction k with
  | zero => rfl
  | succ k ih => exact congrArg (·.advance.1) ih

/-- A stopped machine stays as it is. -/
theorem advances_of_stopped {m : Machine} (h : m.state.isLive = false) (k : Nat) :
    m.advances k = m := by
  induction k with
  | zero => rfl
  | succ k ih => rw [advances, ih, advance_of_stopped h]

/-- Nothing has stopped the machine, unless it has taken every step. -/
structure Unbroken (m : Machine) : Prop where
  fault : m.fault = none
  live : m.cursor < m.total → m.state.isLive = true
  completed : m.total ≤ m.cursor → m.state = .completed

theorem fresh_unbroken (p : Profile) (program : Program) : (fresh p program).Unbroken where
  fault := rfl
  live := by
    intro (h : 0 < program.steps.length)
    show (RunState.initial program.steps.length).isLive = true
    rw [RunState.initial, if_neg (Nat.ne_of_gt h)]
    rfl
  completed := fun h ↦ if_pos (Nat.le_zero.mp h)

/-- A step that succeeds leaves a machine unbroken. -/
theorem Unbroken.advanced {m : Machine} (h : m.Unbroken) (step : MicroStep) (s : Storage) :
    (m.advanced step s).Unbroken where
  fault := h.fault
  live := by
    intro (hlt : m.cursor + 1 < m.total)
    show (RunState.afterStep (m.cursor + 1) m.total).isLive = true
    rw [RunState.afterStep, if_neg (Nat.not_le_of_lt hlt)]
    rfl
  completed := fun hle ↦ if_pos hle

/-- The machine has followed these steps: either a fault has stopped it, or it has passed all of
them. -/
structure Followed (p : Profile) (steps : List MicroStep) (m m' : Machine) : Prop where
  course : (m'.storage, m'.fault) = m.storage.follow p steps
  aborted : m'.fault ≠ none → m'.state = .aborted
  passed : m'.fault = none → m'.cursor = m.cursor + steps.length ∧ m'.Unbroken

/-- Advancing a machine is following the steps under its cursor. -/
theorem Sound.advances_follow {p : Profile} {program : Program} (hwf : program.WellFormed p)
    {steps rest : List MicroStep} {m : Machine} (hs : m.Sound p program) (hu : m.Unbroken)
    (hsteps : program.steps.drop m.cursor = steps ++ rest) :
    Followed p steps m (m.advances steps.length) := by
  induction steps generalizing m with
  | nil => exact ⟨Prod.ext rfl hu.fault, fun h ↦ absurd hu.fault h, fun _ ↦ ⟨rfl, hu⟩⟩
  | cons step steps ih =>
    have hstep : program.steps[m.cursor]? = some step := by
      rw [← List.head?_drop, hsteps]
      rfl
    have hlt : m.cursor < program.steps.length := (List.getElem?_eq_some_iff.mp hstep).1
    have hlive : m.state.isLive = true := hu.live (by rwa [total, hs.program_eq])
    rw [List.length_cons, advances_succ]
    cases hhazard : step.op.hazard? m.storage with
    | some fault =>
      rw [hs.advance_of_hazard hwf hlive hstep hhazard, advances_of_stopped rfl]
      refine ⟨(Storage.follow_cons_of_hazard hhazard).symm, fun _ ↦ rfl, ?_⟩
      intro hnone
      cases hnone
    | none =>
      obtain ⟨e, -, -, he⟩ := hs.advance_of_safe hwf hlive hstep hhazard
      rw [he]
      have hdrop : program.steps.drop (m.cursor + 1) = steps ++ rest := by
        rw [← List.drop_drop, hsteps]
        rfl
      have hf := ih (hs.advanced hlt step.op step) (hu.advanced step _) hdrop
      refine ⟨hf.course.trans (Storage.follow_cons_of_safe hhazard).symm, hf.aborted, ?_⟩
      intro hnone
      obtain ⟨hcursor, hunbroken⟩ := hf.passed hnone
      refine ⟨hcursor.trans ?_, hunbroken⟩
      show m.cursor + 1 + steps.length = m.cursor + (steps.length + 1)
      rw [Nat.add_assoc, Nat.add_comm 1]

/-- However often a machine is advanced beyond its last step, it stays where the steps have led
it. -/
theorem Sound.advances_to_end {p : Profile} {program : Program} (hwf : program.WellFormed p)
    {m : Machine} (hs : m.Sound p program) (hu : m.Unbroken) {n : Nat}
    (hn : (program.steps.drop m.cursor).length ≤ n) :
    ((m.advances n).storage, (m.advances n).fault) =
        m.storage.follow p (program.steps.drop m.cursor) ∧
      (m.advances n).state =
        if (m.storage.follow p (program.steps.drop m.cursor)).2 = none then .completed
        else .aborted := by
  have hf := hs.advances_follow hwf hu (List.append_nil (program.steps.drop m.cursor)).symm
  have hstate : (m.advances (program.steps.drop m.cursor).length).state =
      if (m.storage.follow p (program.steps.drop m.cursor)).2 = none then .completed
      else .aborted := by
    rw [← hf.course]
    split
    · obtain ⟨hcursor, hunbroken⟩ := hf.passed ‹_›
      refine hunbroken.completed ?_
      rw [hcursor, total, (hs.advances hwf _).program_eq, List.length_drop]
      omega
    · exact hf.aborted ‹_›
  have hstopped : (m.advances (program.steps.drop m.cursor).length).state.isLive = false := by
    rw [hstate]
    split <;> rfl
  obtain ⟨extra, rfl⟩ := Nat.exists_eq_add_of_le hn
  rw [advances_add, advances_of_stopped hstopped]
  exact ⟨hf.course, hstate⟩

end Machine

end FetchExecute
