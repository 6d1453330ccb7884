import FetchExecute.Proofs.Validation

/-!
# The first defect of a program

`Program.WellFormed` says which programs validation accepts.  Of the others it
reports one defect, and `Program.FirstDefect` says which, again without reference
to any traversal:

1. the first initial word outside memory, if there is one;
2. else the first override of a register that the machine lacks;
3. else, at the first step that is not `Program.Suits`, its first register that is
   to blame, what it reads coming before what it writes.

`Program.validate_eq_error_iff` is the agreement with validation.  As a defect does
not depend on what comes after it, a rejected program stays rejected, for the same
reason, however it goes on (`Program.FirstDefect.followedBy`); and as overrides
matter through the set of their registers alone, validation cannot see in which
order, or how often, they are declared (`Program.FirstDefect.withOverrides`).
-/

namespace FetchExecute

/-! ## First entries -/

/-- The first entry of a list that something is wrong with. -/
def IsFirst {α : Type} (bad : α → Prop) (l : List α) (a : α) : Prop :=
  ∃ before after, l = before ++ a :: after ∧ (∀ b ∈ before, ¬ bad b) ∧ bad a

namespace IsFirst

variable {α β : Type} {bad bad' : α → Prop} {l : List α} {a : α}

theorem mem (h : IsFirst bad l a) : a ∈ l := by
  obtain ⟨before, after, rfl, -⟩ := h
  simp

theorem bad_of (h : IsFirst bad l a) : bad a := by
  obtain ⟨-, -, -, -, h⟩ := h
  exact h

/-- The first bad element is the same if the same elements are bad. -/
theorem congr (h : ∀ b, bad b ↔ bad' b) : IsFirst bad l a ↔ IsFirst bad' l a := by
  simp only [IsFirst, h]

theorem find?_eq_some_iff {p : α → Bool} :
    l.find? p = some a ↔ IsFirst (fun b => p b = true) l a := by
  rw [List.find?_eq_some_iff_append]
  constructor
  · rintro ⟨ha, before, after, rfl, hbefore⟩
    exact ⟨before, after, rfl, by simpa using hbefore, ha⟩
  · rintro ⟨before, after, rfl, hbefore, ha⟩
    exact ⟨ha, before, after, rfl, by simpa using hbefore⟩

/-- A search for a value finds that of the first element with one. -/
theorem findSome?_eq_some_iff {f : α → Option β} {b : β} :
    l.findSome? f = some b ↔ ∃ a, IsFirst (fun a => f a ≠ none) l a ∧ f a = some b := by
  rw [List.findSome?_eq_some_iff]
  constructor
  · rintro ⟨before, a, after, rfl, ha, hbefore⟩
    exact ⟨a, ⟨before, after, rfl, by simpa using hbefore, by simp [ha]⟩, ha⟩
  · rintro ⟨a, ⟨before, after, rfl, hbefore, -⟩, ha⟩
    exact ⟨before, a, after, rfl, ha, by simpa using hbefore⟩

end IsFirst

namespace Program

/-! ## Defects -/

/-- A step that finds the registers it reads populated, and all of its registers on the machine. -/
structure Suits (p : Profile) (known : List Register) (step : MicroStep) : Prop where
  reads : ∀ r ∈ step.reads, p.hasRegister r = true ∧ r ∈ known
  writes : ∀ r ∈ step.writes, p.hasRegister r = true

/-- The defect of a step, given the registers populated before it. -/
inductive StepDefect (p : Profile) (known : List Register) (index : Nat) (step : MicroStep) :
    Fault → Prop
  | foreignRead {r : Register} :
      IsFirst (fun r => ¬ (p.hasRegister r = true ∧ r ∈ known)) step.reads r →
      p.hasRegister r = false → StepDefect p known index step (.registerAbsent r p.architecture)
  | unpopulated {r : Register} :
      IsFirst (fun r => ¬ (p.hasRegister r = true ∧ r ∈ known)) step.reads r →
      p.hasRegister r = true → StepDefect p known index step (.unpopulated index r)
  | foreignWrite {r : Register} :
      (∀ r ∈ step.reads, p.hasRegister r = true ∧ r ∈ known) →
      IsFirst (fun r => p.hasRegister r = false) step.writes r →
      StepDefect p known index step (.registerAbsent r p.architecture)

/-- The defect that counts, of all that a program may have. -/
inductive FirstDefect (p : Profile) (program : Program) : Fault → Prop
  | word {entry : Nat × Nat} :
      IsFirst (fun entry => p.memoryWords ≤ entry.1) program.words entry →
      FirstDefect p program (.addressOutOfRange entry.1 p.memoryWords)
  | override {entry : Register × Nat} :
      (∀ entry ∈ program.words, entry.1 < p.memoryWords) →
      IsFirst (fun entry => p.hasRegister entry.1 = false) program.overrides entry →
      FirstDefect p program (.registerAbsent entry.1 p.architecture)
  | step {i : Nat} {step : MicroStep} {fault : Fault} :
      (∀ entry ∈ program.words, entry.1 < p.memoryWords) →
      (∀ entry ∈ program.overrides, p.hasRegister entry.1 = true) →
      (∀ j < i, ∀ earlier, program.steps[j]? = some earlier →
        Suits p (program.populated j) earlier) →
      program.steps[i]? = some step → StepDefect p (program.populated i) i step fault →
      FirstDefect p program fault

/-! ## Validation finds the first one -/

section

variable {p : Profile} {fault : Fault}

/-- The first word outside memory is reported, with its address and the size. -/
theorem wordDefect?_eq_some_iff {words : List (Nat × Nat)} :
    wordDefect? p words = some fault ↔
      ∃ entry, IsFirst (fun entry => p.memoryWords ≤ entry.1) words entry ∧
        .addressOutOfRange entry.1 p.memoryWords = fault := by
  simp only [wordDefect?, Option.map_eq_some_iff, IsFirst.find?_eq_some_iff, decide_eq_true_eq]

theorem absence?_eq_some_iff {r : Register} :
    absence? p r = some fault ↔
      p.hasRegister r = false ∧ .registerAbsent r p.architecture = fault := by
  cases h : p.hasRegister r <;> simp [absence?, h]

theorem absence?_ne_none_iff {r : Register} : absence? p r ≠ none ↔ p.hasRegister r = false := by
  rw [ne_eq, absence?_eq_none_iff, Bool.not_eq_true]

/-- The first initial value of a foreign register is reported. -/
theorem overrideDefect?_eq_some_iff {overrides : List (Register × Nat)} :
    overrideDefect? p overrides = some fault ↔
      ∃ entry, IsFirst (fun entry => p.hasRegister entry.1 = false) overrides entry ∧
        .registerAbsent entry.1 p.architecture = fault := by
  simp only [overrideDefect?, IsFirst.findSome?_eq_some_iff, absence?_ne_none_iff,
    absence?_eq_some_iff]
  constructor
  · rintro ⟨entry, hfirst, -, hfault⟩
    exact ⟨entry, hfirst, hfault⟩
  · rintro ⟨entry, hfirst, hfault⟩
    exact ⟨entry, hfirst, hfirst.bad_of, hfault⟩

/-- What is reported of a step is one of its defects: of what it reads before what it writes. -/
theorem stepDefect?_eq_some_iff {known : List Register} {index : Nat} {step : MicroStep} :
    stepDefect? p known index step = some fault ↔ StepDefect p known index step fault := by
  have hread : ∀ r, (absence? p r).or (if r ∈ known then none else some (.unpopulated index r)) ≠
      none ↔ ¬ (p.hasRegister r = true ∧ r ∈ known) := by
    intro r
    simp [absence?_eq_none_iff]
  have hreads : step.reads.findSome? (fun r =>
      (absence? p r).or (if r ∈ known then none else some (.unpopulated index r))) = none ↔
      ∀ r ∈ step.reads, p.hasRegister r = true ∧ r ∈ known := by
    simp [absence?_eq_none_iff]
  rw [stepDefect?, Option.or_eq_some_iff, hreads]
  simp only [IsFirst.findSome?_eq_some_iff, IsFirst.congr hread, absence?_ne_none_iff,
    absence?_eq_some_iff, Option.or_eq_some_iff, absence?_eq_none_iff]
  constructor
  · rintro (⟨r, hfirst, ⟨habsent, rfl⟩ | ⟨hpresent, hknown⟩⟩ | ⟨hsuits, r, hfirst, habsent, rfl⟩)
    · exact .foreignRead hfirst habsent
    · obtain rfl : .unpopulated index r = fault := by
        split at hknown
        · cases hknown
        · exact Option.some.inj hknown
      exact .unpopulated hfirst hpresent
    · exact .foreignWrite hsuits hfirst
  · rintro (⟨hfirst, habsent⟩ | ⟨hfirst, hpresent⟩ | ⟨hsuits, hfirst⟩)
    · exact .inl ⟨_, hfirst, .inl ⟨habsent, rfl⟩⟩
    · have hunknown := fun hknown ↦ hfirst.bad_of ⟨hpresent, hknown⟩
      exact .inl ⟨_, hfirst, .inr ⟨hpresent, if_neg hunknown⟩⟩
    · exact .inr ⟨hsuits, _, hfirst, hfirst.bad_of, rfl⟩

/-- Nothing is reported of a step exactly if it suits what has been populated. -/
theorem stepDefect?_eq_none_iff_suits {known : List Register} {index : Nat} {step : MicroStep} :
    stepDefect? p known index step = none ↔ Suits p known step :=
  stepDefect?_eq_none_iff.trans ⟨fun h ↦ ⟨h.1, h.2⟩, fun h ↦ ⟨h.reads, h.writes⟩⟩

/-- The first defect from some step on, in terms of what is known before the first of them. -/
theorem stepsDefect?_eq_some_iff {known : List Register} {index : Nat} {steps : List MicroStep} :
    stepsDefect? p known index steps = some fault ↔
      ∃ i step, (∀ j < i, ∀ earlier, steps[j]? = some earlier →
          Suits p (known ++ (steps.take j).flatMap MicroStep.writes) earlier) ∧
        steps[i]? = some step ∧
        StepDefect p (known ++ (steps.take i).flatMap MicroStep.writes) (index + i) step fault := by
  induction steps generalizing known index with
  | nil => simp [stepsDefect?]
  | cons first rest ih =>
    have hindex : ∀ i, index + 1 + i = index + (i + 1) := by omega
    rw [stepsDefect?, Option.or_eq_some_iff, stepDefect?_eq_some_iff,
      stepDefect?_eq_none_iff_suits, ih]
    constructor
    · rintro (hdefect | ⟨hfirst, i, step, hearlier, hi, hdefect⟩)
      · refine ⟨0, first, ?_, rfl, by simpa using hdefect⟩
        intro j hj
        exact absurd hj (Nat.not_lt_zero j)
      · refine ⟨i + 1, step, ?_, hi, ?_⟩
        · intro j hj earlier hget
          cases j with
          | zero =>
            obtain rfl : first = earlier := by simpa using hget
            simpa using hfirst
          | succ j =>
            simpa [List.append_assoc] using hearlier j (by omega) earlier (by simpa using hget)
        · simpa [List.append_assoc, hindex] using hdefect
    · rintro ⟨i, step, hearlier, hi, hdefect⟩
      cases i with
      | zero =>
        obtain rfl : first = step := by simpa using hi
        exact .inl (by simpa using hdefect)
      | succ i =>
        refine .inr ⟨by simpa using hearlier 0 (by omega) first rfl, i, step, ?_, hi, ?_⟩
        · intro j hj earlier hget
          simpa [List.append_assoc] using hearlier (j + 1) (by omega) earlier hget
        · simpa [List.append_assoc, hindex] using hdefect

/-- What is reported of a program is its first defect: of words, of initial values, of steps. -/
theorem defect?_eq_some_iff {program : Program} :
    program.defect? p = some fault ↔ FirstDefect p program fault := by
  rw [defect?, Option.or_eq_some_iff, Option.or_eq_some_iff, wordDefect?_eq_some_iff,
    wordDefect?_eq_none_iff, overrideDefect?_eq_some_iff, overrideDefect?_eq_none_iff,
    stepsDefect?_eq_some_iff]
  constructor
  · rintro (⟨entry, hfirst, rfl⟩ | ⟨hwords, ⟨entry, hfirst, rfl⟩ |
      ⟨hoverrides, i, step, hearlier, hi, hdefect⟩⟩)
    · exact .word hfirst
    · exact .override hwords hfirst
    · exact .step hwords hoverrides hearlier hi (by simpa [populated] using hdefect)
  · rintro (hfirst | ⟨hwords, hfirst⟩ | ⟨hwords, hoverrides, hearlier, hi, hdefect⟩)
    · exact .inl ⟨_, hfirst, rfl⟩
    · exact .inr ⟨hwords, .inl ⟨_, hfirst, rfl⟩⟩
    · exact .inr ⟨hwords, .inr ⟨hoverrides, _, _, hearlier, hi, by simpa [populated] using hdefect⟩⟩

/-- A program is rejected with a fault exactly if that is its first defect. -/
theorem validate_eq_error_iff {program : Program} :
    program.validate p = .error fault ↔ FirstDefect p program fault := by
  rw [← defect?_eq_some_iff, validate]
  cases program.defect? p with
  | none => simp
  | some other => simp

/-- Validation tells no two programs apart that have the same defects. -/
theorem validate_congr {program program' : Program}
    (h : ∀ fault, FirstDefect p program fault ↔ FirstDefect p program' fault) :
    program.validate p = program'.validate p := by
  cases hv : program.validate p with
  | error fault =>
    have hdefect := (h fault).mp (validate_eq_error_iff.mp hv)
    exact (validate_eq_error_iff.mpr hdefect).symm
  | ok _ =>
    cases hv' : program'.validate p with
    | error fault =>
      rw [validate_eq_error_iff.mpr ((h fault).mpr (validate_eq_error_iff.mp hv'))] at hv
      cases hv
    | ok _ => rfl

end

/-! ## Programs that go on or break off -/

/-- The program that goes on with further steps. -/
def followedBy (program : Program) (more : List MicroStep) : Program :=
  { program with steps := program.steps ++ more }

/-- The program that breaks off before the step of this index. -/
def upTo (program : Program) (n : Nat) : Program :=
  { program with steps := program.steps.take n }

theorem upTo_followedBy (program : Program) (n : Nat) :
    (program.upTo n).followedBy (program.steps.drop n) = program := by
  simp [upTo, followedBy]

section

variable {p : Profile} {program : Program} {fault : Fault}

/-- Before a step, registers are populated by initial values and by earlier steps. -/
theorem mem_populated_iff {i : Nat} {r : Register} :
    r ∈ program.populated i ↔ r ∈ program.overrides.map (·.1) ∨
      ∃ j < i, ∃ earlier, program.steps[j]? = some earlier ∧ r ∈ earlier.writes := by
  rw [populated, List.mem_append, List.mem_flatMap]
  refine or_congr_right ⟨?_, ?_⟩
  · rintro ⟨earlier, hmem, hr⟩
    obtain ⟨j, hj⟩ := List.mem_iff_getElem?.mp hmem
    rw [List.getElem?_take] at hj
    split at hj
    · exact ⟨j, ‹_›, earlier, hj, hr⟩
    · cases hj
  · rintro ⟨j, hlt, earlier, hget, hr⟩
    exact ⟨earlier, List.mem_iff_getElem?.mpr ⟨j, by rwa [List.getElem?_take_of_lt hlt]⟩, hr⟩

/-- Later steps populate nothing for earlier ones. -/
theorem populated_followedBy (more : List MicroStep) {i : Nat} (h : i ≤ program.steps.length) :
    (program.followedBy more).populated i = program.populated i := by
  rw [populated, populated, followedBy, List.take_append_of_le_length h]

/-- What comes after a defect is not looked at. -/
theorem FirstDefect.followedBy (h : FirstDefect p program fault) (more : List MicroStep) :
    FirstDefect p (program.followedBy more) fault := by
  cases h with
  | word hfirst => exact .word hfirst
  | override hwords hfirst => exact .override hwords hfirst
  | @step i step _ hwords hoverrides hearlier hi hdefect =>
    have hlt : i < program.steps.length := (List.getElem?_eq_some_iff.mp hi).1
    have hi' : (program.followedBy more).steps[i]? = some step := by
      rw [Program.followedBy, List.getElem?_append_left hlt, hi]
    refine .step hwords hoverrides ?_ hi' ?_
    · intro j hj earlier hget
      have hle : j < program.steps.length := Nat.lt_trans hj hlt
      rw [Program.followedBy, List.getElem?_append_left hle] at hget
      rw [populated_followedBy more (Nat.le_of_lt hle)]
      exact hearlier j hj earlier hget
    · rwa [populated_followedBy more (Nat.le_of_lt hlt)]

/-- A program that is rejected stays so, with the same fault, when steps are added at its end. -/
theorem validate_followedBy (hv : program.validate p = .error fault) (more : List MicroStep) :
    (program.followedBy more).validate p = .error fault :=
  validate_eq_error_iff.mpr ((validate_eq_error_iff.mp hv).followedBy more)

/-- A defect of what comes first would be a defect of the whole. -/
theorem validate_upTo (hv : program.validate p = .ok ()) (n : Nat) :
    (program.upTo n).validate p = .ok () := by
  cases hn : (program.upTo n).validate p with
  | ok _ => rfl
  | error fault =>
    have hwhole := validate_followedBy hn (program.steps.drop n)
    rw [upTo_followedBy, hv] at hwhole
    cases hwhole

end

/-! ## Overrides declared otherwise -/

/-- The program with other initial values. -/
def withOverrides (program : Program) (overrides : List (Register × Nat)) : Program :=
  { program with overrides := overrides }

section

variable {p : Profile} {program : Program} {fault : Fault} {overrides : List (Register × Nat)}

/-- It matters which registers are known, and not in what order. -/
theorem Suits.congr {known known' : List Register} (h : ∀ r, r ∈ known ↔ r ∈ known')
    {step : MicroStep} : Suits p known step ↔ Suits p known' step := by
  constructor
  · rintro ⟨hreads, hwrites⟩
    exact ⟨fun r hr ↦ ⟨(hreads r hr).1, (h r).mp (hreads r hr).2⟩, hwrites⟩
  · rintro ⟨hreads, hwrites⟩
    exact ⟨fun r hr ↦ ⟨(hreads r hr).1, (h r).mpr (hreads r hr).2⟩, hwrites⟩

theorem StepDefect.congr {known known' : List Register} (h : ∀ r, r ∈ known ↔ r ∈ known')
    {index : Nat} {step : MicroStep} (hdefect : StepDefect p known index step fault) :
    StepDefect p known' index step fault := by
  have hbad : ∀ r, ¬ (p.hasRegister r = true ∧ r ∈ known) ↔
      ¬ (p.hasRegister r = true ∧ r ∈ known') := fun r ↦ by rw [h r]
  cases hdefect with
  | foreignRead hfirst habsent => exact .foreignRead ((IsFirst.congr hbad).mp hfirst) habsent
  | unpopulated hfirst hpresent => exact .unpopulated ((IsFirst.congr hbad).mp hfirst) hpresent
  | foreignWrite hreads hfirst =>
    exact .foreignWrite (fun r hr ↦ ⟨(hreads r hr).1, (h r).mp (hreads r hr).2⟩) hfirst

/-- Overrides of registers that the machine has matter through the set of these registers only. -/
theorem FirstDefect.withOverrides
    (h : ∀ r, r ∈ overrides.map (·.1) ↔ r ∈ program.overrides.map (·.1))
    (hpresent : ∀ entry ∈ overrides, p.hasRegister entry.1 = true)
    (hpresent' : ∀ entry ∈ program.overrides, p.hasRegister entry.1 = true)
    (hdefect : FirstDefect p program fault) :
    FirstDefect p (program.withOverrides overrides) fault := by
  have hknown : ∀ i r, r ∈ program.populated i ↔
      r ∈ (program.withOverrides overrides).populated i := by
    intro i r
    rw [mem_populated_iff, mem_populated_iff]
    exact or_congr_left (h r).symm
  cases hdefect with
  | word hfirst => exact .word hfirst
  | override hwords hfirst =>
    have habsent := hfirst.bad_of
    rw [hpresent' _ hfirst.mem] at habsent
    cases habsent
  | @step i step _ hwords _ hearlier hi hdefect =>
    refine .step hwords hpresent ?_ hi (hdefect.congr (hknown i))
    intro j hj earlier hget
    exact (Suits.congr (hknown j)).mp (hearlier j hj earlier hget)

/-- The same verdict, except that two programs may each be rejected for an override of its own. -/
def SameVerdict (p : Profile) (program program' : Program) : Prop :=
  program.validate p = program'.validate p ∨
    ∃ entry ∈ program.overrides, ∃ entry' ∈ program'.overrides,
      program.validate p = .error (.registerAbsent entry.1 p.architecture) ∧
      program'.validate p = .error (.registerAbsent entry'.1 p.architecture)

theorem hasRegister_of_same (h : ∀ r, r ∈ overrides.map (·.1) ↔ r ∈ program.overrides.map (·.1))
    (hpresent : ∀ entry ∈ program.overrides, p.hasRegister entry.1 = true) :
    ∀ entry ∈ overrides, p.hasRegister entry.1 = true := by
  intro entry hentry
  obtain ⟨other, hother, heq⟩ := List.mem_map.mp ((h entry.1).mp (List.mem_map_of_mem hentry))
  exact heq ▸ hpresent other hother

/-- Only the choice among several overrides that the machine has no register for depends on how they
are declared. -/
theorem sameVerdict_withOverrides
    (h : ∀ r, r ∈ overrides.map (·.1) ↔ r ∈ program.overrides.map (·.1)) :
    SameVerdict p (program.withOverrides overrides) program := by
  have h' : ∀ r, r ∈ program.overrides.map (·.1) ↔
      r ∈ (program.withOverrides overrides).overrides.map (·.1) := fun r ↦ (h r).symm
  cases hword : wordDefect? p program.words with
  | some fault => exact .inl (by simp [validate, defect?, withOverrides, hword])
  | none =>
    have hwords := wordDefect?_eq_none_iff.mp hword
    cases hdefect : overrideDefect? p program.overrides with
    | none =>
      have hpresent' := overrideDefect?_eq_none_iff.mp hdefect
      have hpresent := hasRegister_of_same h hpresent'
      exact .inl (validate_congr fun fault ↦
        ⟨.withOverrides h' hpresent' hpresent, .withOverrides h hpresent hpresent'⟩)
    | some fault =>
      obtain ⟨entry', hfirst', rfl⟩ := overrideDefect?_eq_some_iff.mp hdefect
      cases hdefect : overrideDefect? p overrides with
      | none =>
        have hpresent := hasRegister_of_same h' (overrideDefect?_eq_none_iff.mp hdefect)
        have habsent := hfirst'.bad_of
        rw [hpresent _ hfirst'.mem] at habsent
        cases habsent
      | some fault =>
        obtain ⟨entry, hfirst, rfl⟩ := overrideDefect?_eq_some_iff.mp hdefect
        exact .inr ⟨entry, hfirst.mem, entry', hfirst'.mem,
          validate_eq_error_iff.mpr (.override hwords hfirst),
          validate_eq_error_iff.mpr (.override hwords hfirst')⟩

end

end Program

/-- Validation accepts the well-formed programs and reports the first defect of every other.  So a
rejected program keeps its fault however it goes on, an accepted one may break off anywhere, and
overrides of the same registers, reordered or repeated, lead to the same verdict. -/
theorem validation_reports_first_defect (p : Profile) (program : Program) :
    (program.validate p = .ok () ↔ program.WellFormed p) ∧
    (∀ fault, program.validate p = .error fault ↔ program.FirstDefect p fault) ∧
    (∀ fault more, program.validate p = .error fault →
      (program.followedBy more).validate p = .error fault) ∧
    (∀ n, program.validate p = .ok () → (program.upTo n).validate p = .ok ()) ∧
    ∀ overrides, (∀ r, r ∈ overrides.map (·.1) ↔ r ∈ program.overrides.map (·.1)) →
      Program.SameVerdict p (program.withOverrides overrides) program :=
  ⟨Program.validate_eq_ok_iff, fun _ ↦ Program.validate_eq_error_iff,
    fun _ more hv ↦ Program.validate_followedBy hv more, fun n hv ↦ Program.validate_upTo hv n,
    fun _ h ↦ Program.sameVerdict_withOverrides h⟩

/-- Counts up a register that only this step itself gives a value, and then reads another one. -/
def Program.countUp : Program where
  name := "Count up"
  words := [(10, 1)]
  overrides := [(.pc, 0), (.mbr, 1)]
  steps := [.fetch (.copy .pc .mar), .execute (.increment .ac), .execute (.copy .mq .ac)]

theorem first_defect_countUp :
    Program.countUp.FirstDefect .ias (.unpopulated 1 .ac) ∧
    (Program.countUp.followedBy [.execute (.decode .ir)]).validate .ias =
      .error (.unpopulated 1 .ac) ∧
    (Program.countUp.upTo 1).WellFormed .ias ∧
    ((Program.countUp.upTo 1).upTo 0).validate .ias = .ok () ∧
    Program.SameVerdict .ias (Program.countUp.withOverrides [(.mbr, 1), (.pc, 7), (.pc, 0)])
      .countUp := by
  have hv : Program.countUp.validate .ias = .error (.unpopulated 1 .ac) := rfl
  have hv' : (Program.countUp.upTo 1).validate .ias = .ok () := rfl
  obtain ⟨-, herror, hmore, -, hsame⟩ := validation_reports_first_defect .ias .countUp
  obtain ⟨hok, -, -, hupTo, -⟩ := validation_reports_first_defect .ias (Program.countUp.upTo 1)
  refine ⟨(herror _).mp hv, hmore _ _ hv, hok.mp hv', hupTo 0 hv', hsame _ ?_⟩
  intro r
  cases r <;> decide

end FetchExecute
