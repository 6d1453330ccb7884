import FetchExecute.Machine
import FetchExecute.Proofs.Storage

/-!
# Programs that suit a machine

`Program.WellFormed` says without reference to any traversal what validation
looks for: initial words inside memory, registers that the machine has, and no
read of a register that neither an override nor an earlier step has populated.
`Program.validate_eq_ok_iff` is the agreement of the two.

A program that passes has an initial storage, which fits the profile; so it can
be loaded, and what is loaded can be set back to its start at any time.
-/

namespace FetchExecute

namespace Program

/-- The registers that have been given a value before the step of this index. -/
def populated (program : Program) (index : Nat) : List Register :=
  program.overrides.map (·.1) ++ (program.steps.take index).flatMap MicroStep.writes

structure WellFormed (p : Profile) (program : Program) : Prop where
  words : ∀ entry ∈ program.words, entry.1 < p.memoryWords
  overrides : ∀ entry ∈ program.overrides, p.hasRegister entry.1 = true
  reads : ∀ {i : Nat} {step : MicroStep}, program.steps[i]? = some step →
    ∀ r ∈ step.reads, p.hasRegister r = true ∧ r ∈ program.populated i
  writes : ∀ {i : Nat} {step : MicroStep}, program.steps[i]? = some step →
    ∀ r ∈ step.writes, p.hasRegister r = true

/-- The steps of a program that suits the profile name only registers that it has. -/
theorem WellFormed.hasRegister {p : Profile} {program : Program} (h : program.WellFormed p)
    {step : MicroStep} (hstep : step ∈ program.steps) {r : Register}
    (hr : r ∈ step.reads ++ step.writes) : p.hasRegister r = true := by
  obtain ⟨i, hi⟩ := List.getElem?_of_mem hstep
  rcases List.mem_append.mp hr with hread | hwrite
  · exact (h.reads hi r hread).1
  · exact h.writes hi r hwrite

/-! ## Validation finds what is wrong -/

theorem wordDefect?_eq_none_iff {p : Profile} {words : List (Nat × Nat)} :
    wordDefect? p words = none ↔ ∀ entry ∈ words, entry.1 < p.memoryWords := by
  simp [wordDefect?]

theorem absence?_eq_none_iff {p : Profile} {r : Register} :
    absence? p r = none ↔ p.hasRegister r = true := by
  simp [absence?]

theorem overrideDefect?_eq_none_iff {p : Profile} {overrides : List (Register × Nat)} :
    overrideDefect? p overrides = none ↔ ∀ entry ∈ overrides, p.hasRegister entry.1 = true := by
  simp [overrideDefect?, absence?_eq_none_iff]

/-- A step is in order if it reads registers that are populated, and writes registers that are
there. -/
theorem stepDefect?_eq_none_iff {p : Profile} {known : List Register} {index : Nat}
    {step : MicroStep} :
    stepDefect? p known index step = none ↔
      (∀ r ∈ step.reads, p.hasRegister r = true ∧ r ∈ known) ∧
        ∀ r ∈ step.writes, p.hasRegister r = true := by
  simp [stepDefect?, absence?_eq_none_iff]

/-- No defect from some step on, in terms of what is known before the first of them. -/
theorem stepsDefect?_eq_none_iff {p : Profile} {known : List Register} {index : Nat}
    {steps : List MicroStep} :
    stepsDefect? p known index steps = none ↔
      ∀ {i : Nat} {step : MicroStep}, steps[i]? = some step →
        (∀ r ∈ step.reads, p.hasRegister r = true ∧
          r ∈ known ++ (steps.take i).flatMap MicroStep.writes) ∧
        ∀ r ∈ step.writes, p.hasRegister r = true := by
  induction steps generalizing known index with
  | nil => simp [stepsDefect?]
  | cons first rest ih =>
    rw [stepsDefect?, Option.or_eq_none_iff, stepDefect?_eq_none_iff, ih]
    constructor
    · rintro ⟨hfirst, hrest⟩ i step hi
      cases i with
      | zero =>
        obtain rfl : first = step := by simpa using hi
        simpa using hfirst
      | succ i => simpa [List.append_assoc] using hrest (i := i) (by simpa using hi)
    · intro h
      refine ⟨by simpa using h (i := 0) rfl, ?_⟩
      intro i step hi
      simpa [List.append_assoc] using h (i := i + 1) (by simpa using hi)

/-- A program has no defect exactly if it is well-formed. -/
theorem defect?_eq_none_iff {p : Profile} {program : Program} :
    program.defect? p = none ↔ program.WellFormed p := by
  rw [defect?, Option.or_eq_none_iff, Option.or_eq_none_iff, wordDefect?_eq_none_iff,
    overrideDefect?_eq_none_iff, stepsDefect?_eq_none_iff]
  constructor
  · rintro ⟨hwords, hoverrides, hsteps⟩
    exact ⟨hwords, hoverrides, fun hi ↦ (hsteps hi).1, fun hi ↦ (hsteps hi).2⟩
  · intro h
    exact ⟨h.words, h.overrides, fun hi ↦ ⟨h.reads hi, h.writes hi⟩⟩

/-- Validation accepts the well-formed programs. -/
theorem validate_eq_ok_iff {p : Profile} {program : Program} :
    program.validate p = .ok () ↔ program.WellFormed p := by
  rw [← defect?_eq_none_iff, validate]
  cases program.defect? p with
  | none => simp
  | some fault => simp

/-! ## Loading -/

section

variable {p : Profile} {program : Program}

/-- Initial values for registers that are there are all written. -/
theorem writeOverrides_eq_ok (overrides : List (Register × Nat)) {s : Storage}
    (owner : Architecture) (h : ∀ entry ∈ overrides, s.registers.contains entry.1 = true) :
    overrides.foldlM (fun file entry => file.write owner entry.1 entry.2) s.registers =
      .ok (s.putAll overrides).registers := by
  induction overrides generalizing s with
  | nil => rfl
  | cons entry rest ih =>
    have hhead : s.registers.write owner entry.1 entry.2 = .ok (s.put entry.1 entry.2).registers :=
      RegisterFile.write_eq_ok_iff.mpr ⟨h entry (by simp), rfl⟩
    rw [List.foldlM_cons, hhead]
    exact ih (s := s.put entry.1 entry.2) fun e he ↦ by
      rw [Storage.contains_put]
      exact h e (by simp [he])

/-- Initial words inside memory are all written. -/
theorem writeWords_eq_ok (words : List (Nat × Nat)) {s : Storage}
    (h : ∀ entry ∈ words, entry.1 < s.memory.size) :
    words.foldlM (fun memory entry => memory.write entry.1 entry.2) s.memory =
      .ok (s.putWords words).memory := by
  induction words generalizing s with
  | nil => rfl
  | cons entry rest ih =>
    have hhead : s.memory.write entry.1 entry.2 = .ok (s.putWord entry.1 entry.2).memory :=
      Memory.write_eq_ok_iff.mpr ⟨h entry (by simp), rfl⟩
    rw [List.foldlM_cons, hhead]
    exact ih (s := s.putWord entry.1 entry.2) fun e he ↦ by
      rw [Storage.size_putWord]
      exact h e (by simp [he])

/-- The overrides and words of a program on cleared storage. -/
def declared (program : Program) (p : Profile) : Storage :=
  ((Storage.zero p).putAll program.overrides).putWords program.words

/-- A program finds the same storage in any memory of the machine, whatever that held. -/
theorem WellFormed.initialStorage_eq (h : program.WellFormed p)
    (hp : (p.registers.map (·.1)).Nodup) {memory : Memory} (hsize : memory.size = p.memoryWords)
    (hbits : memory.wordBits = p.wordBits) :
    program.initialStorage p memory = .ok (program.declared p) := by
  have hzero : (Storage.zero p).Fits p := .zero hp
  have hregisters : program.overrides.foldlM
      (fun file entry => file.write p.architecture entry.1 entry.2) (RegisterFile.zero p) =
      .ok (program.declared p).registers := by
    rw [declared, Storage.registers_putWords]
    exact writeOverrides_eq_ok program.overrides (s := Storage.zero p) p.architecture
      fun entry he ↦ (hzero.contains_eq entry.1).trans (h.overrides entry he)
  have hmemory : program.words.foldlM (fun memory entry => memory.write entry.1 entry.2)
      (Memory.zero p.memoryWords p.wordBits) = .ok (program.declared p).memory := by
    have hsize : ((Storage.zero p).putAll program.overrides).memory.size = p.memoryWords :=
      (hzero.putAll _).size
    have hwords := writeWords_eq_ok program.words
      (s := (Storage.zero p).putAll program.overrides) fun entry he ↦ hsize ▸ h.words entry he
    rwa [Storage.memory_putAll] at hwords
  rw [initialStorage, hregisters, Memory.clear, hsize, hbits, hmemory]
  rfl

/-- What a program declares has the shape of the machine. -/
theorem declared_fits (hp : (p.registers.map (·.1)).Nodup) : (program.declared p).Fits p :=
  ((Storage.Fits.zero hp).putAll _).putWords _

/-- A cell that is only ever given one value starts with it. -/
theorem word_declared (hp : (p.registers.map (·.1)).Nodup) {address v : Nat}
    (hmem : (address, v) ∈ program.words)
    (honly : ∀ entry ∈ program.words, entry.1 = address → entry.2 = v)
    (hin : address < p.memoryWords) :
    (program.declared p).word address = Word.truncate p.wordBits v := by
  have hfits : ((Storage.zero p).putAll program.overrides).Fits p :=
    (Storage.Fits.zero hp).putAll _
  rw [declared, Storage.word_putWords_of_mem hmem honly (by rwa [hfits.size]), hfits.wordBits]

end

end Program

end FetchExecute
