import FetchExecute.Proofs.Block

/-!
# Programs refine their instructions

An assembled program says what it does twice: in its steps, and in the words of
memory that the steps fetch.  `Program.Realizes` says that the two are about the
same list of instructions, whatever else the program puts into memory and
registers.  Running it then gives what interpreting the instructions gives
(`realized_program_refines`).

The proof goes along the list of instructions (`Storage.Fits.follow_code`).  Its
invariant is `Storage.Holds`: the instructions that are still to come lie where
the counter will look for them.  An instruction that stores elsewhere keeps it.
-/

namespace FetchExecute

open Register

/-! ## Instructions in memory -/

/-- The words of these instructions lie side by side in memory, the first one at `base`. -/
def Storage.Holds (a : Architecture) (base : Nat) (code : List Instruction) (s : Storage) : Prop :=
  ∀ (k : Nat) (i : Instruction), code[k]? = some i →
    base + k < s.memory.size ∧ s.word (base + k) = i.word a

namespace Storage.Holds

variable {a : Architecture} {base : Nat} {i : Instruction} {rest : List Instruction} {s : Storage}

/-- The first instruction lies at the base. -/
theorem head (h : s.Holds a base (i :: rest)) : base < s.memory.size ∧ s.word base = i.word a :=
  h 0 i rfl

/-- The instructions to come stay in place when no word of theirs is written. -/
theorem tail {s' : Storage} (h : s.Holds a base (i :: rest))
    (hsize : s'.memory.size = s.memory.size)
    (hword : ∀ other, base < other → other ≤ base + rest.length → s'.word other = s.word other) :
    s'.Holds a (base + 1) rest := by
  intro k j hj
  obtain ⟨hin, hplaced⟩ := h (k + 1) j hj
  have hlt : k < rest.length := (List.getElem?_eq_some_iff.mp hj).1
  rw [show base + 1 + k = base + (k + 1) by omega, hsize, hword _ (by omega) (by omega)]
  exact ⟨hin, hplaced⟩

theorem of_append {first : List Instruction} (h : s.Holds a base (first ++ rest)) :
    s.Holds a base first := by
  intro k j hj
  have hlt : k < first.length := (List.getElem?_eq_some_iff.mp hj).1
  exact h k j (by rwa [List.getElem?_append_left hlt])

end Storage.Holds

/-- What an instruction needs in order to be carried out among `length` words from `base` on: an
address that fits its field, registers, and a cell apart from the code if it stores. -/
structure Instruction.Admissible (p : Profile) (base length : Nat) (i : Instruction) : Prop where
  address : i.address < 2 ^ 12
  quotient : i.operation.usesQuotient = true → p.hasRegister mq = true
  apart : i.operation.stores = true → i.address < base ∨ base + length ≤ i.address

/-- An instruction is admissible in a part of the code if it is in the whole. -/
theorem Instruction.Admissible.mono {p : Profile} {base base' length length' : Nat}
    {i : Instruction} (h : i.Admissible p base length) (hbase : base ≤ base')
    (hlength : base' + length' ≤ base + length) : i.Admissible p base' length' where
  address := h.address
  quotient := h.quotient
  apart := by
    intro hstores
    rcases h.apart hstores with hbelow | habove
    · exact .inl (Nat.lt_of_lt_of_le hbelow hbase)
    · exact .inr (Nat.le_trans hlength habove)

/-- Following the steps of instructions in memory is interpreting them. -/
theorem Storage.Fits.follow_code {p : Profile} (hp : p.Registered) {code : List Instruction} :
    ∀ {base : Nat} {s : Storage}, s.Fits p → s.value pc = base % 2 ^ 12 →
      s.Holds p.architecture base code → (∀ i ∈ code, i.Admissible p base code.length) →
      Processor.ofCourse (s.follow p (code.flatMap (·.steps p.architecture))) =
        Instruction.interpretAll p code (.ofStorage s) := by
  induction code with
  | nil => intros; rfl
  | cons i rest ih =>
    intro base s h hcounter hholds hcode
    obtain ⟨hin, hword⟩ := hholds.head
    rw [h.size] at hin
    have hi := hcode i (by simp)
    have hpc : s.value pc = base := by
      rw [hcounter, Nat.mod_eq_of_lt (Nat.lt_of_lt_of_le hin hp.memoryWords_le)]
    have hstep := h.follow_instruction hp (by rwa [hpc]) (by rwa [hpc]) hi.address hi.quotient
    rw [List.flatMap_cons, Instruction.interpretAll, ← hstep]
    rcases hfollow : s.follow p (i.steps p.architecture) with ⟨s', _ | fault⟩
    · rw [Storage.follow_append hfollow]
      have hs' : s'.Fits p := h.of_follow hfollow
      have hview : Processor.ofStorage s' = (i.interpret p (.ofStorage s)).1 := by
        rw [← hstep, hfollow]
        rfl
      have hnext : s'.value pc = (base + 1) % 2 ^ 12 := by
        have hcount : s'.value pc = (s.value pc + 1) % 2 ^ 12 :=
          (congrArg Processor.counter hview).trans (Operation.counter_execute p i.operation _ _)
        rw [hcount, hpc]
      -- if the instruction stores, then apart from the code that is still to come
      have hrest : s'.Holds p.architecture (base + 1) rest := by
        refine hholds.tail (hs'.size.trans h.size.symm) fun other hlt hle ↦ ?_
        refine (congrFun (congrArg Processor.cells hview) other).trans
          (Operation.cells_execute p i.operation _ _ fun hstores ↦ ?_)
        have hapart := hi.apart hstores
        rw [List.length_cons] at hapart
        omega
      refine ih hs' hnext hrest fun j hj ↦ (hcode j (by simp [hj])).mono (Nat.le_succ base) ?_
      rw [List.length_cons]
      omega
    · rw [Storage.follow_append_of_fault hfollow]
      rfl

/-! ## Programs and their instructions -/

/-- The program carries out `code` from `base` on: the counter starts there, the words of the
instructions lie there and nothing else does, and the steps are those of the instructions, after
showing the start if wanted.  Instructions that store leave the code alone. -/
structure Program.Realizes (p : Profile) (base : Nat) (code : List Instruction)
    (program : Program) : Prop where
  counter : ∃ before after, program.overrides = before ++ (pc, base) :: after ∧
    ∀ entry ∈ after, entry.1 ≠ pc
  placed : ∀ {k : Nat} {i : Instruction}, code[k]? = some i →
    (base + k, i.word p.architecture) ∈ program.words
  apart : ∀ {k : Nat} {i : Instruction}, code[k]? = some i →
    ∀ entry ∈ program.words, entry.1 = base + k → entry.2 = i.word p.architecture
  steps : ∃ observed : Bool, program.steps =
    (if observed then [Block.observeCounter] else []) ++ code.flatMap (·.steps p.architecture)
  address : ∀ i ∈ code, i.address < 2 ^ 12
  store : ∀ i ∈ code, i.operation.stores = true →
    i.address < base ∨ base + code.length ≤ i.address

/-- Instructions are placed one after another, from the base on. -/
theorem Instruction.mem_place_iff {a : Architecture} {code : List Instruction} {entry : Nat × Nat} :
    ∀ {base : Nat}, entry ∈ place a base code ↔
      ∃ k i, code[k]? = some i ∧ entry = (base + k, i.word a) := by
  induction code with
  | nil => simp [place]
  | cons first rest ih =>
    intro base
    rw [place, List.mem_cons, ih]
    constructor
    · rintro (rfl | ⟨k, i, hi, rfl⟩)
      · exact ⟨0, first, rfl, rfl⟩
      · exact ⟨k + 1, i, hi, by rw [Nat.add_assoc, Nat.add_comm 1]⟩
    · rintro ⟨k, i, hi, rfl⟩
      cases k with
      | zero =>
        obtain rfl : first = i := Option.some.inj hi
        exact .inl rfl
      | succ k => exact .inr ⟨k, i, hi, by rw [Nat.add_assoc, Nat.add_comm 1]⟩

/-- Assembling keeps its promise, if data and stores stay away from the code. -/
theorem Program.assemble_realizes {p : Profile} {name : String} {base : Nat} {observed : Bool}
    {code : List Instruction} {data : List (Nat × Nat)}
    (hdata : ∀ entry ∈ data, entry.1 < base ∨ base + code.length ≤ entry.1)
    (haddress : ∀ i ∈ code, i.address < 2 ^ 12)
    (hstore : ∀ i ∈ code, i.operation.stores = true →
      i.address < base ∨ base + code.length ≤ i.address) :
    (assemble p.architecture name base observed code data).Realizes p base code where
  counter := ⟨[], [], rfl, nofun⟩
  placed := fun hk ↦ List.mem_append_left _ (Instruction.mem_place_iff.mpr ⟨_, _, hk, rfl⟩)
  apart := by
    intro k i hk entry hentry heq
    have hlt : k < code.length := (List.getElem?_eq_some_iff.mp hk).1
    rcases List.mem_append.mp hentry with hplace | hmem
    · obtain ⟨k', i', hk', rfl⟩ := Instruction.mem_place_iff.mp hplace
      obtain rfl : k' = k := Nat.add_left_cancel heq
      obtain rfl : i' = i := Option.some.inj (hk'.symm.trans hk)
      rfl
    · have hapart := hdata entry hmem
      omega
  steps := ⟨observed, rfl⟩
  address := haddress
  store := hstore

/-- An operation that uses the quotient has a block that names its register. -/
theorem Operation.hasRegister_quotient {p : Profile} {op : Operation}
    (h : ∀ step ∈ op.block, ∀ r ∈ step.reads ++ step.writes, p.hasRegister r = true)
    (hquotient : op.usesQuotient = true) : p.hasRegister mq = true := by
  cases op with
  | multiply =>
    exact h (.execute (.combine .mul ac mbr ac (some mq))) (by simp [block, Block.multiply]) mq
      (by decide)
  | divide =>
    exact h (.execute (.combine .div ac mbr mq (some ac))) (by simp [block, Block.divide]) mq
      (by decide)
  | storeQuotient =>
    exact h (.execute (.copy mq mbr)) (by simp [block, Block.storeFrom]) mq (by decide)
  | _ => cases hquotient

namespace Program.Realizes

variable {p : Profile} {program : Program} {base : Nat} {code : List Instruction}
  (hr : program.Realizes p base code) (hp : p.Registered) (hwf : program.WellFormed p)
include hr hp hwf

omit hwf in
/-- At the start the counter stands at the base, cut to its twelve bits. -/
theorem counter_declared : (program.declared p).value pc = base % 2 ^ 12 := by
  obtain ⟨before, after, hoverrides, hafter⟩ := hr.counter
  have hzero : (Storage.zero p).Fits p := .zero hp.nodup
  have hvalue : (program.declared p).value pc =
      ((Storage.zero p).putAll program.overrides).value pc := by
    rw [Storage.value, Program.declared, Storage.registers_putWords]
    rfl
  rw [hvalue, hoverrides, Storage.value_putAll_append _ before base hafter,
    hzero.width_address hp rfl, Word.truncate_eq_mod Word.twelve_le_maxWidth]

/-- At the start the instructions lie in memory. -/
theorem holds_declared : (program.declared p).Holds p.architecture base code := by
  intro k i hk
  have hin : base + k < p.memoryWords := hwf.words _ (hr.placed hk)
  refine ⟨by rwa [(Program.declared_fits hp.nodup).size], ?_⟩
  rw [Program.word_declared hp.nodup (hr.placed hk) (hr.apart hk) hin,
    Word.truncate_of_lt_two_pow hp.wordBits_le (i.word_lt hp)]

omit hp in
theorem admissible {i : Instruction} (hi : i ∈ code) : i.Admissible p base code.length where
  address := hr.address i hi
  quotient := by
    refine Operation.hasRegister_quotient fun step hstep r hmem ↦ hwf.hasRegister ?_ hmem
    obtain ⟨observed, hsteps⟩ := hr.steps
    rw [hsteps]
    refine List.mem_append_right _ (List.mem_flatMap.mpr ⟨i, hi, ?_⟩)
    exact List.mem_append_right _ hstep
  apart := hr.store i hi

/-- The part of the run that carries out the first instructions. -/
theorem follow_first {first rest : List Instruction} (hcode : code = first ++ rest) :
    ∃ steps, program.steps = steps ++ rest.flatMap (·.steps p.architecture) ∧
      Processor.ofCourse ((program.declared p).follow p steps) =
        Instruction.interpretAll p first (.ofStorage (program.declared p)) := by
  subst hcode
  obtain ⟨observed, hsteps⟩ := hr.steps
  rw [List.flatMap_append, ← List.append_assoc] at hsteps
  refine ⟨_, hsteps, ?_⟩
  have hadmissible : ∀ i ∈ first, i.Admissible p base first.length := by
    intro i hi
    refine (hr.admissible hwf (List.mem_append_left rest hi)).mono (Nat.le_refl base) ?_
    rw [List.length_append]
    exact Nat.add_le_add_left (Nat.le_add_right _ _) base
  have hcourse := (Program.declared_fits hp.nodup).follow_code hp (hr.counter_declared hp)
    (hr.holds_declared hp hwf).of_append hadmissible
  cases observed with
  | false => exact hcourse
  | true =>
    -- showing the start changes nothing
    rw [if_pos rfl, List.cons_append, List.nil_append, Block.observeCounter, MicroStep.fetch,
      Storage.follow_observe]
    exact hcourse

end Program.Realizes

/-- Running a program that carries out instructions is interpreting them: after the steps of any
number of instructions, and when all is over, counter, accumulator, quotient, memory and fault are
those of the interpreter, which starts from what has been loaded. -/
theorem realized_program_refines {p : Profile} {program : Program} {base : Nat}
    {code : List Instruction} (hp : p.Registered) (hr : program.Realizes p base code)
    (hv : program.validate p = .ok ()) :
    ∃ m x, Machine.load p program = .ok m ∧ Processor.ofStorage m.storage = x ∧
      x.counter = base % 2 ^ 12 ∧
      (∀ first rest, code = first ++ rest → ∃ n,
        n + (rest.flatMap (·.steps p.architecture)).length = program.steps.length ∧
        (Processor.ofStorage (m.advances n).storage, (m.advances n).fault) =
          Instruction.interpretAll p first x ∧
        ((m.advances n).fault = none → (m.advances n).cursor = n)) ∧
      ∀ n, program.steps.length ≤ n →
        (Processor.ofStorage (m.advances n).storage, (m.advances n).fault) =
          Instruction.interpretAll p code x ∧
        (m.advances n).state =
          if (Instruction.interpretAll p code x).2 = none then .completed else .aborted := by
  have hwf : program.WellFormed p := Program.validate_eq_ok_iff.mp hv
  have hs : (Machine.fresh p program).Sound p program := Machine.fresh_sound hp
  have hu : (Machine.fresh p program).Unbroken := Machine.fresh_unbroken p program
  refine ⟨.fresh p program, .ofStorage (program.declared p),
    (Machine.load_eq_ok_iff hp).mpr ⟨hwf, rfl⟩, rfl, hr.counter_declared hp, ?_, ?_⟩
  · intro first rest hcode
    obtain ⟨steps, hsteps, hcourse⟩ := hr.follow_first hp hwf hcode
    have hf := hs.advances_follow hwf hu hsteps
    refine ⟨steps.length, by rw [hsteps, List.length_append], ?_, fun hnone ↦ ?_⟩
    · exact (congrArg Processor.ofCourse hf.course).trans hcourse
    · exact (hf.passed hnone).1.trans (Nat.zero_add _)
  · intro n hn
    obtain ⟨steps, hsteps, hcourse⟩ := hr.follow_first hp hwf (List.append_nil code).symm
    obtain rfl : program.steps = steps := hsteps.trans (List.append_nil steps)
    obtain ⟨hend, hstate⟩ := hs.advances_to_end hwf hu hn
    refine ⟨(congrArg Processor.ofCourse hend).trans hcourse, hstate.trans ?_⟩
    rw [← hcourse]
    rfl

theorem iasMultiplyDivide_refines :
    ∃ m, Machine.load (Profile.ias.withSplit .faithful) Catalog.iasMultiplyDivide = .ok m ∧
      (m.advances Catalog.iasMultiplyDivide.steps.length).state = .completed ∧
      (m.advances Catalog.iasMultiplyDivide.steps.length).storage.word 13 = 5 := by
  have hp : (Profile.ias.withSplit .faithful).Registered := ⟨.ias, .faithful, rfl⟩
  have hr : Catalog.iasMultiplyDivide.Realizes (Profile.ias.withSplit .faithful) 0
      [⟨.load, 10⟩, ⟨.multiply, 11⟩, ⟨.store, 12⟩, ⟨.load, 10⟩, ⟨.divide, 11⟩,
        ⟨.storeQuotient, 13⟩] :=
    Program.assemble_realizes (by decide) (by decide) (by decide)
  have hv : Catalog.iasMultiplyDivide.validate (Profile.ias.withSplit .faithful) = .ok () := rfl
  obtain ⟨m, x, hload, rfl, -, -, hend⟩ := realized_program_refines hp hr hv
  obtain ⟨-, rfl⟩ := (Machine.load_eq_ok_iff hp).mp hload
  obtain ⟨hresult, hstate⟩ := hend _ (Nat.le_refl _)
  refine ⟨_, hload, ?_, ?_⟩
  · rw [hstate]
    decide +kernel
  · have hview : Processor.ofStorage _ = _ := congrArg Prod.fst hresult
    rw [← Processor.cells_ofStorage, hview]
    decide +kernel

end FetchExecute
