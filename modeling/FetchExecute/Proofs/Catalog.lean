import FetchExecute.Proofs.Batch
import FetchExecute.Proofs.Refinement

/-!
# What the catalog computes

The programs of the catalog are shown on fixed numbers, but they compute for any.
`Program.withOperands` puts other words into the cells that a program starts
from; the program suits its machine as before
(`Program.WellFormed.withOperands`) and still carries out the same instructions
(`Program.Realizes.withOperands`).  So what it computes can be read off its
instructions: the interpreter is run on them once for each shape of program, and
`Program.Realizes.run_fresh` carries the result over to a session that is run to
its end.

Sums, differences, products and quotients are those of the operands as their
cells keep them, modulo the word size.  Division by zero is the one fault that
the catalog knows.
-/

namespace FetchExecute

open Register

/-! ## Other operands -/

namespace Program

/-- The program with other words in the cells that are listed, where it initialises them. -/
def withOperands (program : Program) (operands : List (Nat × Nat)) : Program :=
  { program with
    words := program.words.map fun entry ↦
      (entry.1, (operands.lookup entry.1).getD entry.2) }

variable {p : Profile} {program : Program} {operands : List (Nat × Nat)}

/-- Other operands in the same cells leave a program acceptable. -/
theorem WellFormed.withOperands (h : program.WellFormed p) :
    (program.withOperands operands).WellFormed p where
  words := by
    intro entry hentry
    obtain ⟨old, hold, rfl⟩ := List.mem_map.mp hentry
    exact h.words old hold
  overrides := h.overrides
  reads := h.reads
  writes := h.writes

/-- Words outside the code may change without a change to the code. -/
theorem Realizes.withOperands {base : Nat} {code : List Instruction}
    (h : program.Realizes p base code)
    (hoperands : ∀ entry ∈ operands, entry.1 < base ∨ base + code.length ≤ entry.1) :
    (program.withOperands operands).Realizes p base code := by
  have hcode {k : Nat} {i : Instruction} (hk : code[k]? = some i) :
      operands.lookup (base + k) = none := by
    have hlt : k < code.length := (List.getElem?_eq_some_iff.mp hk).1
    refine List.lookup_eq_none_iff.mpr fun entry hentry ↦ ?_
    have hapart := hoperands entry hentry
    simp only [bne_iff_ne, ne_eq]
    omega
  exact {
    counter := h.counter
    placed := by
      intro k i hk
      refine List.mem_map.mpr ⟨_, h.placed hk, ?_⟩
      rw [hcode hk]
      rfl
    apart := by
      intro k i hk entry hentry heq
      obtain ⟨old, hold, rfl⟩ := List.mem_map.mp hentry
      have hsame : old.1 = base + k := heq
      show (operands.lookup old.1).getD old.2 = i.word p.architecture
      rw [hsame, hcode hk]
      exact h.apart hk old hold hsame
    steps := h.steps
    address := h.address
    store := h.store }

theorem WellFormed.lt_of_mem_words (h : program.WellFormed p) {address : Nat}
    (hcell : address ∈ program.words.map (·.1)) : address < p.memoryWords := by
  obtain ⟨entry, hentry, rfl⟩ := List.mem_map.mp hcell
  exact h.words entry hentry

/-- A cell that the program initialises starts with the word that is given for it, or else with that
of the program, cut to its size. -/
theorem WellFormed.word_withOperands (h : program.WellFormed p) (hp : p.Registered)
    (operands : List (Nat × Nat)) (address : Nat) {v : Nat}
    (hcell : address ∈ program.words.map (·.1))
    (hv : ∀ entry ∈ program.words, entry.1 = address →
      (operands.lookup address).getD entry.2 = v) :
    ((program.withOperands operands).declared p).word address = v % 2 ^ p.wordBits := by
  obtain ⟨entry, hentry, rfl⟩ := List.mem_map.mp hcell
  rw [← Word.truncate_eq_mod hp.wordBits_le]
  refine word_declared hp.nodup ?_ ?_ (h.words entry hentry)
  · refine List.mem_map.mpr ⟨entry, hentry, ?_⟩
    rw [hv entry hentry rfl]
  · intro entry' hentry' heq
    obtain ⟨old, hold, rfl⟩ := List.mem_map.mp hentry'
    have hsame : old.1 = entry.1 := heq
    show (operands.lookup old.1).getD old.2 = v
    rw [hsame]
    exact hv old hold hsame

end Program

/-! ## Interpreting the instructions -/

/-- What an operation that only changes the accumulator leaves there. -/
def Operation.accumulated (p : Profile) (accumulator word : Nat) : Operation → Option Nat
  | .load => some word
  | .add => some ((accumulator + word) % 2 ^ p.wordBits)
  | .sub => some ((accumulator - word : Int) % (2 ^ p.wordBits : Nat)).toNat
  | _ => none

/-- What these operations make of the accumulator one after another. -/
def Instruction.accumulatedAll (p : Profile) (cells : Nat → Nat) (accumulator : Nat) :
    List Instruction → Option Nat
  | [] => some accumulator
  | i :: rest =>
    (i.operation.accumulated p accumulator (cells i.address)).bind
      fun next ↦ accumulatedAll p cells next rest

/-- The part of a product that the accumulator receives. -/
def SplitPolicy.productPart (policy : SplitPolicy) (bits product : Nat) : Nat :=
  match policy with
  | .simplified => product % 2 ^ bits
  | .faithful => product / 2 ^ bits

/-- What a division leaves in the accumulator. -/
def SplitPolicy.remainderPart (policy : SplitPolicy) (remainder : Nat) : Nat :=
  match policy with
  | .simplified => 0
  | .faithful => remainder

namespace Instruction

/-- Loads, sums and differences, and then a store: the cell that is stored to and the accumulator
hold the result. -/
theorem interpretAll_accumulate {p : Profile} {terms : List Instruction} {target : Nat}
    (htarget : target < p.memoryWords) (hterms : ∀ i ∈ terms, i.address < p.memoryWords)
    {x : Processor} {v : Nat}
    (hv : accumulatedAll p x.cells x.accumulator terms = some v) :
    ∃ y, interpretAll p (terms ++ [⟨.store, target⟩]) x = (y, none) ∧ y.accumulator = v ∧
      y.cells = (x.store target v).cells := by
  induction terms generalizing x with
  | nil =>
    obtain rfl := Option.some.inj hv
    simp [interpretAll, interpret, Operation.execute, Nat.not_le_of_lt htarget, Processor.countUp,
      Processor.store]
  | cons i rest ih =>
    obtain ⟨next, hnext, hrest⟩ := Option.bind_eq_some_iff.mp hv
    have hi := hterms i (by simp)
    have hstep : i.interpret p x = ({ x.countUp with accumulator := next }, none) := by
      obtain ⟨op, address⟩ := i
      cases op <;> simp_all [interpret, Operation.execute, Operation.accumulated, Processor.countUp]
    rw [List.cons_append, interpretAll, hstep]
    exact ih (fun j hj ↦ hterms j (by simp [hj])) hrest

/-- Multiplies two words and stores the product, and then divides the same words and stores the
quotient. -/
def multiplyDivide (left right product quotient : Nat) : List Instruction :=
  [⟨.load, left⟩, ⟨.multiply, right⟩, ⟨.store, product⟩,
   ⟨.load, left⟩, ⟨.divide, right⟩, ⟨.storeQuotient, quotient⟩]

section

variable {p : Profile} {left right product quotient : Nat} (hleft : left < p.memoryWords)
  (hright : right < p.memoryWords) (hproduct : product < p.memoryWords)
  (hkept : left ≠ product ∧ right ≠ product) (x : Processor)
include hleft hright hproduct hkept

/-- Unless the divisor is zero, product and quotient are stored, and the accumulator is left with
what the policy keeps of the remainder. -/
theorem interpretAll_multiplyDivide (hquotient : quotient < p.memoryWords)
    (hzero : x.cells right ≠ 0) :
    ∃ y, interpretAll p (multiplyDivide left right product quotient) x = (y, none) ∧
      y.accumulator = p.splitPolicy.remainderPart (x.cells left % x.cells right) ∧
      y.quotient = x.cells left / x.cells right ∧
      y.cells = ((x.store product
        (p.splitPolicy.productPart p.wordBits (x.cells left * x.cells right))).store quotient
          (x.cells left / x.cells right)).cells := by
  obtain ⟨hl, hr⟩ := hkept
  cases hpolicy : p.splitPolicy <;>
    simp [multiplyDivide, interpretAll, interpret, Operation.execute, Nat.not_le_of_lt, *,
      Processor.countUp, Processor.store, SplitPolicy.productPart, SplitPolicy.remainderPart]

/-- By zero, the product is still stored, and nothing after it. -/
theorem interpretAll_multiplyDivide_of_zero (hzero : x.cells right = 0) :
    ∃ y, interpretAll p (multiplyDivide left right product quotient) x =
        (y, some (.divisionByZero mbr)) ∧
      y.accumulator = x.cells left ∧ y.cells = (x.store product 0).cells := by
  obtain ⟨hl, hr⟩ := hkept
  cases hpolicy : p.splitPolicy <;>
    simp [multiplyDivide, interpretAll, interpret, Operation.execute, Nat.not_le_of_lt, *,
      Processor.countUp, Processor.store]

end

end Instruction

/-! ## Running a program that realizes instructions -/

/-- Storage has changed from `s` to `s'` in this way: these registers and cells hold these values,
and every other cell holds what it held. -/
structure Storage.Becomes (s s' : Storage) (registers : List (Register × Nat))
    (cells : List (Nat × Nat)) : Prop where
  register : ∀ entry ∈ registers, s'.registers.get? entry.1 = some entry.2
  cell : ∀ entry ∈ cells, s'.memory.get? entry.1 = some entry.2
  others : ∀ address, (∀ entry ∈ cells, entry.1 ≠ address) →
    s'.memory.get? address = s.memory.get? address

theorem Storage.Fits.get?_eq {p : Profile} {s : Storage} (h : s.Fits p) (address : Nat) :
    s.memory.get? address = if address < p.memoryWords then some (s.word address) else none := by
  split
  · exact memory_get?_of_lt (by rwa [h.size])
  · exact Memory.get?_eq_none_iff.mpr (by rw [h.size]; exact Nat.le_of_not_lt ‹_›)

/-- A storage of the profile becomes another one if the values named are there and no other word has
changed. -/
theorem Storage.Fits.becomes {p : Profile} {s s' : Storage} (h : s.Fits p) (h' : s'.Fits p)
    {registers : List (Register × Nat)} {cells : List (Nat × Nat)}
    (hregister : ∀ entry ∈ registers, p.hasRegister entry.1 = true ∧ s'.value entry.1 = entry.2)
    (hcell : ∀ entry ∈ cells, entry.1 < p.memoryWords ∧ s'.word entry.1 = entry.2)
    (hothers : ∀ address, (∀ entry ∈ cells, entry.1 ≠ address) → s'.word address = s.word address) :
    s.Becomes s' registers cells where
  register := by
    intro entry hentry
    obtain ⟨hpresent, hvalue⟩ := hregister entry hentry
    rw [get?_of_contains ((h'.contains_eq entry.1).trans hpresent), hvalue]
  cell := by
    intro entry hentry
    obtain ⟨hin, hword⟩ := hcell entry hentry
    rw [h'.get?_eq, if_pos hin, hword]
  others := by
    intro address hne
    rw [h'.get?_eq, h.get?_eq, hothers address hne]

/-- A session that is run on a program from the start ends with what the interpreter makes of the
instructions that the program realizes. -/
theorem Program.Realizes.run_fresh {p : Profile} {program : Program} {base : Nat}
    {code : List Instruction} (hr : program.Realizes p base code) (hp : p.Registered)
    (hwf : program.WellFormed p) (hpos : 0 < program.steps.length) {s : Session}
    (hs : s.machine = .fresh p program) {x : Processor} {fault : Option Fault}
    (hx : Instruction.interpretAll p code (.ofStorage (program.declared p)) = (x, fault)) :
    ∃ run, s.runToCompletion.result = .ok run ∧
      Session.Tells p program s s.runToCompletion.session run ∧
      s.runToCompletion.session.fault = fault ∧
      Processor.ofStorage s.runToCompletion.session.machine.storage = x ∧
      Machine.Reachable p program s.runToCompletion.session.machine := by
  have hreachable : Machine.Reachable p program s.machine := by
    rw [hs]
    exact .load ((Machine.load_eq_ok_iff hp).mpr ⟨hwf, rfl⟩)
  have hlive : s.state.isLive = true := by
    rw [Session.state, hs]
    exact (Machine.fresh_unbroken p program).live hpos
  obtain ⟨n, run, hbatch⟩ := Session.exists_runsStepwise hreachable hp hlive
  have hmachine : s.runToCompletion.session.machine =
      (Machine.fresh p program).advances program.steps.length := by
    rw [← hs]
    refine Session.machine_runToCompletion hreachable hp hlive ?_
    rw [(Session.consistent_of_reachable hreachable hp).total_eq]
    exact Nat.sub_le _ _
  obtain ⟨steps, hsteps, hcourse⟩ := hr.follow_first hp hwf (List.append_nil code).symm
  obtain rfl : program.steps = steps := hsteps.trans (List.append_nil steps)
  obtain ⟨hend, -⟩ := Machine.Sound.advances_to_end hwf (Machine.fresh_sound hp)
    (Machine.fresh_unbroken p program) (Nat.le_refl program.steps.length)
  have hview := (congrArg Processor.ofCourse hend).trans (hcourse.trans hx)
  rw [← hmachine] at hview
  refine ⟨run, hbatch.result, hbatch.tells, congrArg Prod.snd hview, congrArg Prod.fst hview, ?_⟩
  exact Session.reachable_call hp hreachable .run

/-! ## The programs -/

/-- Whether the operation computes a quotient. -/
def MicroOp.divides : MicroOp → Bool
  | .combine .div .. => true
  | _ => false

theorem MicroOp.Raises.divides {p : Profile} {s : Storage} {op : MicroOp} {r : Register}
    (h : op.Raises p s (.divisionByZero r)) : op.divides = true := by
  cases h with
  | divide => rfl

namespace Session.Tells

variable {p : Profile} {program : Program} {s s' : Session} {run : RunReport}

/-- A run from the start without a fault has taken all steps. -/
theorem eq_completed (h : Tells p program s s' run) (hstart : s.cursor = 0)
    (hfault : s'.fault = none) : run = ⟨program.steps.length, .completed⟩ := by
  obtain ⟨steps, ending⟩ := run
  cases ending with
  | completed =>
    have hsteps : s'.cursor = steps := by
      rw [h.steps, hstart, Nat.zero_add]
    rw [← hsteps, (h.completed_iff.mp rfl).2]
  | faulted fault =>
    obtain ⟨-, hsome, -⟩ := h.faulted_iff.mp rfl
    exact nomatch hfault.symm.trans hsome

/-- A run from the start with a fault has stopped at the step that raised it. -/
theorem eq_faulted (h : Tells p program s s' run) (hp : p.Registered)
    (hreachable : Machine.Reachable p program s'.machine) (hstart : s.cursor = 0) {fault : Fault}
    (hfault : s'.fault = some fault) : run = ⟨s'.cursor, .faulted fault⟩ := by
  obtain ⟨steps, ending⟩ := run
  have hsteps : s'.cursor = steps := by
    rw [h.steps, hstart, Nat.zero_add]
  cases ending with
  | completed =>
    have haborted := ((hreachable.lifecycle hp).fault hfault).1
    exact nomatch haborted.symm.trans (h.completed_iff.mp rfl).1
  | faulted raised =>
    obtain ⟨-, hsome, -⟩ := h.faulted_iff.mp rfl
    rw [hsteps, Option.some.inj (hfault.symm.trans hsome)]

end Session.Tells

namespace Catalog

/-- The program of this number suits its machine with these operands, and however a session on it is
configured, running it from the start ends with this report and changes storage in this way. -/
def Yields (p : Profile) (id : Nat) (operands : List (Nat × Nat)) (run : RunReport)
    (registers : List (Register × Nat)) (cells : List (Nat × Nat)) : Prop :=
  ∃ program, load p.architecture id = .ok program ∧
    (program.withOperands operands).validate p = .ok () ∧
    ∀ config, ∃ opened,
      Session.ofProgram p (program.withOperands operands) config = .ok opened ∧
      opened.runToCompletion.result = .ok run ∧
      Session.Tells p (program.withOperands operands) opened opened.runToCompletion.session run ∧
      opened.machine.storage.Becomes opened.runToCompletion.session.machine.storage registers cells

section

variable {p : Profile} (hp : p.Registered) {id base : Nat} {program : Program}
  {operands : List (Nat × Nat)} (hload : load p.architecture id = .ok program)
  (hv : program.validate p = .ok ()) (hpos : 0 < program.steps.length)
include hp hload hv hpos

/-- A program of the catalog that realizes instructions yields what their interpretation yields; the
rest is what the report and the storage say of that. -/
theorem yields_of_interpret {code : List Instruction} (hr : program.Realizes p base code)
    (hoperands : ∀ entry ∈ operands, entry.1 < base ∨ base + code.length ≤ entry.1)
    {x : Processor} {fault : Option Fault}
    (hx : Instruction.interpretAll p code
      (.ofStorage ((program.withOperands operands).declared p)) = (x, fault))
    {run : RunReport} {registers : List (Register × Nat)} {cells : List (Nat × Nat)}
    (hrun : ∀ {s s' : Session} {run' : RunReport}, s.cursor = 0 → s'.fault = fault →
      Machine.Reachable p (program.withOperands operands) s'.machine →
      Session.Tells p (program.withOperands operands) s s' run' → run' = run)
    (hbecomes : ∀ {s' : Storage}, s'.Fits p → Processor.ofStorage s' = x →
      ((program.withOperands operands).declared p).Becomes s' registers cells) :
    Yields p id operands run registers cells := by
  have hwf : (program.withOperands operands).WellFormed p :=
    (Program.validate_eq_ok_iff.mp hv).withOperands
  have hvalid := Program.validate_eq_ok_iff.mpr hwf
  refine ⟨program, hload, hvalid, fun config ↦ ?_⟩
  obtain ⟨run', hresult, htells, hfault, hview, hreachable⟩ :=
    (hr.withOperands hoperands).run_fresh hp hwf hpos
      (s := ⟨.fresh p (program.withOperands operands), config, false⟩) rfl hx
  obtain rfl : run' = run := hrun rfl hfault hreachable htells
  exact ⟨_, Session.ofProgram_of_validate hp hvalid config, hresult, htells,
    hbecomes (hreachable.sound hp).fits hview⟩

/-- A program that accumulates terms and stores the result runs to its end. -/
theorem yields_accumulate {terms : List Instruction} {target v : Nat}
    (hr : program.Realizes p base (terms ++ [⟨.store, target⟩]))
    (hoperands : ∀ entry ∈ operands, entry.1 < base ∨ base + terms.length + 1 ≤ entry.1)
    (hcells : ∀ i ∈ terms ++ [⟨.store, target⟩], i.address ∈ program.words.map (·.1))
    (hresult : Instruction.accumulatedAll p ((program.withOperands operands).declared p).word
      (((program.withOperands operands).declared p).value ac) terms = some v) :
    Yields p id operands ⟨program.steps.length, .completed⟩ [(ac, v)] [(target, v)] := by
  have hwf : program.WellFormed p := Program.validate_eq_ok_iff.mp hv
  have hterms : ∀ i ∈ terms, i.address < p.memoryWords := fun i hi ↦
    hwf.lt_of_mem_words (hcells i (List.mem_append_left _ hi))
  have htarget : target < p.memoryWords := hwf.lt_of_mem_words (hcells ⟨.store, target⟩ (by simp))
  obtain ⟨y, hy, hacc, hstored⟩ :=
    Instruction.interpretAll_accumulate htarget hterms
      (x := .ofStorage ((program.withOperands operands).declared p)) hresult
  refine yields_of_interpret hp hload hv hpos hr (by simpa [Nat.add_assoc] using hoperands) hy
    (fun hstart hfault _ htells ↦ htells.eq_completed hstart hfault) ?_
  rintro s' hfits rfl
  have hword (other : Nat) : s'.word other = if other = target then v else
      ((program.withOperands operands).declared p).word other := congrFun hstored other
  refine (Program.declared_fits hp.nodup).becomes hfits ?_ ?_ ?_
  · rintro _ (_ | ⟨_, ⟨⟩⟩)
    exact ⟨hp.hasRegister_accumulator, hacc⟩
  · rintro _ (_ | ⟨_, ⟨⟩⟩)
    exact ⟨htarget, (hword target).trans (if_pos rfl)⟩
  · intro other hne
    exact (hword other).trans (if_neg (hne _ (.head _)).symm)

section

variable {left right product quotient : Nat}
  (hr : program.Realizes p base (Instruction.multiplyDivide left right product quotient))
  (hoperands : ∀ entry ∈ operands, entry.1 < base ∨ base + 6 ≤ entry.1)
  (hcells : ∀ i ∈ Instruction.multiplyDivide left right product quotient,
    i.address ∈ program.words.map (·.1))
  (hkept : left ≠ product ∧ right ≠ product) (hne : product ≠ quotient)
include hr hoperands hcells hkept hne

omit hp hload hpos hr hoperands hkept hne in
theorem multiplyDivide_bounds : left < p.memoryWords ∧ right < p.memoryWords ∧
    product < p.memoryWords ∧ quotient < p.memoryWords := by
  have hin (i : Instruction) (hi : i ∈ Instruction.multiplyDivide left right product quotient) :
      i.address < p.memoryWords :=
    (Program.validate_eq_ok_iff.mp hv).lt_of_mem_words (hcells i hi)
  obtain ⟨hleft, hright, hproduct, -, -, hquotient⟩ :=
    by simpa [Instruction.multiplyDivide] using hin
  exact ⟨hleft, hright, hproduct, hquotient⟩

theorem yields_multiplyDivide (hmq : p.hasRegister mq = true) {l r : Nat}
    (hl : ((program.withOperands operands).declared p).word left = l)
    (hr' : ((program.withOperands operands).declared p).word right = r) (hzero : r ≠ 0) :
    Yields p id operands ⟨program.steps.length, .completed⟩
      [(mq, l / r), (ac, p.splitPolicy.remainderPart (l % r))]
      [(product, p.splitPolicy.productPart p.wordBits (l * r)), (quotient, l / r)] := by
  obtain ⟨hleft, hright, hproduct, hquotient⟩ := multiplyDivide_bounds hv hcells
  obtain ⟨y, hy, hacc, hquot, hstored⟩ :=
    Instruction.interpretAll_multiplyDivide hleft hright hproduct hkept
      (.ofStorage ((program.withOperands operands).declared p)) hquotient (by rwa [← hr'] at hzero)
  simp only [Processor.cells_ofStorage, hl, hr'] at hacc hquot hstored
  refine yields_of_interpret hp hload hv hpos hr hoperands hy
    (fun hstart hfault _ htells ↦ htells.eq_completed hstart hfault) ?_
  rintro s' hfits rfl
  have hword (other : Nat) : s'.word other = if other = quotient then l / r
      else if other = product then p.splitPolicy.productPart p.wordBits (l * r)
      else ((program.withOperands operands).declared p).word other := congrFun hstored other
  refine (Program.declared_fits hp.nodup).becomes hfits ?_ ?_ ?_
  · rintro _ (_ | ⟨_, _ | ⟨_, ⟨⟩⟩⟩)
    · exact ⟨hmq, hquot⟩
    · exact ⟨hp.hasRegister_accumulator, hacc⟩
  · rintro _ (_ | ⟨_, _ | ⟨_, ⟨⟩⟩⟩)
    · exact ⟨hproduct, by rw [hword, if_neg hne, if_pos rfl]⟩
    · exact ⟨hquotient, by rw [hword, if_pos rfl]⟩
  · intro other hother
    have hq : other ≠ quotient := (hother _ (.tail _ (.head _))).symm
    have hp' : other ≠ product := (hother _ (.head _)).symm
    rw [hword, if_neg hq, if_neg hp']

/-- By zero, the run stops at the division, which is at the place `k`. -/
theorem yields_multiplyDivide_of_zero {k l : Nat}
    (hk : ∀ i (h : i < program.steps.length), program.steps[i].op.divides = true → i = k)
    (hl : ((program.withOperands operands).declared p).word left = l)
    (hzero : ((program.withOperands operands).declared p).word right = 0)
    (hunused : ((program.withOperands operands).declared p).word quotient = 0) :
    Yields p id operands ⟨k, .faulted (.divisionByZero mbr)⟩ [(ac, l)]
      [(product, 0), (quotient, 0)] := by
  obtain ⟨hleft, hright, hproduct, hquotient⟩ := multiplyDivide_bounds hv hcells
  obtain ⟨y, hy, hacc, hstored⟩ :=
    Instruction.interpretAll_multiplyDivide_of_zero hleft hright hproduct hkept
      (.ofStorage ((program.withOperands operands).declared p)) hzero
  refine yields_of_interpret hp hload hv hpos hr hoperands hy ?_ ?_
  · intro s s' run hstart hfault hreachable htells
    obtain rfl := htells.eq_faulted hp hreachable hstart hfault
    obtain ⟨-, -, step, hstep, hraises⟩ := htells.faulted_iff.mp rfl
    obtain ⟨hlt, hget⟩ := List.getElem?_eq_some_iff.mp hstep
    rw [hk s'.cursor hlt (hget ▸ hraises.divides)]
  · rintro s' hfits rfl
    have hword (other : Nat) : s'.word other = if other = product then 0
        else ((program.withOperands operands).declared p).word other := congrFun hstored other
    refine (Program.declared_fits hp.nodup).becomes hfits ?_ ?_ ?_
    · rintro _ (_ | ⟨_, ⟨⟩⟩)
      exact ⟨hp.hasRegister_accumulator, hacc.trans hl⟩
    · rintro _ (_ | ⟨_, _ | ⟨_, ⟨⟩⟩⟩)
      · exact ⟨hproduct, by rw [hword, if_pos rfl]⟩
      · exact ⟨hquotient, by rw [hword, if_neg hne.symm, hunused]⟩
    · intro other hother
      have hp' : other ≠ product := (hother _ (.head _)).symm
      rw [hword, if_neg hp']

end

end

/-! ### Each program -/

section

variable (policy : SplitPolicy) (a b c : Nat)

/-- The sum of two words, kept in sixteen bits. -/
theorem hypotheticalSum_yields :
    Yields (Profile.hypothetical.withSplit policy) 0 [(0x200, a), (0x201, b)]
      ⟨26, .completed⟩ [(ac, (a + b) % 2 ^ 16)] [(0x202, (a + b) % 2 ^ 16)] := by
  have hp : (Profile.hypothetical.withSplit policy).Registered := ⟨.hypothetical, policy, rfl⟩
  have hr : hypotheticalSum.Realizes (Profile.hypothetical.withSplit policy) 0x100
      ([⟨.load, 0x200⟩, ⟨.add, 0x201⟩] ++ [⟨.store, 0x202⟩]) :=
    Program.assemble_realizes (by decide) (by decide) (by decide)
  have hv : hypotheticalSum.validate (Profile.hypothetical.withSplit policy) = .ok () := by
    cases policy <;> rfl
  refine yields_accumulate hp rfl hv (by decide) hr (by simp) (by decide) ?_
  have hword := (Program.validate_eq_ok_iff.mp hv).word_withOperands hp [(0x200, a), (0x201, b)]
  have ha := hword 0x200 (by decide) (fun _ _ _ ↦ rfl)
  have hb := hword 0x201 (by decide) (fun _ _ _ ↦ rfl)
  simp only [Instruction.accumulatedAll, Operation.accumulated, Option.bind, ha, hb]
  exact congrArg some (Nat.add_mod a b (2 ^ 16)).symm

/-- The difference of two words: below zero it wraps around. -/
theorem hypotheticalSubtraction_yields :
    Yields (Profile.hypothetical.withSplit policy) 1 [(0x210, a), (0x211, b)] ⟨26, .completed⟩
      [(ac, ((a - b : Int) % (2 ^ 16 : Nat)).toNat)]
      [(0x212, ((a - b : Int) % (2 ^ 16 : Nat)).toNat)] := by
  have hp : (Profile.hypothetical.withSplit policy).Registered := ⟨.hypothetical, policy, rfl⟩
  have hr : hypotheticalSubtraction.Realizes (Profile.hypothetical.withSplit policy) 0x110
      ([⟨.load, 0x210⟩, ⟨.sub, 0x211⟩] ++ [⟨.store, 0x212⟩]) :=
    Program.assemble_realizes (by decide) (by decide) (by decide)
  have hv : hypotheticalSubtraction.validate (Profile.hypothetical.withSplit policy) = .ok () := by
    cases policy <;> rfl
  refine yields_accumulate hp rfl hv (by decide) hr (by simp) (by decide) ?_
  have hword := (Program.validate_eq_ok_iff.mp hv).word_withOperands hp [(0x210, a), (0x211, b)]
  have ha := hword 0x210 (by decide) (fun _ _ _ ↦ rfl)
  have hb := hword 0x211 (by decide) (fun _ _ _ ↦ rfl)
  simp only [Instruction.accumulatedAll, Operation.accumulated, Option.bind, ha, hb]
  refine congrArg (fun difference : Int ↦ some difference.toNat) ?_
  rw [Int.natCast_emod, Int.natCast_emod]
  exact (Int.sub_emod a b (2 ^ 16 : Nat)).symm

theorem hypotheticalTripleSum_yields :
    Yields (Profile.hypothetical.withSplit policy) 2 [(0x220, a), (0x221, b), (0x222, c)]
      ⟨34, .completed⟩ [(ac, (a + b + c) % 2 ^ 16)] [(0x223, (a + b + c) % 2 ^ 16)] := by
  have hp : (Profile.hypothetical.withSplit policy).Registered := ⟨.hypothetical, policy, rfl⟩
  have hr : hypotheticalTripleSum.Realizes (Profile.hypothetical.withSplit policy) 0x120
      ([⟨.load, 0x220⟩, ⟨.add, 0x221⟩, ⟨.add, 0x222⟩] ++ [⟨.store, 0x223⟩]) :=
    Program.assemble_realizes (by decide) (by decide) (by decide)
  have hv : hypotheticalTripleSum.validate (Profile.hypothetical.withSplit policy) = .ok () := by
    cases policy <;> rfl
  refine yields_accumulate hp rfl hv (by decide) hr (by simp) (by decide) ?_
  have hword := (Program.validate_eq_ok_iff.mp hv).word_withOperands hp
    [(0x220, a), (0x221, b), (0x222, c)]
  have ha := hword 0x220 (by decide) (fun _ _ _ ↦ rfl)
  have hb := hword 0x221 (by decide) (fun _ _ _ ↦ rfl)
  have hc := hword 0x222 (by decide) (fun _ _ _ ↦ rfl)
  simp only [Instruction.accumulatedAll, Operation.accumulated, Option.bind, ha, hb, hc]
  rw [← Nat.add_mod a b]
  exact congrArg some (Nat.add_mod (a + b) c (2 ^ 16)).symm

theorem iasSum_yields :
    Yields (Profile.ias.withSplit policy) 0 [(10, a), (11, b)] ⟨29, .completed⟩
      [(ac, (a + b) % 2 ^ 40)] [(12, (a + b) % 2 ^ 40)] := by
  have hp : (Profile.ias.withSplit policy).Registered := ⟨.ias, policy, rfl⟩
  have hr : iasSum.Realizes (Profile.ias.withSplit policy) 0
      ([⟨.load, 10⟩, ⟨.add, 11⟩] ++ [⟨.store, 12⟩]) :=
    Program.assemble_realizes (by decide) (by decide) (by decide)
  have hv : iasSum.validate (Profile.ias.withSplit policy) = .ok () := by
    cases policy <;> rfl
  refine yields_accumulate hp rfl hv (by decide) hr (by simp) (by decide) ?_
  have hword := (Program.validate_eq_ok_iff.mp hv).word_withOperands hp [(10, a), (11, b)]
  have ha := hword 10 (by decide) (fun _ _ _ ↦ rfl)
  have hb := hword 11 (by decide) (fun _ _ _ ↦ rfl)
  simp only [Instruction.accumulatedAll, Operation.accumulated, Option.bind, ha, hb]
  exact congrArg some (Nat.add_mod a b (2 ^ 40)).symm

theorem iasMultiplyDivide_realizes :
    iasMultiplyDivide.Realizes (Profile.ias.withSplit policy) 0
      (Instruction.multiplyDivide 10 11 12 13) :=
  Program.assemble_realizes (by decide) (by decide) (by decide)

theorem iasMultiplyDivide_validate :
    iasMultiplyDivide.validate (Profile.ias.withSplit policy) = .ok () := by
  cases policy <;> rfl

theorem iasMultiplyDivide_words {v address : Nat}
    (hcell : address ∈ iasMultiplyDivide.words.map (·.1))
    (hv : ∀ entry ∈ iasMultiplyDivide.words, entry.1 = address →
      ([(10, a), (11, b)].lookup address).getD entry.2 = v) :
    ((iasMultiplyDivide.withOperands [(10, a), (11, b)]).declared
      (Profile.ias.withSplit policy)).word address = v % 2 ^ 40 :=
  (Program.validate_eq_ok_iff.mp (iasMultiplyDivide_validate policy)).word_withOperands
    ⟨.ias, policy, rfl⟩ _ address hcell hv

/-- Product and quotient of two words, where the policy decides what the accumulator is left with.
-/
theorem iasMultiplyDivide_yields (hb : b % 2 ^ 40 ≠ 0) :
    Yields (Profile.ias.withSplit policy) 1 [(10, a), (11, b)] ⟨57, .completed⟩
      [(mq, a % 2 ^ 40 / (b % 2 ^ 40)), (ac, policy.remainderPart (a % 2 ^ 40 % (b % 2 ^ 40)))]
      [(12, policy.productPart 40 (a % 2 ^ 40 * (b % 2 ^ 40))),
        (13, a % 2 ^ 40 / (b % 2 ^ 40))] := by
  have hp : (Profile.ias.withSplit policy).Registered := ⟨.ias, policy, rfl⟩
  have hleft := iasMultiplyDivide_words policy a b (by decide) fun _ _ (_ : _ = 10) ↦ rfl
  have hright := iasMultiplyDivide_words policy a b (by decide) fun _ _ (_ : _ = 11) ↦ rfl
  exact yields_multiplyDivide hp rfl (iasMultiplyDivide_validate policy) (by decide)
    (iasMultiplyDivide_realizes policy) (by simp) (by decide) (by decide) (by decide) rfl hleft
    hright hb

/-- With a divisor of zero the program stops at the division: the product has been stored, which is
zero, but no quotient. -/
theorem iasMultiplyDivide_yields_of_zero (hb : b % 2 ^ 40 = 0) :
    Yields (Profile.ias.withSplit policy) 1 [(10, a), (11, b)]
      ⟨47, .faulted (.divisionByZero mbr)⟩ [(ac, a % 2 ^ 40)] [(12, 0), (13, 0)] := by
  have hp : (Profile.ias.withSplit policy).Registered := ⟨.ias, policy, rfl⟩
  have hleft := iasMultiplyDivide_words policy a b (by decide) fun _ _ (_ : _ = 10) ↦ rfl
  have hright := iasMultiplyDivide_words policy a b (by decide) fun _ _ (_ : _ = 11) ↦ rfl
  have hunused := iasMultiplyDivide_words policy a b (by decide)
    (show ∀ entry ∈ iasMultiplyDivide.words, entry.1 = 13 → entry.2 = 0 by decide)
  exact yields_multiplyDivide_of_zero hp rfl (iasMultiplyDivide_validate policy) (by decide)
    (iasMultiplyDivide_realizes policy) (by simp) (by decide) (by decide) (by decide)
    (by decide +kernel) hleft (hright.trans hb) hunused

end

/-! ### On their own operands -/

/-- A program that yields a result on the operands it comes with suits its machine and can be run to
its end. -/
theorem Yields.completes {p : Profile} {id steps : Nat} {operands : List (Nat × Nat)}
    {registers : List (Register × Nat)} {cells : List (Nat × Nat)} {program : Program}
    (h : Yields p id operands ⟨steps, .completed⟩ registers cells) (hp : p.Registered)
    (hload : load p.architecture id = .ok program)
    (hown : program.withOperands operands = program) :
    program.validate p = .ok () ∧
      ∃ m, Machine.Reachable p program m ∧ m.state = .completed := by
  obtain ⟨program', hload', hv, hrun⟩ := h
  obtain rfl : program = program' := Except.ok.inj (hload.symm.trans hload')
  obtain ⟨opened, hopen, -, htells, -⟩ := hrun {}
  rw [hown] at hv hopen htells
  have hreachable : Machine.Reachable p program opened.machine := by
    obtain rfl := Except.ok.inj ((Session.ofProgram_of_validate hp hv {}).symm.trans hopen)
    exact .load (Machine.load_of_validate hp hv)
  exact ⟨hv, _, Session.reachable_call hp hreachable .run, (htells.completed_iff.mp rfl).1⟩

/-- Every program of the catalog is accepted, and some run of it completes. -/
theorem completes_of_load {a : Architecture} {id : Nat} {program : Program}
    (h : load a id = .ok program) :
    program.validate (.ofArchitecture a) = .ok () ∧
      ∃ m, Machine.Reachable (.ofArchitecture a) program m ∧ m.state = .completed := by
  have hp := Profile.registered_ofArchitecture a
  cases a with
  | hypothetical =>
    match id, h with
    | 0, rfl => exact (hypotheticalSum_yields .simplified 5 10).completes hp rfl rfl
    | 1, rfl => exact (hypotheticalSubtraction_yields .simplified 20 8).completes hp rfl rfl
    | 2, rfl => exact (hypotheticalTripleSum_yields .simplified 4 7 9).completes hp rfl rfl
  | ias =>
    match id, h with
    | 0, rfl => exact (iasSum_yields .simplified 5 10).completes hp rfl rfl
    | 1, rfl =>
      exact (iasMultiplyDivide_yields .simplified 20 4 (by decide)).completes hp rfl rfl

theorem steps_pos_of_load {a : Architecture} {id : Nat} {program : Program}
    (h : load a id = .ok program) : 0 < program.steps.length := by
  cases a with
  | hypothetical =>
    match id, h with
    | 0, rfl | 1, rfl | 2, rfl => exact Nat.zero_lt_succ _
  | ias =>
    match id, h with
    | 0, rfl | 1, rfl => exact Nat.zero_lt_succ _

end Catalog

open Catalog in
/-- The programs of either machine compute with any operands what they compute with their own,
modulo the word size; a quotient and a remainder are those of the operands modulo the word size.  A
division by zero ends the run before its step, when the product has been stored. -/
theorem catalog_programs_compute (policy : SplitPolicy) (a b c : Nat) :
    ((programs .hypothetical).length = 3 ∧ (programs .ias).length = 2) ∧
    Yields (Profile.hypothetical.withSplit policy) 0 [(0x200, a), (0x201, b)] ⟨26, .completed⟩
      [(ac, (a + b) % 2 ^ 16)] [(0x202, (a + b) % 2 ^ 16)] ∧
    Yields (Profile.hypothetical.withSplit policy) 1 [(0x210, a), (0x211, b)] ⟨26, .completed⟩
      [(ac, ((a - b : Int) % (2 ^ 16 : Nat)).toNat)]
      [(0x212, ((a - b : Int) % (2 ^ 16 : Nat)).toNat)] ∧
    Yields (Profile.hypothetical.withSplit policy) 2 [(0x220, a), (0x221, b), (0x222, c)]
      ⟨34, .completed⟩ [(ac, (a + b + c) % 2 ^ 16)] [(0x223, (a + b + c) % 2 ^ 16)] ∧
    Yields (Profile.ias.withSplit policy) 0 [(10, a), (11, b)] ⟨29, .completed⟩
      [(ac, (a + b) % 2 ^ 40)] [(12, (a + b) % 2 ^ 40)] ∧
    (b % 2 ^ 40 ≠ 0 →
      Yields (Profile.ias.withSplit .simplified) 1 [(10, a), (11, b)] ⟨57, .completed⟩
        [(mq, a % 2 ^ 40 / (b % 2 ^ 40)), (ac, 0)]
        [(12, a % 2 ^ 40 * (b % 2 ^ 40) % 2 ^ 40), (13, a % 2 ^ 40 / (b % 2 ^ 40))] ∧
      Yields (Profile.ias.withSplit .faithful) 1 [(10, a), (11, b)] ⟨57, .completed⟩
        [(mq, a % 2 ^ 40 / (b % 2 ^ 40)), (ac, a % 2 ^ 40 % (b % 2 ^ 40))]
        [(12, a % 2 ^ 40 * (b % 2 ^ 40) / 2 ^ 40), (13, a % 2 ^ 40 / (b % 2 ^ 40))]) ∧
    (b % 2 ^ 40 = 0 →
      Yields (Profile.ias.withSplit policy) 1 [(10, a), (11, b)]
        ⟨47, .faulted (.divisionByZero mbr)⟩ [(ac, a % 2 ^ 40)] [(12, 0), (13, 0)]) :=
  ⟨⟨rfl, rfl⟩, hypotheticalSum_yields policy a b, hypotheticalSubtraction_yields policy a b,
    hypotheticalTripleSum_yields policy a b c, iasSum_yields policy a b,
    fun hb ↦ ⟨iasMultiplyDivide_yields .simplified a b hb,
      iasMultiplyDivide_yields .faithful a b hb⟩,
    iasMultiplyDivide_yields_of_zero policy a b⟩

open Catalog in
/-- Both ends of a division: by a number whose low part is three, and by one whose low part is
zero. -/
theorem catalog_divides_wide_operands :
    Yields (Profile.ias.withSplit .faithful) 1 [(10, 20), (11, 2 ^ 40 + 3)] ⟨57, .completed⟩
      [(mq, 6), (ac, 2)] [(12, 0), (13, 6)] ∧
    Yields Profile.ias 1 [(10, 20), (11, 2 ^ 40)] ⟨47, .faulted (.divisionByZero mbr)⟩
      [(ac, 20)] [(12, 0), (13, 0)] := by
  obtain ⟨-, -, -, -, -, hdivides, -⟩ := catalog_programs_compute .faithful 20 (2 ^ 40 + 3) 0
  obtain ⟨-, -, -, -, -, -, hstops⟩ := catalog_programs_compute .simplified 20 (2 ^ 40) 0
  exact ⟨(hdivides (by decide)).2, hstops (by decide)⟩

end FetchExecute
