import FetchExecute.Proofs.Commit
import FetchExecute.Proofs.Substitution

/-!
# What a program starts with

The overrides and the words of a program are written one after the other onto
cleared storage, and each write cuts its value to the place.  All writes together are
one assignment, in which the last entry of each register and of each cell counts
(`Program.declared_eq_assign`).

What is declared for different places can therefore be declared in any order.  A
program whose entries are rearranged, those of each place in the order they had,
stands in for the other one (`Program.Rearranges.standsIn`): loading and resetting
give the same machine, and no call tells the two apart (`loading_is_last_wins`).
-/

namespace FetchExecute

open Assignment

/-! ## Entries that trade places -/

section

variable {α : Type} [DecidableEq α]

/-- The same entries in another order, in which those of each place keep theirs. -/
structure Rearranged (entries entries' : List (α × Nat)) : Prop where
  perm : entries.Perm entries'
  filter_eq : ∀ place, entries.filter (fun entry => entry.1 = place) =
    entries'.filter fun entry => entry.1 = place

/-- Neighbours with different places may be exchanged. -/
theorem Rearranged.swap {entry entry' : α × Nat} (h : entry.1 ≠ entry'.1)
    (rest : List (α × Nat)) :
    Rearranged (entry :: entry' :: rest) (entry' :: entry :: rest) where
  perm := .swap _ _ _
  filter_eq := by
    intro place
    by_cases heq : entry.1 = place
    · have hne : entry'.1 ≠ place := fun heq' ↦ h (heq.trans heq'.symm)
      simp [heq, hne]
    · simp [List.filter_cons, heq]

/-- In a rearranged list, each place has the same last value. -/
theorem Rearranged.lastValue?_eq {entries entries' : List (α × Nat)}
    (h : Rearranged entries entries') (place : α) :
    lastValue? place entries' = lastValue? place entries := by
  rw [lastValue?, lastValue?, h.filter_eq]

end

/-! ## What a program declares -/

namespace Program

variable {p : Profile} {program program' : Program}

/-- What a program declares is the cleared storage with the last value for each register and each
cell. -/
theorem declared_eq_assign (hp : (p.registers.map (·.1)).Nodup) (program : Program) :
    program.declared p = (Storage.zero p).assign {
      register := fun r =>
        (lastValue? r program.overrides).map (Word.truncate ((Storage.zero p).width r))
      word := fun address =>
        (lastValue? address program.words).map (Word.truncate p.wordBits) } := by
  rw [declared, Storage.putWords_eq_assign, Storage.memory_putAll,
    Storage.putAll_eq_assign (Storage.Fits.zero hp).nodup]
  simp only [Storage.assign, RegisterFile.assign_none, Memory.assign_none]
  rfl

/-- A register starts with the last value that is declared for it, as far as it holds it. -/
theorem get?_register_declared (hp : p.Registered) (program : Program) {r : Register} {width : Nat}
    (h : p.width? r = some width) :
    (program.declared p).registers.get? r =
      some ((lastValue? r program.overrides).getD 0 % 2 ^ width) := by
  obtain ⟨declared, hfind, rfl⟩ := Option.map_eq_some_iff.mp h
  have hwidth : (Storage.zero p).width r = declared.2 := by
    rw [(Storage.Fits.zero hp.nodup).width_eq, h, Option.getD_some]
  have hle : declared.2 ≤ Word.maxWidth := hp.width_le declared (List.mem_of_find?_eq_some hfind)
  rw [declared_eq_assign hp.nodup, Storage.assign, RegisterFile.get?_assign,
    show (Storage.zero p).registers.get? r = some 0 from RegisterFile.get?_zero h]
  show some ((Option.map (Word.truncate ((Storage.zero p).width r)) _).getD 0) = _
  rw [hwidth, Word.getD_map_truncate hle]

/-- A cell starts with the last word that is declared for it, as far as it holds it. -/
theorem get?_word_declared (hp : p.Registered) (program : Program) {address : Nat}
    (h : address < p.memoryWords) :
    (program.declared p).memory.get? address =
      some ((lastValue? address program.words).getD 0 % 2 ^ p.wordBits) := by
  rw [declared_eq_assign hp.nodup, Storage.assign, Memory.get?_assign,
    show (Storage.zero p).memory.get? address = some 0 from Memory.get?_zero h]
  exact congrArg some (Word.getD_map_truncate hp.wordBits_le _)

/-- The other program declares the same for each place, if perhaps in another order of places. -/
structure Rearranges (program program' : Program) : Prop where
  name : program'.name = program.name
  steps : program'.steps = program.steps
  overrides : Rearranged program.overrides program'.overrides
  words : Rearranged program.words program'.words

namespace Rearranges

variable (h : program.Rearranges program')
include h

theorem wellFormed (hwf : program.WellFormed p) : program'.WellFormed p where
  words := fun entry he ↦ hwf.words entry (h.words.perm.mem_iff.mpr he)
  overrides := fun entry he ↦ hwf.overrides entry (h.overrides.perm.mem_iff.mpr he)
  reads := by
    intro i step hstep r hr
    rw [h.steps] at hstep
    obtain ⟨hpresent, hpopulated⟩ := hwf.reads hstep r hr
    refine ⟨hpresent, ?_⟩
    rw [populated, h.steps]
    refine (List.Perm.mem_iff ?_).mp hpopulated
    exact (h.overrides.perm.map _).append_right _
  writes := by
    intro i step hstep
    rw [h.steps] at hstep
    exact hwf.writes hstep

/-- The program with rearranged lists stands in for the other one. -/
theorem standsIn (hp : p.Registered) (hwf : program.WellFormed p) :
    program.StandsIn p id program' where
  interchangeable := MicroStep.Interchangeable.refl
  name := h.name
  steps := h.steps.trans (List.map_id _).symm
  declared := by
    simp only [declared_eq_assign hp.nodup, h.overrides.lastValue?_eq, h.words.lastValue?_eq]
  wellFormed := h.wellFormed hwf

end Rearranges

end Program

/-! ## Loading -/

/-- The machine is at the start of the program, and each place has what the last of its entries
gives it, or else zero. -/
structure Machine.Starts (p : Profile) (program : Program) (m : Machine) : Prop where
  profile_eq : m.profile = p
  program_eq : m.program = program
  registers : m.storage.registers.layout = p.registers
  register : ∀ {r : Register} {width : Nat}, p.width? r = some width →
    m.storage.registers.get? r = some ((lastValue? r program.overrides).getD 0 % 2 ^ width)
  size : m.storage.memory.size = p.memoryWords
  word : ∀ {address : Nat}, address < p.memoryWords →
    m.storage.memory.get? address =
      some ((lastValue? address program.words).getD 0 % 2 ^ p.wordBits)
  control : m.control = .idle
  cursor : m.cursor = 0
  state : m.state = .initial program.steps.length
  fault : m.fault = none

theorem Machine.starts_fresh {p : Profile} (hp : p.Registered) (program : Program) :
    (fresh p program).Starts p program where
  profile_eq := rfl
  program_eq := rfl
  registers := (Program.declared_fits hp.nodup).layout
  register := Program.get?_register_declared hp program
  size := (Program.declared_fits hp.nodup).size
  word := Program.get?_word_declared hp program
  control := rfl
  cursor := rfl
  state := rfl
  fault := rfl

/-- The one session is the other one but for its program, and answers and traces the same. -/
structure Session.Mirrors (program : Program) (s s' : Session) : Prop where
  session : s' = s.running program
  statusLine : s'.statusLine = s.statusLine
  record : s'.machine.advance.2 = s.machine.advance.2
  reply : ∀ c, s'.reply c = s.reply c
  events : ∀ c, (s'.call c).2 = (s.call c).2

section

variable {p : Profile} {program program' : Program} (h : program.StandsIn p id program')
  (hp : p.Registered)
include h hp

theorem Session.mirrors_running {s : Session} (hr : Machine.Reachable p program s.machine) :
    s.Mirrors program' (s.running program') where
  session := rfl
  statusLine := statusLine_running h (hr.sound hp).program_eq
  record := by
    have hadvance := congrArg Prod.snd (Machine.advance_running h (hr.sound hp).program_eq)
    rwa [StepRecord.rewrite_id, Except.map_id] at hadvance
  reply := fun c ↦ (call_running h hp hr c).2
  events := by
    intro c
    have hcall := congrArg Prod.snd (call_running h hp hr c).1
    rwa [Event.rewrite_id, List.map_id] at hcall

/-- Sessions that mirror each other do so after any calls. -/
theorem Session.mirrors_after {s : Session} (hr : Machine.Reachable p program s.machine)
    (calls : List Call) :
    (s.after calls).Mirrors program' ((s.running program').after calls) := by
  rw [after_running h hp hr]
  exact mirrors_running h hp (reachable_after hp hr calls)

end

/-- Loading gives each register and each cell what is declared for it last, and resetting gives the
same machine at any time.  An accepted program stays accepted if entries for different places trade
places; it is loaded into the same machine, and calls answer the same on both. -/
theorem loading_is_last_wins {p : Profile} (hp : p.Registered) {program : Program}
    (hv : program.validate p = .ok ()) :
    ∃ m, Machine.load p program = .ok m ∧ m.Starts p program ∧
      (∀ {m'}, Machine.Reachable p program m' → m'.reset = (m, .ok ())) ∧
      ∀ {program'}, program.Rearranges program' →
        Machine.load p program' = .ok (m.running program') ∧
        ∀ config hasSink calls,
          ((⟨m, config, hasSink⟩ : Session).after calls).Mirrors program'
            ((⟨m.running program', config, hasSink⟩ : Session).after calls) := by
  have hwf := Program.validate_eq_ok_iff.mp hv
  have hload := Machine.load_of_validate hp hv
  refine ⟨.fresh p program, hload, Machine.starts_fresh hp program, ?_, ?_⟩
  · intro m' hr
    exact (hr.sound hp).reset_eq hwf hp
  · intro program' h
    have hstands := h.standsIn hp hwf
    refine ⟨?_, ?_⟩
    · rw [Machine.running_fresh hstands]
      exact (Machine.load_eq_ok_iff hp).mpr ⟨hstands.wellFormed, rfl⟩
    · intro config hasSink calls
      exact Session.mirrors_after hstands hp (s := ⟨.fresh p program, config, hasSink⟩)
        (.load hload) calls

/-- Declares one register and one cell twice, at the end with more than they hold. -/
def Program.declaredTwice : Program where
  name := "Declared twice"
  words := [(12, 1), (13, 4), (12, 2 ^ 40 + 9)]
  overrides := [(.ac, 5), (.mq, 3), (.ac, 2 ^ 40 + 7)]
  steps := [.execute (.copy .ac .mbr)]

def Program.declaredTwiceRearranged : Program :=
  { declaredTwice with
    words := [(13, 4), (12, 1), (12, 2 ^ 40 + 9)]
    overrides := [(.mq, 3), (.ac, 5), (.ac, 2 ^ 40 + 7)] }

theorem loading_of_declaredTwice :
    ∃ m, Machine.load .ias .declaredTwice = .ok m ∧
      m.storage.registers.get? .ac = some 7 ∧ m.storage.memory.get? 12 = some 9 ∧
      m.advance.1.reset = (m, .ok ()) ∧
      Machine.load .ias .declaredTwiceRearranged = .ok (m.running .declaredTwiceRearranged) ∧
      ((⟨m, {}, true⟩ : Session).after [.run]).Mirrors .declaredTwiceRearranged
        ((⟨m.running .declaredTwiceRearranged, {}, true⟩ : Session).after [.run]) := by
  have hp : Profile.ias.Registered := ⟨.ias, .simplified, rfl⟩
  have h : Program.declaredTwice.Rearranges .declaredTwiceRearranged :=
    ⟨rfl, rfl, .swap (by decide) _, .swap (by decide) _⟩
  have hv : Program.declaredTwice.validate .ias = .ok () := rfl
  have hwidth : Profile.ias.width? .ac = some 40 := rfl
  have hcell : 12 < Profile.ias.memoryWords := by decide
  obtain ⟨m, hload, hstarts, hreset, hrearranged⟩ := loading_is_last_wins hp hv
  obtain ⟨hload', hmirrors⟩ := hrearranged h
  exact ⟨m, hload, hstarts.register hwidth, hstarts.word hcell, hreset (.advance (.load hload)),
    hload', hmirrors {} true _⟩

end FetchExecute
