import FetchExecute.Console.Application
import FetchExecute.Proofs.Prompt
import FetchExecute.Proofs.Stepping
import Mathlib.Logic.ExistsUnique

/-!
# The exit code

The process is a chain of dialogues: a menu of machines, a menu of programs, and
the step loop.  Each is a part of the whole (`Console.programMenu_embeds` and its
like), so what comes of the process is what comes of its parts one after another.

`Console.Succeeds` says when the process does what it is asked, in terms of what
the arguments mean, which lines of input the menus accept, and which of them the step
loop reads.  The exit code is zero in this case and one in any other
(`exit_code_of_run`); the code for a simulated program that fails is never seen,
because no program of the catalog does.
-/

namespace FetchExecute

namespace Console

/-! ## What the process is asked -/

/-- Flags or menus settle on this program of the catalog, and leave these lines unread. -/
inductive Selects (o : Options) (lines : List Line) : Architecture → Nat → List Line → Prop
  | flags {a : Architecture} {id : Nat} : o.architecture = some a → o.program = some id →
      id < (Catalog.programs a).length → Selects o lines a id lines
  | programMenu {a : Architecture} {id n : Nat} {rest : List Line} : o.architecture = some a →
      o.program = none → (programQuestion a).Accepts n lines id rest → Selects o lines a id rest
  | menus {a : Architecture} {id m n : Nat} {between rest : List Line} : o.architecture = none →
      machineQuestion.Accepts m lines a between → (programQuestion a).Accepts n between id rest →
      Selects o lines a id rest

/-- The program opens, and all that the step loop reads of these lines is text. -/
def StepsThrough (auto : Bool) (a : Architecture) (id : Nat) (lines : List Line) : Prop :=
  ∃ s read, Session.ofCatalog a id = .ok s ∧ lines = read ++ (drive auto s lines).unread ∧
    Line.garbled ∉ read

/-- The process does what these arguments ask for, given these lines of input. -/
inductive Succeeds (args : List String) (lines : List Line) : Prop
  | help : Request.parse args = .ok .help → Succeeds args lines
  | list {o : Options} : Request.parse args = .ok (.run o) → o.list = true → Succeeds args lines
  | stepped {o : Options} {a : Architecture} {id : Nat} {rest : List Line} :
      Request.parse args = .ok (.run o) → o.list = false → Selects o lines a id rest →
      StepsThrough o.auto a id rest → Succeeds args lines

/-! ## The parts of the process -/

/-- The exit code tells whether this is the case: zero if so, and one if not. -/
def Exit.Judges (e : Exit) (P : Prop) : Prop := e.code = 0 ∧ P ∨ e.code = 1 ∧ ¬ P

/-- An exit code that judges one statement judges any other that comes to the same. -/
theorem Exit.Judges.congr {e : Exit} {P Q : Prop} (h : e.Judges P) (hiff : P ↔ Q) :
    e.Judges Q := by
  rwa [Exit.Judges, ← hiff]

/-- The process carries out the step loop, and exits with its verdict. -/
theorem stepping_embeds : Stepping.dialogue.Embeds process Stage.stepping
    (fun ending ↦ .done [] (.ofVerdict ending.verdict)) where
  receive := fun _ _ ↦ rfl
  close := by
    intro s
    rw [Dialogue.runFrom_done, List.append_nil]
    rfl

/-- What a menu leads to: a choice goes on, and anything else is the end. -/
def afterMenu {α : Type} (choose : α → Turn Stage Exit) : Answer α → Turn Stage Exit
  | .accepted a => choose a
  | .garbled => .done [] .garbledInput
  | .missing => .done [] .declined

theorem programMenu_embeds (auto : Bool) (a : Architecture) :
    (programQuestion a).dialogue.Embeds process (fun _ ↦ .programMenu auto a)
      (afterMenu (Stage.openSession auto a)) where
  receive := by
    intro _ line
    refine congrArg (((programQuestion a).receive line).bind _) ?_
    funext answer
    cases answer <;> rfl
  close := fun _ ↦ rfl

/-- At the menu of machines the process puts a question, and goes on with the answer. -/
theorem machineMenu_embeds (auto : Bool) :
    machineQuestion.dialogue.Embeds process (fun _ ↦ .machineMenu auto)
      (afterMenu fun a ↦ Stage.chooseProgram auto a none) where
  receive := by
    intro _ line
    refine congrArg ((machineQuestion.receive line).bind _) ?_
    funext answer
    cases answer <;> rfl
  close := fun _ ↦ rfl

/-- At a menu, the process succeeds if a line is accepted and what follows succeeds. -/
theorem judges_menu {α : Type} {q : Question α} {stage : Stage} {choose : α → Turn Stage Exit}
    (h : q.dialogue.Embeds process (fun _ ↦ stage) (afterMenu choose))
    {P : α → List Line → Prop}
    (hchoose : ∀ a rest, (process.runFrom (choose a) rest).result.Judges (P a rest))
    (lines : List Line) :
    (process.run stage lines).result.Judges
      (∃ a rest, (∃ n, q.Accepts n lines a rest) ∧ P a rest) := by
  have hrun : process.run stage lines = _ := h.run () lines
  rw [hrun]
  simp only [Question.exists_accepts_iff]
  cases (q.dialogue.run () lines).result with
  | accepted a =>
    refine (hchoose a _).congr ⟨fun hP ↦ ⟨a, _, ⟨rfl, rfl⟩, hP⟩, ?_⟩
    rintro ⟨a', rest, ⟨heq, rfl⟩, hP⟩
    rwa [Answer.accepted.inj heq]
  | garbled =>
    refine .inr ⟨rfl, ?_⟩
    rintro ⟨a, rest, ⟨heq, -⟩, -⟩
    cases heq
  | missing =>
    refine .inr ⟨rfl, ?_⟩
    rintro ⟨a, rest, ⟨heq, -⟩, -⟩
    cases heq

/-- With a machine and a program, the process succeeds if the program is there and is stepped
through. -/
theorem judges_openSession (auto : Bool) (a : Architecture) (id : Nat) (lines : List Line) :
    (process.runFrom (Stage.openSession auto a id) lines).result.Judges
      (StepsThrough auto a id lines) := by
  rw [Stage.openSession]
  cases hopen : Session.ofCatalog a id with
  | error fault =>
    refine .inr ⟨rfl, ?_⟩
    rintro ⟨s, read, hs, -⟩
    exact nomatch hopen.symm.trans hs
  | ok s =>
    have hrun : process.runFrom (Stage.ofStepping (Stepping.opening auto s)) lines = _ :=
      stepping_embeds.runFrom (Stepping.opening auto s) lines
    have horderly := Stepping.orderly_drive (Session.completable_of_ofCatalog hopen)
      (Session.isLive_of_ofCatalog hopen) auto lines
    have hiff : (drive auto s lines).result.verdict = .finished ↔ StepsThrough auto a id lines := by
      rw [horderly.finished_iff]
      constructor
      · rintro ⟨read, hread, hnone⟩
        exact ⟨s, read, hopen, hread, hnone⟩
      · rintro ⟨s', read, hs', hread, hnone⟩
        obtain rfl := Except.ok.inj (hopen.symm.trans hs')
        exact ⟨read, hread, hnone⟩
    simp only [hrun]
    show (Exit.ofVerdict (drive auto s lines).result.verdict).Judges _
    -- the verdict that would exit with two does not occur
    rcases horderly.finished_or_garbled with hfinished | hgarbled
    · rw [hfinished]
      exact .inl ⟨rfl, hiff.mp hfinished⟩
    · rw [hgarbled]
      refine .inr ⟨rfl, fun hsteps ↦ ?_⟩
      exact nomatch hgarbled.symm.trans (hiff.mpr hsteps)

/-- From the menu of programs on, it is a program that has to be accepted first. -/
theorem judges_programMenu (auto : Bool) (a : Architecture) (lines : List Line) :
    (process.run (.programMenu auto a) lines).result.Judges
      (∃ id rest, (∃ n, (programQuestion a).Accepts n lines id rest) ∧
        StepsThrough auto a id rest) :=
  judges_menu (programMenu_embeds auto a) (judges_openSession auto a) lines

theorem judges_machineMenu (auto : Bool) (lines : List Line) :
    (process.run (.machineMenu auto) lines).result.Judges
      (∃ a between, (∃ m, machineQuestion.Accepts m lines a between) ∧
        ∃ id rest, (∃ n, (programQuestion a).Accepts n between id rest) ∧
          StepsThrough auto a id rest) :=
  judges_menu (machineMenu_embeds auto) (judges_programMenu auto) lines

/-- In whichever way machine and program are chosen, the process succeeds exactly if both are and
the program is stepped through. -/
theorem judges_choose (o : Options) (lines : List Line) :
    (process.runFrom (Stage.choose o) lines).result.Judges
      (∃ a id rest, Selects o lines a id rest ∧ StepsThrough o.auto a id rest) := by
  rw [Stage.choose]
  cases harchitecture : o.architecture with
  | none =>
    refine (judges_machineMenu o.auto lines).congr ⟨?_, ?_⟩
    · rintro ⟨a, between, ⟨m, hmachine⟩, id, rest, ⟨n, hprogram⟩, hsteps⟩
      exact ⟨a, id, rest, .menus harchitecture hmachine hprogram, hsteps⟩
    · rintro ⟨a, id, rest, hselects, hsteps⟩
      cases hselects with
      | flags ha => exact nomatch harchitecture.symm.trans ha
      | programMenu ha => exact nomatch harchitecture.symm.trans ha
      | menus _ hmachine hprogram =>
        exact ⟨a, _, ⟨_, hmachine⟩, id, rest, ⟨_, hprogram⟩, hsteps⟩
  | some a =>
    cases hprogram : o.program with
    | none =>
      refine (judges_programMenu o.auto a lines).congr ⟨?_, ?_⟩
      · rintro ⟨id, rest, ⟨n, hmenu⟩, hsteps⟩
        exact ⟨a, id, rest, .programMenu harchitecture hprogram hmenu, hsteps⟩
      · rintro ⟨a', id, rest, hselects, hsteps⟩
        cases hselects with
        | flags _ hid => exact nomatch hprogram.symm.trans hid
        | programMenu ha _ hmenu =>
          obtain rfl := Option.some.inj (harchitecture.symm.trans ha)
          exact ⟨id, rest, ⟨_, hmenu⟩, hsteps⟩
        | menus ha => exact nomatch harchitecture.symm.trans ha
    | some id =>
      refine (judges_openSession o.auto a id lines).congr ⟨?_, ?_⟩
      · intro hsteps
        have hlt : id < (Catalog.programs a).length := by
          obtain ⟨s, -, hopen, -⟩ := hsteps
          exact Session.exists_ofCatalog_iff.mp ⟨s, hopen⟩
        exact ⟨a, id, lines, .flags harchitecture hprogram hlt, hsteps⟩
      · rintro ⟨a', id', rest, hselects, hsteps⟩
        cases hselects with
        | flags ha hid =>
          obtain rfl := Option.some.inj (harchitecture.symm.trans ha)
          obtain rfl := Option.some.inj (hprogram.symm.trans hid)
          exact hsteps
        | programMenu _ hnone => exact nomatch hprogram.symm.trans hnone
        | menus ha => exact nomatch harchitecture.symm.trans ha

/-- The exit code of a process tells whether it has done what its arguments ask for. -/
theorem judges_run (args : List String) (input : List UInt8) :
    (run args input).result.Judges (Succeeds args (linesOf input)) := by
  rw [run, opening]
  cases hparse : Request.parse args with
  | error e =>
    refine .inr ⟨rfl, ?_⟩
    rintro (hhelp | ⟨hrun, -⟩ | ⟨hrun, -, -, -⟩)
    · exact nomatch hparse.symm.trans hhelp
    · exact nomatch hparse.symm.trans hrun
    · exact nomatch hparse.symm.trans hrun
  | ok request =>
    cases request with
    | help => exact .inl ⟨rfl, .help hparse⟩
    | run o =>
      cases hlist : o.list with
      | true =>
        simp only [hlist]
        exact .inl ⟨rfl, .list hparse hlist⟩
      | false =>
        simp only [hlist]
        refine (judges_choose o (linesOf input)).congr ⟨?_, ?_⟩
        · rintro ⟨a, id, rest, hselects, hsteps⟩
          exact .stepped hparse hlist hselects hsteps
        · rintro (hhelp | ⟨hrun, hlist'⟩ | ⟨hrun, -, hselects, hsteps⟩)
          · exact nomatch hparse.symm.trans hhelp
          · obtain rfl := Request.run.inj (Except.ok.inj (hparse.symm.trans hrun))
            exact nomatch hlist.symm.trans hlist'
          · obtain rfl := Request.run.inj (Except.ok.inj (hparse.symm.trans hrun))
            exact ⟨_, _, _, hselects, hsteps⟩

/-- What the step loop can rely on in a session: no calls lead it to a fault; the loop ends when the
session has stopped, or at a line that is not text; in automatic mode it reads nothing and leads to
the end of the program; and the end of input stops the session in order, wherever it is. -/
structure Reliable (s : Session) : Prop where
  fault : ∀ calls, (s.after calls).fault = none
  ends : ∀ auto lines, (drive auto s lines).result.verdict = .finished ∧
      (drive auto s lines).result.session.state.isLive = false ∨
    (drive auto s lines).result.verdict = .garbled
  auto : ∀ lines, (drive true s lines).unread = lines ∧
    (drive true s lines).result.session.state = .completed ∧
    (drive true s lines).result.verdict = .finished
  close : ∀ calls, (s.after calls).state.isLive = true →
    (Stepping.dialogue.close (s.after calls)).2 = ⟨(s.after calls).abort.1, .finished⟩ ∧
      (s.after calls).abort.1.state = .aborted

/-- Sessions on programs of the catalog are reliable. -/
theorem reliable_of_ofCatalog {a : Architecture} {id : Nat} {s : Session}
    (h : Session.ofCatalog a id = .ok s) : Reliable s where
  fault := fun calls ↦ ((Session.completable_of_ofCatalog h).after calls).fault_eq_none
  ends := by
    intro auto lines
    have horderly := Stepping.orderly_drive (Session.completable_of_ofCatalog h)
      (Session.isLive_of_ofCatalog h) auto lines
    rcases horderly.finished_or_garbled with hfinished | hgarbled
    · exact .inl ⟨hfinished, horderly.isLive_eq_false hfinished⟩
    · exact .inr hgarbled
  auto := by
    intro lines
    have hs := Session.completable_of_ofCatalog h
    have hlive := Session.isLive_of_ofCatalog h
    obtain ⟨hresult, hunread⟩ := Stepping.drive_auto hs hlive lines
    rw [hresult]
    exact ⟨hunread, Stepping.state_advances_left hs hlive, rfl⟩
  close := fun calls hlive ↦
    Stepping.ending_quit ((Session.completable_of_ofCatalog h).after calls) hlive

end Console

open Console

/-- The process exits with zero or one, and with zero exactly if it does what it is asked for: it
helps, it lists, or it steps through a program of the catalog on lines of input that are text as far
as they are read.  Every input is cut into lines in one way.  No simulated program fails on the
way. -/
theorem exit_code_of_run (args : List String) (input : List UInt8) :
    ((run args input).result.code = 0 ∨ (run args input).result.code = 1) ∧
    (∃! lines, Lines input lines) ∧
    (∀ {lines : List (List UInt8)}, Lines input lines →
      ((run args input).result.code = 0 ↔ Succeeds args (lines.map .ofBytes))) ∧
    ∀ {a : Architecture} {id : Nat},
      ((∃ s, Session.ofCatalog a id = .ok s) ↔ id < (Catalog.programs a).length) ∧
      ∀ {s : Session}, Session.ofCatalog a id = .ok s → Reliable s := by
  refine ⟨?_, ⟨_, lines_cutLines input, fun _ h ↦ (lines_iff.mp h).symm⟩, ?_,
    fun {a id} ↦ ⟨Session.exists_ofCatalog_iff, reliable_of_ofCatalog⟩⟩
  · rcases judges_run args input with ⟨hzero, -⟩ | ⟨hone, -⟩
    · exact .inl hzero
    · exact .inr hone
  · intro lines hlines
    obtain rfl := lines_iff.mp hlines
    rcases judges_run args input with ⟨hzero, hsucceeds⟩ | ⟨hone, hfails⟩
    · exact iff_of_true hzero hsucceeds
    · refine iff_of_false ?_ hfails
      rw [hone]
      nofun

/-- Flags name a program, which runs by itself to its end and would not fault under other calls. -/
theorem exit_code_iasMultiplyDivide :
    (run ["-p", "ias", "-n", "2", "-a"] []).result.code = 0 ∧
    ∃ s, Session.ofCatalog .ias 1 = .ok s ∧
      (s.after [.advance, .run, .reset, .advance, .abort]).fault = none := by
  have hload : Catalog.load .ias 1 = .ok Catalog.iasMultiplyDivide := rfl
  have hopen := Session.ofCatalog_of_load hload
  obtain ⟨-, -, hiff, hcatalog⟩ := exit_code_of_run ["-p", "ias", "-n", "2", "-a"] []
  have hreliable := hcatalog.2 hopen
  have hparse : Request.parse ["-p", "ias", "-n", "2", "-a"] =
      .ok (.run ⟨some .ias, some 1, true, false, false⟩) := by
    have hkey : Architecture.ofKey? "ias" = some .ias := by decide +kernel
    have hnumber : ofNumber? "2" = some 1 := by decide +kernel
    simp [Request.parse, Request.parseFrom, Flag.ofText?, hkey, hnumber]
  refine ⟨(hiff .nil).mpr (.stepped hparse rfl (.flags rfl rfl (by decide)) ?_),
    _, hopen, hreliable.fault _⟩
  exact ⟨_, [], hopen, (hreliable.auto _).1.symm, List.not_mem_nil⟩

example : (run [] [0xFF]).result.code = 1 := by decide +kernel

end FetchExecute
