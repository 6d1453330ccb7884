import FetchExecute.Console.Stepping
import FetchExecute.Proofs.Catalog
import FetchExecute.Proofs.Dialogue

/-!
# The step loop

Each command of the step loop is a call on the session, after which the session
is shown (`Console.Stepping.obey_eq_turn`); in automatic mode the loop makes the
advances that are left (`Console.Stepping.ending_autoRun`).

A session that can be run to its end never faults (`Session.Completable`): what
has once been reached without a fault is reached again whenever the session gets
that far.  For such a session the loop can only end in order, or at a line that is
not text (`Console.Stepping.orderly_drive`).
-/

namespace FetchExecute

/-! ## Sessions that never fault -/

/-- If some calls lead a program to its end, no calls lead it to a fault. -/
theorem Machine.Reachable.fault_eq_none {p : Profile} {program : Program} {m m' : Machine}
    (h : Reachable p program m) (hp : p.Registered) (h' : Reachable p program m')
    (hcompleted : m'.state = .completed) : m.fault = none := by
  cases hfault : m.fault with
  | none => rfl
  | some fault =>
    obtain ⟨haborted, hlast⟩ := (h.history hp).faulted hfault
    have hm : (fresh p program).advances (m.cursor + 1) = m := congrArg Prod.fst hlast
    have hm' : m' = (fresh p program).advances m'.cursor :=
      (h'.history hp).unbroken (by rw [hcompleted]; nofun)
    have hlt : m.cursor + 1 ≤ m'.cursor := by
      have hend := ((h'.lifecycle hp).completed_iff.mp hcompleted).2
      rw [hend, total, (h'.sound hp).program_eq, ← (h.sound hp).program_eq]
      exact (h.lifecycle hp).cursor_lt haborted
    obtain ⟨more, hmore⟩ := Nat.exists_eq_add_of_le hlt
    -- the failing step would stand in the way to the end
    rw [hmore, advances_add, hm,
      advances_of_stopped (RunState.isLive_eq_false_iff.mpr (.inr haborted))] at hm'
    rw [hm', haborted] at hcompleted
    cases hcompleted

namespace Session

/-- The session is one of a program that some calls lead to its end. -/
inductive Completable (s : Session) : Prop
  | intro {p : Profile} {program : Program} {m : Machine} : p.Registered →
      Machine.Reachable p program s.machine → Machine.Reachable p program m →
      m.state = .completed → Completable s

namespace Completable

variable {s : Session} (h : s.Completable)
include h

theorem fault_eq_none : s.fault = none := by
  obtain ⟨hp, hs, hend, hcompleted⟩ := h
  exact hs.fault_eq_none hp hend hcompleted

/-- No call changes what the program can be led to. -/
theorem call (c : Call) : (s.call c).1.Completable := by
  obtain ⟨hp, hs, hend, hcompleted⟩ := h
  exact ⟨hp, reachable_call hp hs c, hend, hcompleted⟩

theorem after (calls : List Call) : (s.after calls).Completable := by
  obtain ⟨hp, hs, hend, hcompleted⟩ := h
  exact ⟨hp, reachable_after hp hs calls, hend, hcompleted⟩

end Completable

/-! ### Sessions on programs of the catalog -/

section

variable {a : Architecture} {id : Nat} {program : Program} {s : Session}

theorem ofCatalog_of_load (h : Catalog.load a id = .ok program) :
    ofCatalog a id = .ok ⟨.fresh (.ofArchitecture a) program, {}, false⟩ := by
  rw [ofCatalog, h]
  exact ofProgram_of_validate (Profile.registered_ofArchitecture a)
    (Catalog.completes_of_load h).1 {}

/-- Sessions are opened on programs of the catalog only. -/
theorem exists_load_of_ofCatalog (h : ofCatalog a id = .ok s) :
    ∃ program, Catalog.load a id = .ok program ∧
      s = ⟨.fresh (.ofArchitecture a) program, {}, false⟩ := by
  cases hload : Catalog.load a id with
  | error fault =>
    rw [ofCatalog, hload] at h
    cases h
  | ok program => exact ⟨program, rfl, Except.ok.inj (h.symm.trans (ofCatalog_of_load hload))⟩

/-- The catalog opens its programs and no others. -/
theorem exists_ofCatalog_iff :
    (∃ s, ofCatalog a id = .ok s) ↔ id < (Catalog.programs a).length := by
  constructor
  · rintro ⟨s, h⟩
    obtain ⟨program, hload, -⟩ := exists_load_of_ofCatalog h
    unfold Catalog.load at hload
    split at hload
    · exact (List.getElem?_eq_some_iff.mp ‹_›).1
    · cases hload
  · intro hlt
    have hload : Catalog.load a id = .ok (Catalog.programs a)[id] := by
      rw [Catalog.load, List.getElem?_eq_getElem hlt]
    exact ⟨_, ofCatalog_of_load hload⟩

/-- The programs of the catalog can all be led to their ends. -/
theorem completable_of_ofCatalog (h : ofCatalog a id = .ok s) : s.Completable := by
  obtain ⟨program, hload, rfl⟩ := exists_load_of_ofCatalog h
  obtain ⟨hv, m, hend, hcompleted⟩ := Catalog.completes_of_load hload
  have hp := Profile.registered_ofArchitecture a
  exact ⟨hp, .load (Machine.load_of_validate hp hv), hend, hcompleted⟩

theorem isLive_of_ofCatalog (h : ofCatalog a id = .ok s) : s.state.isLive = true := by
  obtain ⟨program, hload, rfl⟩ := exists_load_of_ofCatalog h
  exact (Machine.fresh_unbroken _ program).live (Catalog.steps_pos_of_load hload)

end

end Session

/-! ## The loop -/

namespace Console

/-- The call that carries out a command. -/
def Command.call : Command → Session.Call
  | .next => .advance
  | .reset => .reset
  | .quit => .abort

namespace Stepping

variable {s : Session}

/-- Quitting aborts a session that might go on, and shows it once more. -/
theorem quit_of_live (h : s.state.isLive = true) :
    quit s = finish false s.abort.1 s.abort.1.statusLine := by
  simp only [quit, Session.abort_of_live h]

/-- The message under which a session is shown that has obeyed a command. -/
def told (s : Session) : Command → String
  | .next => (advance s).2
  | c => (s.call c.call).1.statusLine

/-- To obey a command is to make a call and to show the session. -/
theorem obey_eq_turn {p : Profile} {program : Program}
    (h : Machine.Reachable p program s.machine) (hp : p.Registered)
    (hlive : s.state.isLive = true) (c : Command) :
    obey s c = turn (s.call c.call).1 (told s c) := by
  cases c with
  | next => rfl
  | reset => simp only [obey, told, Command.call, Session.call, Session.reset_eq h hp]
  | quit =>
    simp only [obey, told, Command.call, Session.call, quit_of_live hlive,
      Session.abort_of_live hlive]
    rfl

/-- Without a fault the verdict is that the session has finished. -/
theorem verdict_of_fault_eq_none (h : s.fault = none) : verdict s = .finished := by
  rw [verdict, h]
  cases s.state <;> rfl

/-- To quit, or to come to the end of input, is to stop the session. -/
theorem ending_quit (hs : s.Completable) (hlive : s.state.isLive = true) :
    (quit s).2 = ⟨s.abort.1, .finished⟩ ∧ s.abort.1.state = .aborted := by
  have hnone : s.abort.1.fault = none := (hs.call .abort).fault_eq_none
  rw [quit_of_live hlive, finish, verdict_of_fault_eq_none hnone, Session.abort_of_live hlive]
  exact ⟨rfl, rfl⟩

section

variable {text : String}

theorem receive_of_command {c : Command} (h : Command.ofText? text = some c) :
    dialogue.receive s (.text text) = (obey s c).after [] := by
  show (stepQuestion.receive (.text text)).bind _ _ = _
  rw [Question.receive_of_accepted h]
  rfl

theorem receive_of_nonsense (h : Command.ofText? text = none) :
    dialogue.receive s (.text text) =
      .wait [.line Question.rejection, .question stepQuestion.wording] s := by
  show (stepQuestion.receive (.text text)).bind _ _ = _
  rw [Question.receive_of_rejected h]
  rfl

end

/-- The loop ends in order when the session has stopped, or at the first line that is not text. -/
inductive Orderly : List Line → Ending → List Line → Prop
  | finished {s : Session} {rest : List Line} : s.state.isLive = false →
      Orderly rest ⟨s, .finished⟩ rest
  | garbled {s : Session} {rest : List Line} : Orderly (.garbled :: rest) ⟨s, .garbled⟩ rest
  | text {text : String} {lines rest : List Line} {ending : Ending} :
      Orderly lines ending rest → Orderly (.text text :: lines) ending rest

/-- A turn ends in order, if the loop does whenever it is entered again. -/
theorem Orderly.run_turn (hs : s.Completable) (message : String) {lines : List Line}
    (hrun : s.state.isLive = true →
      Orderly lines (dialogue.run s lines).result (dialogue.run s lines).unread) :
    Orderly lines (dialogue.runFrom (turn s message) lines).result
      (dialogue.runFrom (turn s message) lines).unread := by
  cases hlive : s.state.isLive with
  | true =>
    rw [turn, if_pos hlive]
    exact hrun hlive
  | false =>
    rw [turn, hlive, finish, verdict_of_fault_eq_none hs.fault_eq_none]
    exact .finished hlive

/-- Whatever is typed, the loop ends in order. -/
theorem orderly_run (hs : s.Completable) (hlive : s.state.isLive = true) (lines : List Line) :
    Orderly lines (dialogue.run s lines).result (dialogue.run s lines).unread := by
  -- whenever the loop asks, the session may go on and is of a program that does not fault
  induction lines generalizing s with
  | nil =>
    obtain ⟨hending, haborted⟩ := ending_quit hs hlive
    rw [Dialogue.run_nil]
    show Orderly [] (quit s).2 []
    rw [hending]
    exact .finished (RunState.isLive_eq_false_iff.mpr (.inr haborted))
  | cons line rest ih =>
    rw [Dialogue.run_cons]
    cases line with
    | garbled => exact .garbled
    | text text =>
      refine .text ?_
      cases hcommand : Command.ofText? text with
      | none =>
        rw [receive_of_nonsense hcommand]
        exact ih hs hlive
      | some c =>
        have hobey : obey s c = turn (s.call c.call).1 (told s c) := by
          obtain ⟨hp, h, -, -⟩ := hs
          exact obey_eq_turn h hp hlive c
        rw [receive_of_command hcommand, Dialogue.runFrom_after, hobey]
        exact .run_turn (hs.call c.call) _ (ih (hs.call c.call))

/-! ### What the order tells -/

namespace Orderly

variable {lines rest : List Line} {ending : Ending} (h : Orderly lines ending rest)
include h

/-- What is left unread is the end of the input. -/
theorem exists_read : ∃ read, lines = read ++ rest := by
  induction h with
  | finished => exact ⟨[], rfl⟩
  | garbled => exact ⟨[.garbled], rfl⟩
  | @text text _ _ _ _ ih =>
    obtain ⟨read, rfl⟩ := ih
    exact ⟨.text text :: read, rfl⟩

theorem finished_or_garbled : ending.verdict = .finished ∨ ending.verdict = .garbled := by
  induction h with
  | finished => exact .inl rfl
  | garbled => exact .inr rfl
  | text _ ih => exact ih

theorem isLive_eq_false (hfinished : ending.verdict = .finished) :
    ending.session.state.isLive = false := by
  induction h with
  | finished hstopped => exact hstopped
  | garbled => cases hfinished
  | text _ ih => exact ih hfinished

/-- The loop ends well exactly if all it has read was text. -/
theorem finished_iff :
    ending.verdict = .finished ↔ ∃ read, lines = read ++ rest ∧ Line.garbled ∉ read := by
  induction h with
  | finished => exact iff_of_true rfl ⟨[], rfl, List.not_mem_nil⟩
  | @garbled s rest =>
    refine iff_of_false nofun ?_
    rintro ⟨read, hread, hnone⟩
    obtain rfl : [.garbled] = read := List.append_cancel_right hread
    exact hnone (by simp)
  | @text text lines rest ending hrest ih =>
    rw [ih]
    constructor
    · rintro ⟨read, rfl, hnone⟩
      exact ⟨.text text :: read, rfl, by simpa using hnone⟩
    · rintro ⟨read, hread, hnone⟩
      cases read with
      | nil =>
        -- the rest is no longer than the lines behind this one
        obtain ⟨read, rfl⟩ := hrest.exists_read
        have hlength := congrArg List.length hread
        simp only [List.nil_append, List.length_cons, List.length_append] at hlength
        omega
      | cons line read =>
        obtain ⟨rfl, rfl⟩ := List.cons.inj hread
        exact ⟨read, rfl, fun hmem ↦ hnone (.tail _ hmem)⟩

end Orderly

/-! ### Automatic mode -/

/-- Without commands, the loop takes as many steps as it may. -/
theorem ending_autoRun (n : Nat) (s : Session) (message : String) :
    (autoRun n s message).2 = ⟨s.advances n, verdict (s.advances n)⟩ := by
  induction n generalizing s message with
  | zero => rfl
  | succ n ih =>
    rw [autoRun]
    cases hlive : s.state.isLive with
    | true =>
      rw [Session.advances_succ]
      exact ih _ _
    | false =>
      rw [Session.advances_of_stopped hlive]
      rfl

/-- A session whose program can be led to its end comes there in as many steps as it has left. -/
theorem state_advances_left (hs : s.Completable) (hlive : s.state.isLive = true) :
    (s.advances (s.total - s.cursor)).state = .completed := by
  have hnone : s.runToCompletion.session.fault = none := (hs.call .run).fault_eq_none
  obtain ⟨hp, h, -, -⟩ := hs
  obtain ⟨n, run, hbatch⟩ := Session.exists_runsStepwise h hp hlive
  rw [Session.state, Session.machine_advances,
    ← Session.machine_runToCompletion h hp hlive (Nat.le_refl _)]
  cases hending : run.ending with
  | completed => exact (hbatch.tells.completed_iff.mp hending).1
  | faulted fault =>
    obtain ⟨-, hfault, -⟩ := hbatch.tells.faulted_iff.mp hending
    rw [hfault] at hnone
    cases hnone

/-- Without commands, the loop completes such a program and reads nothing. -/
theorem drive_auto (hs : s.Completable) (hlive : s.state.isLive = true) (lines : List Line) :
    (drive true s lines).result = ⟨s.advances (s.total - s.cursor), .finished⟩ ∧
      (drive true s lines).unread = lines := by
  have hcompleted := state_advances_left hs hlive
  have hverdict : verdict (s.advances (s.total - s.cursor)) = .finished := by
    rw [verdict, hcompleted]
  refine ⟨?_, rfl⟩
  show (autoRun (s.total - s.cursor) s s.statusLine).2 = _
  rw [ending_autoRun, hverdict]

/-- In either mode, the loop reads lines until the session has stopped. -/
theorem orderly_drive (hs : s.Completable) (hlive : s.state.isLive = true) (auto : Bool)
    (lines : List Line) :
    Orderly lines (drive auto s lines).result (drive auto s lines).unread := by
  cases auto with
  | false => exact .run_turn hs s.statusLine fun _ ↦ orderly_run hs hlive lines
  | true =>
    obtain ⟨hresult, hunread⟩ := drive_auto hs hlive lines
    rw [hresult, hunread]
    refine .finished ?_
    rw [state_advances_left hs hlive]
    rfl

end Stepping

end Console

end FetchExecute
