import FetchExecute.Proofs.Reading
import FetchExecute.Proofs.Stepping
import Mathlib.Algebra.GroupWithZero.Nat

/-!
# Scripts of the step loop

What is typed at the step loop comes down to commands.  A `Stepping.Script` takes
the lines of input apart: each command stands behind some lines that are rejected,
the end of input is to quit, and nothing is taken of the input once the session
has ended.  Input that is text has exactly one script (`Stepping.exists_script`),
and it settles everything the loop does (`Stepping.Script.runFrom_turn`):

| of the loop | told by the script |
|---|---|
| the session at the end | the commands, obeyed in order (`Stepping.obeying`) |
| what is printed | a screen before each command and one at the end, and a retry for each line that is rejected (`Stepping.printed`) |
| what is read | the lines up to the last command |

`step_loop_folds_commands` reads off it what a user at the loop can rely on.
-/

namespace FetchExecute

namespace Console

open Text

/-- The snapshot and the message, of what is a frame. -/
def Output.frame? : Output → Option (Snapshot × String)
  | .frame snapshot message => some (snapshot, message)
  | _ => none

namespace Stepping

/-! ## Commands -/

/-- The session after it has obeyed these commands. -/
def obeying (s : Session) (commands : List Command) : Session :=
  s.after (commands.map Command.call)

/-- The frames in which a session is shown that obeys these commands: one before the first of them,
and one after each. -/
def shown (s : Session) (message : String) : List Command → List (Snapshot × String)
  | [] => [(s.snapshot, message)]
  | c :: rest => (s.snapshot, message) :: shown (s.call c.call).1 (told s c) rest

/-- Commands, each behind a number of lines that are rejected. -/
def commandsOf (script : List (Nat × Command)) : List Command := script.map (·.2)

/-- What is printed in the course of a script: every frame on a clear screen, below it a question
while there is a command to come, and a retry for every line that is rejected. -/
def printed (s : Session) (message : String) : List (Nat × Command) → List Output
  | [] => frame false s message ++ [.line (closingLine s.state)]
  | (n, c) :: rest =>
    frame false s message ++ [.line (rule '-'), .question stepQuestion.wording] ++
      stepQuestion.retries n ++ printed (s.call c.call).1 (told s c) rest

/-- Of these lines, those before `rest` give the session this script.  It ends with the session. -/
inductive Script : Session → List Line → List (Nat × Command) → List Line → Prop
  | ended {s : Session} {rest : List Line} : s.state.isLive = false → Script s rest [] rest
  | command {s : Session} {n : Nat} {c : Command} {script : List (Nat × Command)}
      {lines between rest : List Line} : s.state.isLive = true →
      stepQuestion.Accepts n lines c between → Script (s.call c.call).1 between script rest →
      Script s lines ((n, c) :: script) rest
  /-- Input has run out. -/
  | exhausted {s : Session} {lines : List Line} : s.state.isLive = true →
      (∀ line ∈ lines, stepQuestion.Rejects line) → Script s lines [(lines.length, .quit)] []

variable {p : Profile} {program : Program} {s : Session}

theorem obeying_cons (s : Session) (c : Command) (rest : List Command) :
    obeying s (c :: rest) = obeying (s.call c.call).1 rest := rfl

/-- Commands are obeyed in two stretches. -/
theorem obeying_append (s : Session) (commands more : List Command) :
    obeying s (commands ++ more) = obeying (obeying s commands) more := by
  rw [obeying, obeying, obeying, List.map_append, Session.after, Session.after, Session.after,
    List.foldl_append]

theorem reachable_obeying (h : Machine.Reachable p program s.machine) (hp : p.Registered)
    (commands : List Command) : Machine.Reachable p program (obeying s commands).machine :=
  Session.reachable_after hp h _

theorem isLive_abort (s : Session) : s.abort.1.state.isLive = false := by
  cases hlive : s.state.isLive with
  | true =>
    rw [Session.abort_of_live hlive]
    rfl
  | false =>
    rw [Session.abort, Machine.abort_of_stopped hlive]
    exact hlive

/-- The verdict names the fault of the session, if it has one. -/
theorem verdict_eq (h : Machine.Reachable p program s.machine) (hp : p.Registered) :
    verdict s = match s.fault with
      | some fault => .faulted fault
      | none => .finished := by
  cases hfault : s.fault with
  | none => exact verdict_of_fault_eq_none hfault
  | some fault =>
    have haborted : s.state = .aborted := ((h.lifecycle hp).fault hfault).1
    rw [verdict, haborted, hfault]

/-! ## Running a script -/

/-- The loop puts its question until it gets a command, and then obeys. -/
theorem stepQuestion_embeds (s : Session) :
    stepQuestion.dialogue.Embeds dialogue (fun _ ↦ s) fun
      | .accepted command => obey s command
      | .garbled => .done [] ⟨s, .garbled⟩
      | .missing => .done (quit s).1 (quit s).2 where
  receive := by
    intro _ line
    refine congrArg ((stepQuestion.receive line).bind _) ?_
    funext answer
    cases answer <;> rfl
  close := fun _ ↦ rfl

/-- Any input without garbled lines is a script. -/
theorem exists_script (s : Session) {lines : List Line} (htext : Line.garbled ∉ lines) :
    ∃ script rest, Script s lines script rest := by
  -- every command takes at least the line on which it stands
  induction hlength : lines.length using Nat.strong_induction_on generalizing s lines with
  | _ length ih =>
    subst hlength
    cases hlive : s.state.isLive with
    | false => exact ⟨[], lines, .ended hlive⟩
    | true =>
      rcases stepQuestion.accepts_or_rejects htext with ⟨n, c, between, haccepts⟩ | hrejects
      · obtain ⟨rejected, line, rfl, -, -, -⟩ := haccepts.exists_read
        have hbetween : Line.garbled ∉ between := by
          intro hmem
          exact htext (List.mem_append_right _ (.tail _ hmem))
        have hshorter : between.length < (rejected ++ line :: between).length := by
          simp only [List.length_append, List.length_cons]
          omega
        obtain ⟨script, rest, hscript⟩ := ih _ hshorter (s.call c.call).1 hbetween rfl
        exact ⟨_, rest, .command hlive haccepts hscript⟩
      · exact ⟨_, [], .exhausted hlive hrejects⟩

namespace Script

variable {lines rest : List Line} {script : List (Nat × Command)}

/-- The loop does what the script says. -/
theorem runFrom_turn (hscript : Script s lines script rest)
    (h : Machine.Reachable p program s.machine) (hp : p.Registered) (message : String) :
    dialogue.runFrom (turn s message) lines =
      ⟨printed s message script,
        ⟨obeying s (commandsOf script), verdict (obeying s (commandsOf script))⟩, rest⟩ := by
  induction hscript generalizing message with
  | ended hstopped =>
    rw [turn, hstopped]
    rfl
  | @command s n c script lines between rest hlive haccepts _ ih =>
    rw [turn, if_pos hlive, Dialogue.runFrom_wait,
      (stepQuestion_embeds s).run_of_accepts haccepts]
    show ((dialogue.runFrom (obey s c) between).after _).after _ = _
    rw [obey_eq_turn h hp hlive, ih (Session.reachable_call hp h c.call)]
    simp only [Transcript.after, printed, List.append_assoc]
    rfl
  | @exhausted s lines hlive hrejects =>
    rw [turn, if_pos hlive, Dialogue.runFrom_wait,
      (stepQuestion_embeds s).run_of_rejects hrejects]
    show ((dialogue.runFrom (.done (quit s).1 (quit s).2) []).after _).after _ = _
    rw [quit_of_live hlive]
    simp only [Dialogue.runFrom_done, Transcript.after, finish, printed, List.append_assoc]
    rfl

/-! ### What a script says -/

/-- The last of some elements is this one, unless there are others behind it. -/
theorem forall_getLast?_append_cons {α : Type} {P : α → Prop} {before after : List α} {a : α}
    (ha : P a) (hafter : ∀ b ∈ after.getLast?, P b) :
    ∀ b ∈ (before ++ a :: after).getLast?, P b := by
  rw [List.getLast?_append_of_ne_nil _ (List.cons_ne_nil a after), List.getLast?_cons]
  intro b hb
  cases hlast : after.getLast? with
  | none =>
    obtain rfl : a = b := by simpa [hlast] using hb
    exact ha
  | some last =>
    obtain rfl : last = b := by simpa [hlast] using hb
    exact hafter last hlast

section

variable (hscript : Script s lines script rest)
include hscript

/-- Each command finds the session able to go on, and the last one has left it ended. -/
theorem isLive_obeying :
    (∀ k < script.length, (obeying s ((commandsOf script).take k)).state.isLive = true) ∧
      (obeying s (commandsOf script)).state.isLive = false := by
  induction hscript with
  | ended hstopped => exact ⟨nofun, hstopped⟩
  | @command s n c script lines between rest hlive _ _ ih =>
    obtain ⟨hbefore, hend⟩ := ih
    refine ⟨?_, hend⟩
    intro k hk
    cases k with
    | zero => exact hlive
    | succ k => exact hbefore k (Nat.lt_of_succ_lt_succ hk)
  | @exhausted s lines hlive _ =>
    refine ⟨?_, isLive_abort s⟩
    intro k hk
    obtain rfl : k = 0 := Nat.lt_one_iff.mp hk
    exact hlive

/-- The commands are those that stand on the lines that are read, but for the end of input. -/
theorem exists_read :
    ∃ read, lines = read ++ rest ∧
      (commandsOf script = read.filterMap stepQuestion.answer? ∧
          (∀ line ∈ read.getLast?, (stepQuestion.answer? line).isSome = true) ∨
        rest = [] ∧ commandsOf script = read.filterMap stepQuestion.answer? ++ [.quit]) ∧
      (script.map (·.1)).sum = read.countP fun line ↦ (stepQuestion.answer? line).isNone := by
  have hrejected : ∀ {rejected : List Line}, (∀ line ∈ rejected, stepQuestion.Rejects line) →
      rejected.filterMap stepQuestion.answer? = [] ∧
        rejected.countP (fun line ↦ (stepQuestion.answer? line).isNone) = rejected.length := by
    intro rejected hrejects
    refine ⟨List.filterMap_eq_nil_iff.mpr fun line hline ↦ (hrejects line hline).answer?_eq_none,
      List.countP_eq_length.mpr fun line hline ↦ ?_⟩
    rw [(hrejects line hline).answer?_eq_none]
    rfl
  induction hscript with
  | ended => exact ⟨[], rfl, .inl ⟨rfl, nofun⟩, rfl⟩
  | @command s n c script lines between rest hlive haccepts hscript ih =>
    obtain ⟨read, rfl, hcommands, hsum⟩ := ih
    obtain ⟨rejected, line, rfl, rfl, hrejects, hline⟩ := haccepts.exists_read
    obtain ⟨hnone, hcount⟩ := hrejected hrejects
    have hall : (rejected ++ line :: read).filterMap stepQuestion.answer? =
        c :: read.filterMap stepQuestion.answer? := by
      rw [List.filterMap_append, hnone, List.nil_append, List.filterMap_cons_some hline]
    refine ⟨rejected ++ line :: read, by simp, ?_, ?_⟩
    · rw [hall]
      rcases hcommands with ⟨heq, hlast⟩ | ⟨hrest, heq⟩
      · refine .inl ⟨congrArg (c :: ·) heq, forall_getLast?_append_cons ?_ hlast⟩
        rw [hline]
        rfl
      · exact .inr ⟨hrest, congrArg (c :: ·) heq⟩
    · rw [List.map_cons, List.sum_cons, hsum, List.countP_append, List.countP_cons, hcount, hline]
      rfl
  | @exhausted s lines hlive hrejects =>
    obtain ⟨hnone, hcount⟩ := hrejected hrejects
    refine ⟨lines, (List.append_nil _).symm, .inr ⟨rfl, ?_⟩, ?_⟩
    · rw [hnone]
      rfl
    · rw [hcount]
      exact Nat.add_zero _

end

end Script

/-! ## What is printed -/

theorem length_shown (s : Session) (message : String) (commands : List Command) :
    (shown s message commands).length = commands.length + 1 := by
  induction commands generalizing s message with
  | nil => rfl
  | cons c rest ih => exact congrArg (· + 1) (ih _ _)

theorem frames_retries (n : Nat) :
    (stepQuestion.retries n).filterMap Output.frame? = [] := by
  induction n with
  | zero => rfl
  | succ n ih =>
    rw [Question.retries_succ, List.filterMap_append, ih]
    rfl

theorem count_retries (n : Nat) :
    (stepQuestion.retries n).count (.line Question.rejection) = n := by
  induction n with
  | zero => rfl
  | succ n ih =>
    rw [Question.retries_succ, List.count_append, ih, Nat.add_comm]
    rfl

/-- The frames among what a script prints are those that the session shows. -/
theorem frames_printed (s : Session) (message : String) (script : List (Nat × Command)) :
    (printed s message script).filterMap Output.frame? =
      shown s message (commandsOf script) := by
  induction script generalizing s message with
  | nil => rfl
  | cons entry rest ih =>
    obtain ⟨n, c⟩ := entry
    rw [printed, List.filterMap_append, List.filterMap_append, frames_retries, ih]
    rfl

/-- As many lines are rejected as the script says. -/
theorem count_printed (s : Session) (message : String) (script : List (Nat × Command)) :
    (printed s message script).count (.line Question.rejection) = (script.map (·.1)).sum := by
  induction script generalizing s message with
  | nil =>
    have hclosing : (Output.line (closingLine s.state) == .line Question.rejection) = false := by
      cases s.state <;> decide
    rw [printed, List.count_append, List.count_singleton, hclosing]
    rfl
  | cons entry rest ih =>
    obtain ⟨n, c⟩ := entry
    have hrule : (Output.line (rule '-') == .line Question.rejection) = false := by decide
    have hscreen : List.count (.line Question.rejection) (frame false s message ++
        [Output.line (rule '-'), .question stepQuestion.wording]) = 0 := by
      rw [List.count_append, List.count_cons, hrule]
      rfl
    rw [printed, List.count_append, List.count_append, count_retries, ih, hscreen, Nat.zero_add]
    rfl

/-! ## The cursor -/

theorem fault_eq_none_of_isLive (h : Machine.Reachable p program s.machine) (hp : p.Registered)
    (hlive : s.state.isLive = true) : s.fault = none := (h.lifecycle hp).fault_eq_none hlive

/-- A step that leaves no fault moves the cursor on. -/
theorem cursor_advance_of_unfaulted (h : Machine.Reachable p program s.machine)
    (hp : p.Registered) (hlive : s.state.isLive = true)
    (hfault : s.advance.session.fault = none) : s.advance.session.cursor = s.cursor + 1 := by
  have hspec := Session.advance_spec h hp
  cases hadvance : s.advance with | mk next events result
  rw [hadvance] at hspec hfault
  cases hspec with
  | refused hstopped => exact nomatch hlive.symm.trans hstopped
  | faulted => cases hfault
  | applied => rfl

/-- As long as nothing is reset and no step fails, the cursor counts the steps. -/
theorem cursor_obeying (h : Machine.Reachable p program s.machine) (hp : p.Registered)
    {commands : List Command}
    (hlive : ∀ k < commands.length, (obeying s (commands.take k)).state.isLive = true)
    (hreset : Command.reset ∉ commands) (hfault : (obeying s commands).fault = none) :
    (obeying s commands).cursor = s.cursor + commands.count .next := by
  induction commands generalizing s with
  | nil => rfl
  | cons c rest ih =>
    have hreachable := Session.reachable_call hp h c.call
    have hfirst : s.state.isLive = true := hlive 0 (Nat.zero_lt_succ _)
    have hunfaulted : (s.call c.call).1.fault = none := by
      cases rest with
      | nil => exact hfault
      | cons c' rest =>
        exact fault_eq_none_of_isLive hreachable hp (hlive 1 (by simp))
    have hrest := ih hreachable (fun k hk ↦ hlive (k + 1) (Nat.succ_lt_succ hk))
      (fun hmem ↦ hreset (.tail _ hmem)) hfault
    rw [obeying_cons, hrest]
    cases c with
    | next =>
      have hcursor := cursor_advance_of_unfaulted h hp hfirst hunfaulted
      show s.advance.session.cursor + _ = _
      rw [hcursor, List.count_cons_self]
      omega
    | reset => exact absurd List.mem_cons_self hreset
    | quit =>
      show s.abort.1.cursor + _ = _
      rw [Session.cursor_abort, List.count_cons_of_ne (by decide)]

/-- From a reset on, it counts the steps after the reset. -/
theorem cursor_obeying_reset (h : Machine.Reachable p program s.machine) (hp : p.Registered)
    {before after : List Command}
    (hlive : ∀ k < after.length,
      (obeying s (before ++ .reset :: after.take k)).state.isLive = true)
    (hreset : Command.reset ∉ after)
    (hfault : (obeying s (before ++ .reset :: after)).fault = none) :
    (obeying s (before ++ .reset :: after)).cursor = after.count .next := by
  have hagain : ∀ commands, obeying s (before ++ .reset :: commands) =
      obeying (obeying s before).reset.1 commands := fun commands ↦ obeying_append _ _ _
  have hstart : (obeying s before).reset.1.cursor = 0 := by
    rw [Session.reset_eq (reachable_obeying h hp before) hp]
    rfl
  rw [hagain] at hfault ⊢
  have hcursor := cursor_obeying (s := (obeying s before).reset.1)
    (reachable_obeying h hp before).reset hp
    (fun k hk ↦ by
      rw [← hagain]
      exact hlive k hk) hreset hfault
  rw [hcursor, hstart, Nat.zero_add]

/-! ## What a user can rely on -/

/-- The step loop on these lines of input: what it has read of them, and which commands the session
has obeyed, each behind a number of lines that have been rejected. -/
structure Obeys (s : Session) (lines read : List Line) (script : List (Nat × Command))
    (t : Transcript Ending) : Prop where
  lines_eq : lines = read ++ t.unread
  /-- The last line read is the last command, unless input has run out, which is to quit. -/
  commands_eq :
    commandsOf script = read.filterMap stepQuestion.answer? ∧
        (∀ line ∈ read.getLast?, (stepQuestion.answer? line).isSome = true) ∨
      t.unread = [] ∧ commandsOf script = read.filterMap stepQuestion.answer? ++ [.quit]
  /-- The session is given no command once it has ended. -/
  live : ∀ k < script.length, (obeying s ((commandsOf script).take k)).state = .loaded ∨
    (obeying s ((commandsOf script).take k)).state = .running
  ended : (obeying s (commandsOf script)).state = .completed ∨
    (obeying s (commandsOf script)).state = .aborted
  session : t.result.session = obeying s (commandsOf script)
  verdict : t.result.verdict = match t.result.session.fault with
    | some fault => .faulted fault
    | none => .finished
  output : t.output = printed s s.statusLine script
  /-- There is a frame before the first command and one after each. -/
  frames : t.output.filterMap Output.frame? = shown s s.statusLine (commandsOf script) ∧
    (t.output.filterMap Output.frame?).length = script.length + 1
  rejections : t.output.count (.line Question.rejection) =
    read.countP fun line ↦ (stepQuestion.answer? line).isNone
  reset : ∀ {k : Nat}, (commandsOf script)[k]? = some .reset →
    (obeying s ((commandsOf script).take k)).reset.2 = .ok ()
  quit : ∀ {k : Nat}, (commandsOf script)[k]? = some .quit →
    (obeying s ((commandsOf script).take k)).abort.2 = .ok ()
  /-- If nothing has failed, the cursor counts the steps, from the last reset on if there is one. -/
  cursor : t.result.session.fault = none → Command.reset ∉ commandsOf script →
    t.result.session.cursor = s.cursor + (commandsOf script).count .next
  cursor_reset : ∀ {before after : List Command}, t.result.session.fault = none →
    commandsOf script = before ++ .reset :: after → Command.reset ∉ after →
    t.result.session.cursor = after.count .next

/-- What a script says of a session is what the step loop does on its lines: what it reads, the
commands it obeys, what it prints and how it ends. -/
theorem Script.obeys {lines rest : List Line} {script : List (Nat × Command)}
    (hscript : Script s lines script rest) (h : Machine.Reachable p program s.machine)
    (hp : p.Registered) :
    ∃ read, Obeys s lines read script (dialogue.runFrom (turn s s.statusLine) lines) := by
  obtain ⟨hlive, hend⟩ := hscript.isLive_obeying
  obtain ⟨read, hread, hcommands, hsum⟩ := hscript.exists_read
  have hlength : (commandsOf script).length = script.length := List.length_map _
  have hbefore : ∀ {k : Nat} {c : Command}, (commandsOf script)[k]? = some c →
      (obeying s ((commandsOf script).take k)).state.isLive = true := by
    intro k c hk
    exact hlive k (hlength ▸ (List.getElem?_eq_some_iff.mp hk).1)
  have hreachable := reachable_obeying h hp
  refine ⟨read, ?_⟩
  rw [hscript.runFrom_turn h hp]
  exact {
    lines_eq := hread
    commands_eq := hcommands
    live := fun k hk ↦ RunState.isLive_eq_true_iff.mp (hlive k hk)
    ended := RunState.isLive_eq_false_iff.mp hend
    session := rfl
    verdict := verdict_eq (hreachable _) hp
    output := rfl
    frames := by
      rw [frames_printed, length_shown, hlength]
      exact ⟨rfl, rfl⟩
    rejections := (count_printed _ _ _).trans hsum
    reset := by
      intro k _
      rw [Session.reset_eq (hreachable _) hp]
    quit := by
      intro k hk
      rw [Session.abort_of_live (hbefore hk)]
    cursor := fun hfault hreset ↦
      cursor_obeying h hp (fun k hk ↦ hlive k (hlength ▸ hk)) hreset hfault
    cursor_reset := by
      intro before after hfault hsplit hreset
      show (obeying s (commandsOf script)).cursor = _
      rw [hsplit] at hlength ⊢
      refine cursor_obeying_reset h hp (fun k hk ↦ ?_) hreset (hsplit ▸ hfault)
      have htake : (commandsOf script).take (before.length + (k + 1)) =
          before ++ .reset :: after.take k := by
        rw [hsplit, List.take_length_add_append, List.take_succ_cons]
      rw [← htake]
      refine hlive _ ?_
      rw [← hlength, List.length_append, List.length_cons]
      omega }

end Stepping

end Console

open Console

/-- On input that is text, the step loop hands the session the commands that are typed, one by one
until the session has ended, and does nothing else to it. -/
theorem step_loop_folds_commands {p : Profile} {program : Program} {s : Session}
    (hp : p.Registered) (h : Machine.Reachable p program s.machine) {lines : List Line}
    (htext : Line.garbled ∉ lines) :
    (∀ {text : String} {c : Command},
      stepQuestion.answer? (.text text) = some c ↔ c.Spelled text) ∧
    ∃ read script, Stepping.Obeys s lines read script (drive false s lines) := by
  obtain ⟨script, rest, hscript⟩ := Stepping.exists_script s htext
  obtain ⟨read, hobeys⟩ := hscript.obeys h hp
  exact ⟨Command.ofText?_eq_some_iff, read, script, hobeys⟩

/-- Input that takes a step, starts again, and takes four steps, with something else typed first and
last. -/
def Console.stepsAfterReset : List Line :=
  [.text "\n", .text "jump\n", .text " RESET \n", .text "\n", .text "\t\n", .text "\n", .text "\n",
    .text "q\n"]

/-- The fourth step after a reset divides by zero, and what is typed behind it is not read. -/
theorem step_loop_storeThenDivide :
    ∃ s read script, Session.ofProgram .ias .storeThenDivide {} = .ok s ∧
      Stepping.Obeys s stepsAfterReset read script (drive false s stepsAfterReset) ∧
      Stepping.commandsOf script = [.next, .reset, .next, .next, .next, .next] ∧
      (drive false s stepsAfterReset).result.verdict = .faulted (.divisionByZero .mq) := by
  have hp : Profile.ias.Registered := ⟨.ias, .simplified, rfl⟩
  have hl := Machine.load_storeThenDivide
  have hopen : Session.ofProgram .ias .storeThenDivide {} =
      .ok ⟨Machine.fresh .ias .storeThenDivide, {}, false⟩ :=
    Session.ofProgram_of_validate hp rfl {}
  have htext : Line.garbled ∉ stepsAfterReset := by decide
  obtain ⟨-, read, script, hobeys⟩ :=
    step_loop_folds_commands (s := ⟨Machine.fresh .ias .storeThenDivide, {}, false⟩) hp (.load hl)
      htext
  have hunread : (drive false ⟨Machine.fresh .ias .storeThenDivide, {}, false⟩
      stepsAfterReset).unread = [.text "q\n"] := by decide +kernel
  refine ⟨_, read, script, hopen, hobeys, ?_, by decide +kernel⟩
  have hread : stepsAfterReset.take 7 ++ [.text "q\n"] = read ++ [.text "q\n"] := by
    rw [← hunread, ← hobeys.lines_eq, hunread]
    rfl
  obtain rfl := List.append_cancel_right hread
  rcases hobeys.commands_eq with ⟨hcommands, -⟩ | ⟨hnone, -⟩
  · rw [hcommands]
    decide +kernel
  · rw [hunread] at hnone
    cases hnone

end FetchExecute
