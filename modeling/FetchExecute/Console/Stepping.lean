import FetchExecute.Console.Dialogue
import FetchExecute.Engine

/-!
# Stepping through a session

The step loop shows a frame, asks for a command, obeys it, and shows the next
frame, until the session has ended. In automatic mode every command is to take
the next step, and none is asked for.
-/

namespace FetchExecute.Console

open Text

inductive Command where
  | next
  | reset
  | quit
deriving DecidableEq, Repr

/-- Commands count in any case of ASCII letters, and between blanks. -/
def Command.ofText? (text : String) : Option Command :=
  match (trim text).toLower with
  | "" => some .next
  | "r" | "reset" => some .reset
  | "q" | "quit" | "exit" => some .quit
  | _ => none

def stepQuestion : Question Command := ⟨"ENTER: next step | r: reset | q: quit > ", Command.ofText?⟩

/-- How the step loop ended. -/
inductive Verdict where
  /-- The session came to its end, or was stopped. -/
  | finished
  | faulted (fault : Fault)
  /-- A line of input was not text. -/
  | garbled
deriving DecidableEq, Repr

/-- The session at the end of the loop. -/
structure Ending where
  session : Session
  verdict : Verdict
deriving DecidableEq, Repr

namespace Stepping

/-- Takes a step and tells what it did, or what kept it from being taken. -/
def advance (s : Session) : Session × String :=
  let r := s.advance
  (r.session, match r.result with
    | .ok report => report.description
    | .error fault => "error: " ++ fault.message)

/-- A frame is printed on a clear screen, except in automatic mode. -/
def frame (auto : Bool) (s : Session) (message : String) : List Output :=
  (if auto then [] else [.clear]) ++ [.frame s.snapshot message]

def closingLine : RunState → String
  | .completed => "\nSimulation completed!"
  | _ => "\nSimulation aborted."

def verdict (s : Session) : Verdict :=
  match s.state, s.fault with
  | .completed, _ | _, none => .finished
  | _, some fault => .faulted fault

/-- The last frame of a session that has ended. -/
def finish (auto : Bool) (s : Session) (message : String) : List Output × Ending :=
  (frame auto s message ++ [.line (closingLine s.state)], ⟨s, verdict s⟩)

/-- Shows a session, and asks what to do if it has not ended. -/
def turn (s : Session) (message : String) : Turn Session Ending :=
  if s.state.isLive then
    .wait (frame false s message ++ [.line (rule '-'), .question stepQuestion.wording]) s
  else .done (finish false s message).1 (finish false s message).2

/-- Stops the session. -/
def quit (s : Session) : List Output × Ending :=
  match s.abort with
  | (s', .ok ()) => finish false s' s'.statusLine
  | (s', .error fault) => ([], ⟨s', .faulted fault⟩)

def obey (s : Session) : Command → Turn Session Ending
  | .next => turn (advance s).1 (advance s).2
  | .reset =>
    match s.reset with
    | (s', .ok ()) => turn s' s'.statusLine
    | (s', .error fault) => .done [] ⟨s', .faulted fault⟩
  | .quit => .done (quit s).1 (quit s).2

/-- The step loop on typed commands. The end of input stops the session. -/
def dialogue : Dialogue Session Ending where
  receive s line := (stepQuestion.receive line).bind (fun _ => s) fun
    | .accepted command => obey s command
    | .garbled => .done [] ⟨s, .garbled⟩
    | .missing => .done (quit s).1 (quit s).2
  close := quit

/-- The step loop in automatic mode, for a session with `n` steps left. -/
def autoRun : Nat → Session → String → List Output × Ending
  | 0, s, message => finish true s message
  | n + 1, s, message =>
    if s.state.isLive then
      let rest := autoRun n (advance s).1 (advance s).2
      (frame true s message ++ rest.1, rest.2)
    else finish true s message

/-- The first turn of the step loop, which in automatic mode is the only one. -/
def opening (auto : Bool) (s : Session) : Turn Session Ending :=
  if auto then
    let all := autoRun (s.total - s.cursor) s s.statusLine
    .done all.1 all.2
  else turn s s.statusLine

end Stepping

/-- Steps through a session to its end. -/
def drive (auto : Bool) (s : Session) (lines : List Line) : Transcript Ending :=
  Stepping.dialogue.runFrom (Stepping.opening auto s) lines

end FetchExecute.Console
