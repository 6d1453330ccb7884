import FetchExecute.Snapshot

/-!
# Dialogues

A dialogue prints, waits for a line of input, and goes on from there until it
has come to a result. It is given by its answer to each line, in whatever state
it waits, and by what it does at the end of input. Running one on a list of
lines tells what it prints, its result, and the lines it has left unread.

A question is the simplest dialogue: it is put again until a line answers it.
-/

namespace FetchExecute.Console

variable {σ τ α β : Type}

/-! ## Input -/

/-- A line of input. -/
inductive Line where
  | text (s : String)
  /-- The bytes are not UTF-8. -/
  | garbled
deriving DecidableEq, Repr

def Line.ofBytes (bytes : List UInt8) : Line :=
  match String.fromUTF8? ⟨bytes.toArray⟩ with
  | some s => .text s
  | none => .garbled

def newline : UInt8 := 10

/-- Bytes cut after every newline. -/
def cutLines : List UInt8 → List (List UInt8)
  | [] => []
  | b :: rest =>
    if b = newline then [b] :: cutLines rest
    else match cutLines rest with
      | [] => [[b]]
      | line :: others => (b :: line) :: others

/-- The lines of input, each with its newline if it has one. -/
def linesOf (bytes : List UInt8) : List Line := (cutLines bytes).map Line.ofBytes

/-! ## Output -/

inductive Output where
  /-- Clears the screen. -/
  | clear
  | frame (snapshot : Snapshot) (message : String)
  | line (text : String)
  /-- Text after which input is awaited on the same line. -/
  | question (wording : String)
deriving DecidableEq, Repr

def Output.text : Output → String
  | .clear => "\x1b[2J\x1b[H"
  | .frame snapshot message => snapshot.render message ++ "\n"
  | .line text => text ++ "\n"
  | .question wording => wording

/-! ## Dialogues -/

/-- What a dialogue prints, and then either waits in a state or has a result. -/
inductive Turn (σ α : Type) where
  | wait (output : List Output) (state : σ)
  | done (output : List Output) (result : α)

namespace Turn

def output : Turn σ α → List Output
  | .wait out _ | .done out _ => out

/-- Printed before the rest of the turn. -/
def after (before : List Output) : Turn σ α → Turn σ α
  | .wait out s => .wait (before ++ out) s
  | .done out a => .done (before ++ out) a

/-- Continues a turn of a part: its states are states of the whole, and its result leads on. -/
def bind (t : Turn σ α) (embed : σ → τ) (next : α → Turn τ β) : Turn τ β :=
  match t with
  | .wait out s => .wait out (embed s)
  | .done out a => (next a).after out

end Turn

/-- What a dialogue has printed at its end, its result, and the input it has not read. -/
structure Transcript (α : Type) where
  output : List Output
  result : α
  unread : List Line
deriving DecidableEq

structure Dialogue (σ α : Type) where
  receive : σ → Line → Turn σ α
  /-- At the end of input. -/
  close : σ → List Output × α

namespace Dialogue

def run (d : Dialogue σ α) (s : σ) : List Line → Transcript α
  | [] => ⟨(d.close s).1, (d.close s).2, []⟩
  | line :: rest =>
    match d.receive s line with
    | .wait out s' =>
      let t := d.run s' rest
      { t with output := out ++ t.output }
    | .done out a => ⟨out, a, rest⟩

@[simp] theorem run_nil (d : Dialogue σ α) (s : σ) :
    d.run s [] = ⟨(d.close s).1, (d.close s).2, []⟩ := rfl

/-- A turn that waits goes on with the lines that follow, behind what it has printed. -/
theorem run_cons_of_wait {d : Dialogue σ α} {s s' : σ} {line : Line} {out : List Output}
    (h : d.receive s line = .wait out s') (rest : List Line) :
    d.run s (line :: rest) =
      { d.run s' rest with output := out ++ (d.run s' rest).output } := by
  simp [run, h]

/-- A turn that is done leaves the lines that follow unread. -/
theorem run_cons_of_done {d : Dialogue σ α} {s : σ} {line : Line} {out : List Output} {a : α}
    (h : d.receive s line = .done out a) (rest : List Line) :
    d.run s (line :: rest) = ⟨out, a, rest⟩ := by
  simp [run, h]

/-- Runs a dialogue that opens with a turn of its own. -/
def runFrom (d : Dialogue σ α) (opening : Turn σ α) (lines : List Line) : Transcript α :=
  match opening with
  | .wait out s =>
    let t := d.run s lines
    { t with output := out ++ t.output }
  | .done out a => ⟨out, a, lines⟩

end Dialogue

/-! ## Questions -/

structure Question (α : Type) where
  wording : String
  /-- Reads an answer from a line, its newline included. -/
  parse : String → Option α

inductive Answer (α : Type) where
  | accepted (a : α)
  /-- The line was not text. -/
  | garbled
  /-- There was no further line. -/
  | missing
deriving DecidableEq, Repr

namespace Question

def rejection : String := "Invalid option. Try again."

/-- A line that is no answer is rejected, and the question put again. -/
def receive (q : Question α) : Line → Turn Unit (Answer α)
  | .garbled => .done [] .garbled
  | .text s =>
    match q.parse s with
    | some a => .done [] (.accepted a)
    | none => .wait [.line rejection, .question q.wording] ()

theorem receive_of_accepted {q : Question α} {s : String} {a : α} (h : q.parse s = some a) :
    q.receive (.text s) = .done [] (.accepted a) := by
  simp [receive, h]

theorem receive_of_rejected {q : Question α} {s : String} (h : q.parse s = none) :
    q.receive (.text s) = .wait [.line rejection, .question q.wording] () := by
  simp [receive, h]

def dialogue (q : Question α) : Dialogue Unit (Answer α) where
  receive _ line := q.receive line
  close _ := ([], .missing)

/-- Puts the question to these lines of input. -/
def ask (q : Question α) (lines : List Line) : Transcript (Answer α) :=
  q.dialogue.runFrom (.wait [.question q.wording] ()) lines

end Question

end FetchExecute.Console
