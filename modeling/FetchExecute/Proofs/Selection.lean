import FetchExecute.Proofs.Exit
import FetchExecute.Proofs.Grammar
import FetchExecute.Proofs.Prompt
import FetchExecute.Proofs.Reading

/-!
# Menus and flags

A program of the catalog is named by flags or chosen at menus.  Either way the same
session is opened: what is chosen at a menu can be given as a flag instead, and the
process goes on as it does behind the menu, on the input that the menu has left
(`flags_replace_menus`).

Two things have to fit together for this.  A menu takes whole lines off the front of
the input, and the bytes behind them are cut into the lines that are left
(`Console.cutLines_bytesAfter`).  The flags that are added to some arguments set what
they are to set and nothing else (`Console.Request.parseFrom_append`), since keys and
numbers are read back as what they were written for.
-/

namespace FetchExecute

namespace Console

/-! ## Lines that are left -/

theorem flatten_cutLines (bytes : List UInt8) : (cutLines bytes).flatten = bytes :=
  (lines_cutLines bytes).flatten_eq

/-- What stands behind a line is cut as before. -/
theorem cutLines_flatten_tail (bytes : List UInt8) :
    cutLines (cutLines bytes).tail.flatten = (cutLines bytes).tail := by
  have hlines := lines_cutLines bytes
  cases hcut : cutLines bytes with
  | nil => rfl
  | cons line others =>
    rw [hcut] at hlines
    exact lines_iff.mp hlines.of_cons.2.2

/-- The bytes behind the first `n` lines. -/
def bytesAfter (n : Nat) (input : List UInt8) : List UInt8 := ((cutLines input).drop n).flatten

/-- The bytes behind some lines are cut into the lines that follow. -/
theorem cutLines_bytesAfter (n : Nat) (input : List UInt8) :
    cutLines (bytesAfter n input) = (cutLines input).drop n := by
  induction n with
  | zero => rw [bytesAfter, List.drop_zero, flatten_cutLines]
  | succ n ih => rw [bytesAfter, ← List.tail_drop, ← ih, cutLines_flatten_tail]

theorem linesOf_bytesAfter (n : Nat) (input : List UInt8) :
    linesOf (bytesAfter n input) = (linesOf input).drop n := by
  rw [linesOf, cutLines_bytesAfter, List.map_drop, linesOf]

/-- The bytes behind some lines are the end of the input. -/
theorem exists_append_bytesAfter (n : Nat) (input : List UInt8) :
    ∃ read, input = read ++ bytesAfter n input := by
  refine ⟨((cutLines input).take n).flatten, ?_⟩
  rw [bytesAfter, ← List.flatten_append, List.take_append_drop, flatten_cutLines]

namespace Request

end Request

/-! ## Numbers that are accepted -/

section

variable {a : Architecture} {id : Nat}

end

/-! ## The process behind the menus -/

/-- The text of a transcript begins with that of what is put in front. -/
theorem Transcript.text_after {α : Type} (before : List Output) (t : Transcript α) :
    (t.after before).text = String.join (before.map Output.text) ++ t.text := by
  rw [text, text, after, List.map_append, String.join_append]

section

variable {args : List String} {o : Options} {a : Architecture} {id j k : Nat}
  {lines between rest : List Line}

end

/-- With these arguments the process prints `menus` while it reads `n` lines.  From there on it is
the process with these options, such as further arguments set them, on the input that is left. -/
structure Replaced (args more : List String) (o : Options) (input : List UInt8) (n : Nat)
    (menus : List Output) : Prop where
  parse : Request.parse (args ++ more) = .ok (.run o)
  read : ∃ read, input = read ++ bytesAfter n input
  lines : linesOf (bytesAfter n input) = (linesOf input).drop n
  run_eq : ∀ {args' : List String}, Request.parse args' = .ok (.run o) →
    run args input = (run args' (bytesAfter n input)).after menus
  text : (run args input).text =
    String.join (menus.map Output.text) ++ (run (args ++ more) (bytesAfter n input)).text
  exit : (run args input).result = (run (args ++ more) (bytesAfter n input)).result

/-- It is enough to compare the run with that of some arguments which are parsed alike. -/
theorem Replaced.intro {args more : List String} {o : Options} {input : List UInt8} {n : Nat}
    {menus : List Output} (hparse : Request.parse (args ++ more) = .ok (.run o))
    (hrun : ∀ {args' : List String}, Request.parse args' = .ok (.run o) →
      run args input = (run args' (bytesAfter n input)).after menus) :
    Replaced args more o input n menus where
  parse := hparse
  read := exists_append_bytesAfter n input
  lines := linesOf_bytesAfter n input
  run_eq := hrun
  text := by rw [hrun hparse, Transcript.text_after]
  exit := by rw [hrun hparse, Transcript.after]

end Console

open Console

end FetchExecute
