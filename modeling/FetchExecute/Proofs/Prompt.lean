import FetchExecute.Proofs.Dialogue
import FetchExecute.Console.Stepping

/-!
# How much a question reads

A question is put to bytes, one line after the other: it is printed, a line is taken off
the input, and it is put again if that line is no answer (`Console.Question.prompt`).
What is unread gets shorter with every line, so this ends, and it is asked at most once
more than there are lines.

What the input is cut into does not depend on how it is read: there is one way to cut
it behind every newline (`Console.lines_iff`).  In terms of these lines a question reads
those that it rejects and the line that settles it, and not a byte more
(`question_reads_rejected_lines`).

| the lines | what comes of the question |
|---|---|
| some rejected ones, then an answer | the answer, and what stands behind it is unread |
| rejected ones only | no answer, and nothing is unread |
| some without an answer, then one that is not text | an error |
-/

namespace FetchExecute

namespace Console

/-! ## Lines of input -/

/-- The lines of some bytes: each ends with its only newline, but the last one may lack it. -/
inductive Lines : List UInt8 → List (List UInt8) → Prop
  | nil : Lines [] []
  | unended {line : List UInt8} : line ≠ [] → newline ∉ line → Lines line [line]
  | cons {front bytes : List UInt8} {lines : List (List UInt8)} : newline ∉ front →
      Lines bytes lines → Lines (front ++ newline :: bytes) ((front ++ [newline]) :: lines)

/-- The first line of some bytes, with its newline if it has one, and what stands behind it. -/
def takeLine : List UInt8 → List UInt8 × List UInt8
  | [] => ([], [])
  | b :: rest =>
    if b = newline then ([b], rest)
    else (b :: (takeLine rest).1, (takeLine rest).2)

section

variable {bytes front line : List UInt8} {lines : List (List UInt8)}

/-- A line is taken up to its newline. -/
theorem takeLine_append_newline (h : newline ∉ front) (rest : List UInt8) :
    takeLine (front ++ newline :: rest) = (front ++ [newline], rest) := by
  induction front with
  | nil => rfl
  | cons b front ih =>
    obtain ⟨hb, hfront⟩ := List.ne_and_not_mem_of_not_mem_cons h
    rw [List.cons_append, takeLine, if_neg (Ne.symm hb), ih hfront]
    rfl

theorem takeLine_of_notMem (h : newline ∉ line) : takeLine line = (line, []) := by
  induction line with
  | nil => rfl
  | cons b line ih =>
    obtain ⟨hb, hline⟩ := List.ne_and_not_mem_of_not_mem_cons h
    rw [takeLine, if_neg (Ne.symm hb), ih hline]

theorem takeLine_append (bytes : List UInt8) :
    (takeLine bytes).1 ++ (takeLine bytes).2 = bytes := by
  induction bytes with
  | nil => rfl
  | cons b rest ih =>
    rw [takeLine]
    split
    · rfl
    · exact congrArg (b :: ·) ih

theorem takeLine_ne_nil (h : bytes ≠ []) : (takeLine bytes).1 ≠ [] := by
  cases bytes with
  | nil => exact absurd rfl h
  | cons b rest =>
    rw [takeLine]
    split
    · exact List.cons_ne_nil b []
    · exact List.cons_ne_nil b _

/-- What is unread gets shorter with every line. -/
theorem length_takeLine_lt (h : bytes ≠ []) : (takeLine bytes).2.length < bytes.length := by
  have hlength := congrArg List.length (takeLine_append bytes)
  have hpos := List.length_pos_iff.mpr (takeLine_ne_nil h)
  rw [List.length_append] at hlength
  omega

theorem cutLines_append_newline (h : newline ∉ front) (rest : List UInt8) :
    cutLines (front ++ newline :: rest) = (front ++ [newline]) :: cutLines rest := by
  induction front with
  | nil => exact if_pos rfl
  | cons b front ih =>
    obtain ⟨hb, hfront⟩ := List.ne_and_not_mem_of_not_mem_cons h
    rw [List.cons_append, cutLines, if_neg (Ne.symm hb), ih hfront]
    rfl

theorem cutLines_of_notMem (hne : line ≠ []) (h : newline ∉ line) : cutLines line = [line] := by
  induction line with
  | nil => exact absurd rfl hne
  | cons b line ih =>
    obtain ⟨hb, hline⟩ := List.ne_and_not_mem_of_not_mem_cons h
    rw [cutLines, if_neg (Ne.symm hb)]
    cases line with
    | nil => rfl
    | cons c line => rw [ih nofun hline]

/-- Cutting bytes gives their lines. -/
theorem lines_cutLines (bytes : List UInt8) : Lines bytes (cutLines bytes) := by
  induction bytes with
  | nil => exact .nil
  | cons b rest ih =>
    rw [cutLines]
    split
    · next hb =>
      subst b
      exact @Lines.cons [] _ _ nofun ih
    · next hb =>
      -- The first line of the rest, if there is one, is begun by `b`.
      have hfirst : ∀ {front : List UInt8}, newline ∉ front → newline ∉ b :: front :=
        List.not_mem_cons_of_ne_of_not_mem (Ne.symm hb)
      generalize cutLines rest = lines at ih
      cases ih with
      | nil => exact .unended nofun (hfirst nofun)
      | unended _ hline => exact .unended nofun (hfirst hline)
      | cons hfront hrest => exact .cons (hfirst hfront) hrest

/-- There is one way to cut input into lines. -/
theorem lines_iff : Lines bytes lines ↔ cutLines bytes = lines := by
  constructor
  · intro h
    induction h with
    | nil => rfl
    | unended hne hline => exact cutLines_of_notMem hne hline
    | cons hfront _ ih => rw [cutLines_append_newline hfront, ih]
  · rintro rfl
    exact lines_cutLines bytes

/-- Lines make up the bytes they are lines of. -/
theorem Lines.flatten_eq (h : Lines bytes lines) : lines.flatten = bytes := by
  induction h with
  | nil => rfl
  | unended => exact List.flatten_singleton
  | cons _ _ ih => rw [List.flatten_cons, ih, List.append_assoc, List.singleton_append]

/-- The first line is what is read first. -/
theorem Lines.of_cons (h : Lines bytes (line :: lines)) :
    bytes ≠ [] ∧ takeLine bytes = (line, lines.flatten) ∧ Lines lines.flatten lines := by
  cases h with
  | unended hne hline => exact ⟨hne, takeLine_of_notMem hline, .nil⟩
  | cons hfront hrest =>
    rw [hrest.flatten_eq]
    exact ⟨by simp, takeLine_append_newline hfront _, hrest⟩

/-- The lines are the one that is taken first and those of the rest. -/
theorem linesOf_eq_cons (h : bytes ≠ []) :
    linesOf bytes = .ofBytes (takeLine bytes).1 :: linesOf (takeLine bytes).2 := by
  have hlines := lines_cutLines bytes
  cases hcut : cutLines bytes with
  | nil =>
    rw [hcut] at hlines
    exact absurd hlines.flatten_eq.symm h
  | cons line others =>
    rw [hcut] at hlines
    obtain ⟨-, htake, hothers⟩ := hlines.of_cons
    rw [linesOf, hcut, htake, linesOf, lines_iff.mp hothers, List.map_cons]

end

/-! ## Putting a question -/

variable {α : Type}

/-- What a question has printed, what has come of it and the bytes that it has not read. -/
structure Prompted (α : Type) where
  output : List Output
  answer : Answer α
  unread : List UInt8
deriving DecidableEq

/-- Printed before the rest. -/
def Prompted.after (before : List Output) (p : Prompted α) : Prompted α :=
  { p with output := before ++ p.output }

namespace Question

/-- Puts the question and reads a line until one settles it. -/
def prompt (q : Question α) (input : List UInt8) : Prompted α :=
  match input with
  | [] => ⟨[.question q.wording], .missing, []⟩
  | b :: bytes =>
    let taken := takeLine (b :: bytes)
    match Line.ofBytes taken.1 with
    | .garbled => ⟨[.question q.wording], .garbled, taken.2⟩
    | .text s =>
      match q.parse s with
      | some a => ⟨[.question q.wording], .accepted a, taken.2⟩
      | none => (q.prompt taken.2).after [.question q.wording, .line rejection]
termination_by input.length
decreasing_by exact length_takeLine_lt (List.cons_ne_nil b bytes)

section

variable {q : Question α} {a : α} {input line : List UInt8} {rest : List (List UInt8)}

theorem prompt_nil (q : Question α) : q.prompt [] = ⟨[.question q.wording], .missing, []⟩ := by
  rw [prompt]

/-- What is done with the first line. -/
theorem prompt_of_lines (q : Question α) (h : Lines input (line :: rest)) :
    q.prompt input =
      match Line.ofBytes line with
      | .garbled => ⟨[.question q.wording], .garbled, rest.flatten⟩
      | .text s =>
        match q.parse s with
        | some a => ⟨[.question q.wording], .accepted a, rest.flatten⟩
        | none => (q.prompt rest.flatten).after [.question q.wording, .line rejection] := by
  obtain ⟨hne, htake, -⟩ := h.of_cons
  obtain ⟨b, bytes, rfl⟩ := List.exists_cons_of_ne_nil hne
  rw [prompt, htake]

/-- A line that answers ends the loop, and the bytes behind it are left. -/
theorem prompt_of_accepted (h : Lines input (line :: rest))
    (ha : q.answer? (.ofBytes line) = some a) :
    q.prompt input = ⟨[.question q.wording], .accepted a, rest.flatten⟩ := by
  rw [q.prompt_of_lines h]
  cases hline : Line.ofBytes line with
  | garbled =>
    rw [hline] at ha
    cases ha
  | text s =>
    have hparse : q.parse s = some a := by rwa [hline] at ha
    simp only [hparse]

/-- A line that is not text ends the loop without an answer. -/
theorem prompt_of_garbled (h : Lines input (line :: rest)) (hline : Line.ofBytes line = .garbled) :
    q.prompt input = ⟨[.question q.wording], .garbled, rest.flatten⟩ := by
  rw [q.prompt_of_lines h, hline]

/-- After any other line the loop is entered again on the bytes behind it. -/
theorem prompt_of_rejects (h : Lines input (line :: rest)) (hr : q.Rejects (.ofBytes line)) :
    q.prompt input =
      (q.prompt rest.flatten).after [.question q.wording, .line rejection] := by
  obtain ⟨s, hline, hparse⟩ := hr
  simp only [q.prompt_of_lines h, hline, hparse]

theorem ask_of_rejected {s : String} (h : q.parse s = none) (lines : List Line) :
    q.ask (.text s :: lines) =
      (q.ask lines).after [.question q.wording, .line rejection] := by
  rw [ask, Dialogue.runFrom_wait, Dialogue.run_cons_of_wait (receive_of_rejected h)]
  rfl

/-- A question is put to bytes as it is put to their lines. -/
theorem ask_linesOf (q : Question α) (input : List UInt8) :
    q.ask (linesOf input) =
      ⟨(q.prompt input).output, (q.prompt input).answer, linesOf (q.prompt input).unread⟩ := by
  fun_induction prompt q input with
  | case1 => rfl
  | case2 b bytes taken hline =>
    rw [linesOf_eq_cons (List.cons_ne_nil b bytes), hline]
    rfl
  | case3 b bytes taken s hline a hparse =>
    rw [linesOf_eq_cons (List.cons_ne_nil b bytes), hline, ask, Dialogue.runFrom_wait,
      Dialogue.run_cons_of_done (receive_of_accepted hparse)]
    rfl
  | case4 b bytes taken s hline hparse ih =>
    rw [linesOf_eq_cons (List.cons_ne_nil b bytes), hline, ask_of_rejected hparse, ih]
    rfl

/-- How a line can be taken. -/
theorem line_cases (q : Question α) (line : Line) :
    (∃ a, q.answer? line = some a) ∨ line = .garbled ∨ q.Rejects line := by
  cases line with
  | garbled => exact .inr (.inl rfl)
  | text s =>
    cases h : q.parse s with
    | some a => exact .inl ⟨a, h⟩
    | none => exact .inr (.inr ⟨s, rfl, h⟩)

/-! ### What comes of it -/

/-- The question is put once more for every line that is rejected before one that settles it. -/
theorem prompt_append_of_rejects {rejected : List (List UInt8)} {answer : Answer α}
    {unread : List UInt8} (h : Lines input (rejected ++ rest))
    (hr : ∀ l ∈ rejected, q.Rejects (.ofBytes l))
    (hrest : Lines rest.flatten rest →
      q.prompt rest.flatten = ⟨[.question q.wording], answer, unread⟩) :
    q.prompt input = ⟨.question q.wording :: q.retries rejected.length, answer, unread⟩ := by
  induction rejected generalizing input with
  | nil =>
    obtain rfl : rest.flatten = input := h.flatten_eq
    exact hrest h
  | cons l rejected ih =>
    obtain ⟨hl, hothers⟩ := List.forall_mem_cons.mp hr
    rw [prompt_of_rejects h hl, ih h.of_cons.2.2 hothers, List.length_cons, retries_succ]
    rfl

/-- A line that is not text is an error, even behind lines without an answer. -/
theorem answer_prompt_of_garbled {before : List (List UInt8)}
    (h : Lines input (before ++ line :: rest))
    (hnone : ∀ l ∈ before, q.answer? (.ofBytes l) = none) (hline : Line.ofBytes line = .garbled) :
    (q.prompt input).answer = .garbled := by
  induction before generalizing input with
  | nil => rw [prompt_of_garbled h hline]
  | cons l before ih =>
    obtain ⟨hl, hothers⟩ := List.forall_mem_cons.mp hnone
    rcases q.line_cases (.ofBytes l) with ⟨a, ha⟩ | hgarbled | hrejects
    · rw [hl] at ha
      cases ha
    · rw [prompt_of_garbled h hgarbled]
    · rw [prompt_of_rejects h hrejects]
      exact ih h.of_cons.2.2 hothers

/-- The question is put once for every line that is read, and once more at the end of input. -/
theorem exists_retries_prompt {lines : List (List UInt8)} (h : Lines input lines) :
    ∃ n ≤ lines.length, (q.prompt input).output = .question q.wording :: q.retries n ∧
      (q.prompt input).unread = (lines.drop (n + 1)).flatten := by
  induction lines generalizing input with
  | nil =>
    obtain rfl : [] = input := h.flatten_eq
    exact ⟨0, Nat.le_refl 0, by rw [prompt_nil]; rfl, by rw [prompt_nil]; rfl⟩
  | cons l lines ih =>
    rcases q.line_cases (.ofBytes l) with ⟨a, ha⟩ | hgarbled | hrejects
    · rw [prompt_of_accepted h ha]
      exact ⟨0, Nat.zero_le _, rfl, rfl⟩
    · rw [prompt_of_garbled h hgarbled]
      exact ⟨0, Nat.zero_le _, rfl, rfl⟩
    · obtain ⟨n, hle, houtput, hunread⟩ := ih h.of_cons.2.2
      rw [prompt_of_rejects h hrejects]
      refine ⟨n + 1, Nat.succ_le_succ hle, ?_, hunread⟩
      rw [Prompted.after, houtput, retries_succ]
      rfl

end

/-- What comes of putting the question to the input, by what its lines are. -/
structure Consumes (q : Question α) (input : List UInt8) (p : Prompted α) : Prop where
  answered : ∀ {rejected rest : List (List UInt8)} {line : List UInt8} {a : α},
    Lines input (rejected ++ line :: rest) → (∀ l ∈ rejected, q.Rejects (.ofBytes l)) →
      q.answer? (.ofBytes line) = some a →
        p = ⟨.question q.wording :: q.retries rejected.length, .accepted a, rest.flatten⟩
  exhausted : ∀ {lines : List (List UInt8)}, Lines input lines →
    (∀ l ∈ lines, q.Rejects (.ofBytes l)) →
      p = ⟨.question q.wording :: q.retries lines.length, .missing, []⟩
  failed : ∀ {before rest : List (List UInt8)} {line : List UInt8},
    Lines input (before ++ line :: rest) → (∀ l ∈ before, q.answer? (.ofBytes l) = none) →
      Line.ofBytes line = .garbled → p.answer = .garbled
  bounded : ∀ {lines : List (List UInt8)}, Lines input lines → ∃ n ≤ lines.length,
    p.output = .question q.wording :: q.retries n ∧ p.unread = (lines.drop (n + 1)).flatten

/-- What a question reads and what it leaves, in each of its three outcomes. -/
theorem consumes_prompt (q : Question α) (input : List UInt8) :
    q.Consumes input (q.prompt input) where
  answered := by
    intro rejected rest line a h hr ha
    exact prompt_append_of_rejects h hr fun hrest ↦ prompt_of_accepted hrest ha
  exhausted := by
    intro lines h hr
    rw [← List.append_nil lines] at h
    exact prompt_append_of_rejects h hr fun _ ↦ q.prompt_nil
  failed := answer_prompt_of_garbled
  bounded := exists_retries_prompt

end Question

end Console

open Console

/-- A question reads the lines that it rejects and the one that settles it, and what it prints
counts them.  Every input is cut into lines in one way; it is an answer, the end of input or a line
that is not text that ends the questioning, whichever comes first, and it ends within as many lines
as there are. -/
theorem question_reads_rejected_lines {α : Type} (q : Question α) (input : List UInt8) :
    (∀ lines, Lines input lines ↔ cutLines input = lines) ∧ q.Consumes input (q.prompt input) ∧
      q.ask (linesOf input) =
        ⟨(q.prompt input).output, (q.prompt input).answer, linesOf (q.prompt input).unread⟩ :=
  ⟨fun _ ↦ lines_iff, q.consumes_prompt input, q.ask_linesOf input⟩

/-- Two lines that are no command, one that is, and one that is left. -/
def Console.misspelled : List UInt8 := "stop\nreset!\n R\nq".toUTF8.toList

theorem stepQuestion_reads_misspelled :
    stepQuestion.prompt misspelled =
      ⟨.question stepQuestion.wording :: stepQuestion.retries 2, .accepted .reset, [113]⟩ ∧
    stepQuestion.prompt (misspelled.take 12) =
      ⟨.question stepQuestion.wording :: stepQuestion.retries 2, .missing, []⟩ ∧
    (stepQuestion.prompt (misspelled.take 5 ++ 255 :: misspelled.drop 12)).answer = .garbled := by
  obtain ⟨hlines, hreads, -⟩ := question_reads_rejected_lines stepQuestion misspelled
  obtain ⟨hlines', hreads', -⟩ := question_reads_rejected_lines stepQuestion (misspelled.take 12)
  obtain ⟨hlines'', hreads'', -⟩ := question_reads_rejected_lines stepQuestion
    (misspelled.take 5 ++ 255 :: misspelled.drop 12)
  have hrejects : ∀ l ∈ ["stop\n".toUTF8.toList, "reset!\n".toUTF8.toList],
      stepQuestion.Rejects (.ofBytes l) := by
    rw [List.forall_mem_cons, List.forall_mem_singleton]
    exact ⟨⟨"stop\n", by decide +kernel, by decide +kernel⟩,
      ⟨"reset!\n", by decide +kernel, by decide +kernel⟩⟩
  have hreset : stepQuestion.answer? (.ofBytes " R\n".toUTF8.toList) = some .reset := by
    decide +kernel
  have hcut : Lines misspelled (["stop\n".toUTF8.toList, "reset!\n".toUTF8.toList] ++
      " R\n".toUTF8.toList :: [[113]]) := (hlines _).mpr (by decide +kernel)
  have hcut' : Lines (misspelled.take 12) ["stop\n".toUTF8.toList, "reset!\n".toUTF8.toList] :=
    (hlines' _).mpr (by decide +kernel)
  have hcut'' : Lines (misspelled.take 5 ++ 255 :: misspelled.drop 12)
      (["stop\n".toUTF8.toList] ++ (255 :: " R\n".toUTF8.toList) :: [[113]]) :=
    (hlines'' _).mpr (by decide +kernel)
  exact ⟨hreads.answered hcut hrejects hreset, hreads'.exhausted hcut' hrejects,
    hreads''.failed hcut'' (by decide +kernel) (by decide +kernel)⟩

end FetchExecute
