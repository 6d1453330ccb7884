import FetchExecute.Console.Dialogue

/-!
# Dialogues and their parts

A dialogue reads its input from the front and leaves the rest
(`Dialogue.exists_read`).  Where a larger dialogue carries out a smaller one
(`Dialogue.Embeds`), running the larger one is running the smaller one, and then
going on with its result on the input it has left (`Dialogue.Embeds.runFrom`).
So a dialogue is understood part by part.

The smallest part is a question.  Lines that are no answer are passed over, each of
them told to be none, and the first other line, or the end of input, settles it.
`Question.Accepts` says which line gives the answer and counts those before it; this is
what the dialogue comes to (`Question.Accepts.run_eq`, `Question.exists_accepts_iff`).

What holds of all that one turn prints holds of the whole transcript, if the state that
the turn waits in keeps up what the next one needs (`Turn.Keeps`,
`Dialogue.forall_mem_output_run`).
-/

namespace FetchExecute.Console

variable {σ τ α β : Type}

/-- Printed before the rest of the transcript. -/
def Transcript.after (before : List Output) (t : Transcript α) : Transcript α :=
  { t with output := before ++ t.output }

/-- All that the turn prints is as `P` says, and if it waits, then in a state as `Q` says. -/
def Turn.Keeps (P : Output → Prop) (Q : σ → Prop) : Turn σ α → Prop
  | .wait out s => (∀ o ∈ out, P o) ∧ Q s
  | .done out _ => ∀ o ∈ out, P o

/-- What holds of some output may be put in front. -/
theorem Turn.Keeps.after {P : Output → Prop} {Q : σ → Prop} {t : Turn σ α} (ht : t.Keeps P Q)
    {before : List Output} (hbefore : ∀ o ∈ before, P o) : (t.after before).Keeps P Q := by
  cases t with
  | wait out s => exact ⟨List.forall_mem_append.mpr ⟨hbefore, ht.1⟩, ht.2⟩
  | done out a => exact List.forall_mem_append.mpr ⟨hbefore, ht⟩

namespace Dialogue

section

variable (d : Dialogue σ α)

@[simp] theorem runFrom_wait (out : List Output) (s : σ) (lines : List Line) :
    d.runFrom (.wait out s) lines = (d.run s lines).after out := rfl

@[simp] theorem runFrom_done (out : List Output) (a : α) (lines : List Line) :
    d.runFrom (.done out a) lines = ⟨out, a, lines⟩ := rfl

/-- A dialogue takes one line at a time. -/
theorem run_cons (s : σ) (line : Line) (rest : List Line) :
    d.run s (line :: rest) = d.runFrom (d.receive s line) rest := by
  cases h : d.receive s line with
  | wait out s' => exact run_cons_of_wait h rest
  | done out a => exact run_cons_of_done h rest

/-- Output in front of a turn stands in front of the transcript. -/
theorem runFrom_after (t : Turn σ α) (out : List Output) (lines : List Line) :
    d.runFrom (t.after out) lines = (d.runFrom t lines).after out := by
  cases t with
  | wait out' s => simp [Turn.after, Transcript.after, List.append_assoc]
  | done out' a => rfl

/-! ## What is read -/

/-- What a dialogue leaves unread is the end of the input. -/
theorem exists_read (s : σ) (lines : List Line) :
    ∃ read, lines = read ++ (d.run s lines).unread := by
  induction lines generalizing s with
  | nil => exact ⟨[], rfl⟩
  | cons line rest ih =>
    rw [run_cons]
    cases d.receive s line with
    | wait out s' =>
      obtain ⟨read, hread⟩ := ih s'
      exact ⟨line :: read, congrArg (line :: ·) hread⟩
    | done out a => exact ⟨[line], rfl⟩

theorem exists_read_runFrom (t : Turn σ α) (lines : List Line) :
    ∃ read, lines = read ++ (d.runFrom t lines).unread := by
  cases t with
  | wait out s => exact d.exists_read s lines
  | done out a => exact ⟨[], rfl⟩

@[simp] theorem unread_runFrom_nil (t : Turn σ α) : (d.runFrom t []).unread = [] := by
  obtain ⟨read, hread⟩ := d.exists_read_runFrom t []
  exact (List.append_eq_nil_iff.mp hread.symm).2

end

/-! ## What is printed -/

section

variable {d : Dialogue σ α} {P : Output → Prop} {Q : σ → Prop}
  (hreceive : ∀ s line, Q s → (d.receive s line).Keeps P Q)
  (hclose : ∀ s, Q s → ∀ o ∈ (d.close s).1, P o)
include hreceive hclose

/-- What every turn keeps to, a dialogue keeps to. -/
theorem forall_mem_output_run {s : σ} (hs : Q s) (lines : List Line) :
    ∀ o ∈ (d.run s lines).output, P o := by
  induction lines generalizing s with
  | nil => exact hclose s hs
  | cons line rest ih =>
    have hturn := hreceive s line hs
    rw [run_cons]
    cases hreceived : d.receive s line with
    | wait out s' =>
      rw [hreceived] at hturn
      exact List.forall_mem_append.mpr ⟨hturn.1, ih hturn.2⟩
    | done out a =>
      rw [hreceived] at hturn
      exact hturn

/-- What one turn keeps holds of the whole transcript that follows it. -/
theorem forall_mem_output_runFrom {t : Turn σ α} (ht : t.Keeps P Q) (lines : List Line) :
    ∀ o ∈ (d.runFrom t lines).output, P o := by
  cases t with
  | wait out s =>
    exact List.forall_mem_append.mpr ⟨ht.1, forall_mem_output_run hreceive hclose ht.2 lines⟩
  | done out a => exact ht

end

/-! ## Parts -/

/-- In the states that `embed` gives, the dialogue `e` carries out `d`, and its result leads on as
`next` tells. -/
structure Embeds (d : Dialogue σ α) (e : Dialogue τ β) (embed : σ → τ) (next : α → Turn τ β) :
    Prop where
  receive : ∀ s line, e.receive (embed s) line = (d.receive s line).bind embed next
  close : ∀ s, e.close (embed s) =
    ((d.close s).1 ++ (e.runFrom (next (d.close s).2) []).output,
      (e.runFrom (next (d.close s).2) []).result)

namespace Embeds

variable {d : Dialogue σ α} {e : Dialogue τ β} {embed : σ → τ} {next : α → Turn τ β}

/-- To run the whole is to run the part, and then to go on with its result. -/
theorem run (h : Embeds d e embed next) (s : σ) (lines : List Line) :
    e.run (embed s) lines =
      (e.runFrom (next (d.run s lines).result) (d.run s lines).unread).after
        (d.run s lines).output := by
  induction lines generalizing s with
  | nil =>
    rw [run_nil, run_nil, h.close]
    simp [Transcript.after]
  | cons line rest ih =>
    rw [run_cons, run_cons, h.receive]
    cases d.receive s line with
    | wait out s' =>
      simp only [Turn.bind, runFrom_wait, ih, Transcript.after, List.append_assoc]
    | done out a => exact e.runFrom_after (next a) out rest

/-- To carry out the part from a turn on is to do so and then to go on with its result. -/
theorem runFrom (h : Embeds d e embed next) (t : Turn σ α) (lines : List Line) :
    e.runFrom (t.bind embed next) lines =
      (e.runFrom (next (d.runFrom t lines).result) (d.runFrom t lines).unread).after
        (d.runFrom t lines).output := by
  cases t with
  | wait out s =>
    rw [Turn.bind, runFrom_wait, runFrom_wait, h.run]
    simp only [Transcript.after, List.append_assoc]
  | done out a => exact e.runFrom_after (next a) out lines

end Embeds

end Dialogue

/-! ## Questions -/

namespace Question

variable (q : Question α)

/-- The answer that a line gives, if it gives one. -/
def answer? : Line → Option α
  | .text s => q.parse s
  | .garbled => none

/-- The line is text, but no answer. -/
def Rejects (line : Line) : Prop := ∃ s, line = .text s ∧ q.parse s = none

/-- What is printed when `n` lines in turn are rejected. -/
def retries (n : Nat) : List Output :=
  (List.replicate n [.line rejection, .question q.wording]).flatten

/-- Behind `n` lines that are rejected, a line gives this answer and leaves these lines unread. -/
inductive Accepts : Nat → List Line → α → List Line → Prop
  | answered {s : String} {a : α} {rest : List Line} : q.parse s = some a →
      Accepts 0 (.text s :: rest) a rest
  | rejected {n : Nat} {s : String} {a : α} {lines rest : List Line} : q.parse s = none →
      Accepts n lines a rest → Accepts (n + 1) (.text s :: lines) a rest

theorem retries_succ (n : Nat) :
    q.retries (n + 1) = [.line rejection, .question q.wording] ++ q.retries n := by
  rw [retries, retries, List.replicate_succ, List.flatten_cons]

variable {q} {a : α} {n : Nat} {lines rest : List Line}

theorem Rejects.answer?_eq_none {line : Line} (h : q.Rejects line) : q.answer? line = none := by
  obtain ⟨s, rfl, hs⟩ := h
  exact hs

/-- The lines that are read for an answer. -/
theorem Accepts.exists_read (h : q.Accepts n lines a rest) :
    ∃ rejected line, lines = rejected ++ line :: rest ∧ rejected.length = n ∧
      (∀ line ∈ rejected, q.Rejects line) ∧ q.answer? line = some a := by
  induction h with
  | @answered s a rest hs => exact ⟨[], .text s, rfl, rfl, nofun, hs⟩
  | @rejected n s a lines rest hs _ ih =>
    obtain ⟨rejected, line, rfl, rfl, hrejected, hline⟩ := ih
    refine ⟨.text s :: rejected, line, rfl, rfl, ?_, hline⟩
    intro line' hmem
    rcases List.mem_cons.mp hmem with rfl | hmem
    · exact ⟨s, rfl, hs⟩
    · exact hrejected line' hmem

/-- Input that is text either holds an answer or is rejected line by line. -/
theorem accepts_or_rejects (q : Question α) (htext : Line.garbled ∉ lines) :
    (∃ n a rest, q.Accepts n lines a rest) ∨ ∀ line ∈ lines, q.Rejects line := by
  induction lines with
  | nil => exact .inr nofun
  | cons line lines ih =>
    cases line with
    | garbled => exact absurd List.mem_cons_self htext
    | text s =>
      cases hs : q.parse s with
      | some a => exact .inl ⟨0, a, lines, .answered hs⟩
      | none =>
        rcases ih (fun hmem ↦ htext (.tail _ hmem)) with ⟨n, a, rest, h⟩ | hrejects
        · exact .inl ⟨n + 1, a, rest, .rejected hs h⟩
        · refine .inr ?_
          intro line hmem
          rcases List.mem_cons.mp hmem with rfl | hmem
          · exact ⟨s, rfl, hs⟩
          · exact hrejects line hmem

/-- The question is put once more for every line that is rejected. -/
theorem Accepts.run_eq (h : q.Accepts n lines a rest) :
    q.dialogue.run () lines = ⟨q.retries n, .accepted a, rest⟩ := by
  induction h with
  | @answered s a rest hs =>
    have hreceive : q.dialogue.receive () (.text s) = .done [] (.accepted a) :=
      receive_of_accepted hs
    rw [Dialogue.run_cons, hreceive]
    rfl
  | @rejected n s a lines rest hs _ ih =>
    have hreceive : q.dialogue.receive () (.text s) = .wait _ () := receive_of_rejected hs
    rw [Dialogue.run_cons, hreceive, Dialogue.runFrom_wait, ih, retries_succ]
    rfl

/-- An answer comes of a question exactly if a line gives it behind lines that are rejected. -/
theorem exists_accepts_iff : (∃ n, q.Accepts n lines a rest) ↔
    (q.dialogue.run () lines).result = .accepted a ∧ (q.dialogue.run () lines).unread = rest := by
  constructor
  · rintro ⟨n, h⟩
    rw [h.run_eq]
    exact ⟨rfl, rfl⟩
  · rintro ⟨hresult, rfl⟩
    induction lines with
    | nil => cases hresult
    | cons line lines ih =>
      rw [Dialogue.run_cons] at hresult ⊢
      cases line with
      | garbled => cases hresult
      | text s =>
        cases hs : q.parse s with
        | some a' =>
          have hreceive : q.dialogue.receive () (.text s) = .done [] (.accepted a') :=
            receive_of_accepted hs
          rw [hreceive] at hresult ⊢
          obtain rfl := Answer.accepted.inj hresult
          exact ⟨0, .answered hs⟩
        | none =>
          have hreceive : q.dialogue.receive () (.text s) = .wait _ () := receive_of_rejected hs
          rw [hreceive] at hresult ⊢
          obtain ⟨n, h⟩ := ih hresult
          exact ⟨n + 1, .rejected hs h⟩

/-- A question that gets no answer is put once more for every line. -/
theorem run_eq_of_rejects (h : ∀ line ∈ lines, q.Rejects line) :
    q.dialogue.run () lines = ⟨q.retries lines.length, .missing, []⟩ := by
  induction lines with
  | nil => rfl
  | cons line lines ih =>
    obtain ⟨s, rfl, hs⟩ := h line List.mem_cons_self
    have hreceive : q.dialogue.receive () (.text s) = .wait _ () := receive_of_rejected hs
    rw [Dialogue.run_cons, hreceive, Dialogue.runFrom_wait,
      ih fun line hmem ↦ h line (.tail _ hmem), List.length_cons, retries_succ]
    rfl

end Question

/-! ### Questions within a dialogue -/

namespace Dialogue.Embeds

variable {q : Question α} {e : Dialogue τ β} {stage : τ} {next : Answer α → Turn τ β}
  (h : q.dialogue.Embeds e (fun _ ↦ stage) next)
include h

/-- A dialogue that waits for an answer goes on with it. -/
theorem run_of_accepts {n : Nat} {a : α} {lines rest : List Line}
    (ha : q.Accepts n lines a rest) :
    e.run stage lines = (e.runFrom (next (.accepted a)) rest).after (q.retries n) := by
  have hrun : e.run stage lines = _ := h.run () lines
  rw [hrun, ha.run_eq]

/-- A dialogue that waits for an answer learns that there is none. -/
theorem run_of_rejects {lines : List Line} (hr : ∀ line ∈ lines, q.Rejects line) :
    e.run stage lines = (e.runFrom (next .missing) []).after (q.retries lines.length) := by
  have hrun : e.run stage lines = _ := h.run () lines
  rw [hrun, Question.run_eq_of_rejects hr]

end Dialogue.Embeds

end FetchExecute.Console
