import FetchExecute.Proofs.Script

/-!
# Two modes of the step loop

In automatic mode the step loop takes step after step, and in the other mode it
takes one whenever a blank line is typed.  Where enough blank lines are typed and
no other command, this comes to the same (`automatic_and_typed_steps_agree`): the
same frames, the same closing line, the same session in the end, and the ending
that the session would have reported had it been run in one go.

The script of such input holds nothing but steps (`Stepping.exists_script_next`).
What it prints falls into a frame with its question for every step, and a last
frame (`Stepping.exists_printed_eq`); automatic mode prints the frames alone
(`Stepping.output_autoRun`).
-/

namespace FetchExecute

namespace Console

open Text

namespace Stepping

/-- The commands on these lines, up to the first line that is not text. -/
def typed (lines : List Line) : List Command :=
  (lines.takeWhile fun line ↦ decide (line ≠ .garbled)).filterMap stepQuestion.answer?

/-- A frame on a clear screen, the question below it, and a retry for each of `n` lines that are
rejected. -/
def asked (f : Snapshot × String) (n : Nat) : List Output :=
  [.clear, .frame f.1 f.2, .line (rule '-'), .question stepQuestion.wording] ++
    stepQuestion.retries n

variable {p : Profile} {program : Program} {s : Session} {lines : List Line}

/-- The first command typed is the first answer to the question. -/
theorem accepts_of_typed_eq_cons {c : Command} {rest : List Command}
    (h : typed lines = c :: rest) :
    ∃ n between, stepQuestion.Accepts n lines c between ∧ typed between = rest := by
  induction lines with
  | nil => cases h
  | cons line lines ih =>
    cases line with
    | garbled => cases h
    | text s =>
      have hcons : typed (.text s :: lines) = ((stepQuestion.parse s).toList ++ typed lines) := by
        have hanswer : stepQuestion.answer? (.text s) = stepQuestion.parse s := rfl
        rw [typed, List.takeWhile_cons_of_pos (by simp), List.filterMap_cons, hanswer]
        cases stepQuestion.parse s <;> rfl
      rw [hcons] at h
      cases hs : stepQuestion.parse s with
      | some a =>
        rw [hs] at h
        obtain ⟨rfl, rfl⟩ := List.cons.inj h
        exact ⟨0, lines, .answered hs, rfl⟩
      | none =>
        rw [hs] at h
        obtain ⟨n, between, haccepts, hbetween⟩ := ih h
        exact ⟨n + 1, between, .rejected hs haccepts, hbetween⟩

theorem obeying_replicate_next (s : Session) (m : Nat) :
    obeying s (List.replicate m .next) = s.advances m := by
  induction m generalizing s with
  | zero => rfl
  | succ m ih =>
    rw [List.replicate_succ, obeying_cons, ih, Session.advances_succ]
    rfl

/-! ## Nothing but steps -/

section

variable {m : Nat}

/-- Where a step is typed as long as the session goes on, the script is to take these steps. -/
theorem exists_script_next (hbefore : ∀ k < m, (s.advances k).state.isLive = true)
    (hend : (s.advances m).state.isLive = false)
    (hnext : ∀ k < m, (typed lines)[k]? = some .next) :
    ∃ script rest, Script s lines script rest ∧ commandsOf script = List.replicate m .next := by
  induction m generalizing s lines with
  | zero => exact ⟨[], lines, .ended hend, rfl⟩
  | succ m ih =>
    have hfirst := hnext 0 (Nat.zero_lt_succ m)
    obtain ⟨rest, htyped⟩ : ∃ rest, typed lines = .next :: rest := by
      cases htyped : typed lines with
      | nil =>
        rw [htyped] at hfirst
        cases hfirst
      | cons c rest =>
        rw [htyped] at hfirst
        exact ⟨rest, congrArg (· :: rest) (Option.some.inj hfirst)⟩
    obtain ⟨n, between, haccepts, rfl⟩ := accepts_of_typed_eq_cons htyped
    obtain ⟨script, rest, hscript, hcommands⟩ := ih (s := s.advance.session)
      (fun k hk ↦ by
        rw [← Session.advances_succ]
        exact hbefore (k + 1) (Nat.succ_lt_succ hk))
      (by rwa [← Session.advances_succ])
      (fun k hk ↦ by
        have hk' := hnext (k + 1) (Nat.succ_lt_succ hk)
        rwa [htyped] at hk')
    refine ⟨(n, .next) :: script, rest, ?_, congrArg (Command.next :: ·) hcommands⟩
    exact .command (hbefore 0 (Nat.zero_lt_succ m)) haccepts hscript

/-- Automatic mode prints the frames of as many steps as it takes. -/
theorem output_autoRun (hbefore : ∀ k < m, (s.advances k).state.isLive = true)
    (hend : (s.advances m).state.isLive = false) {fuel : Nat} (hfuel : m ≤ fuel)
    (message : String) :
    (autoRun fuel s message).1 =
      (shown s message (List.replicate m .next)).map (fun f ↦ .frame f.1 f.2) ++
        [.line (closingLine (s.advances m).state)] := by
  induction m generalizing fuel s message with
  | zero =>
    have hstopped : s.state.isLive = false := hend
    cases fuel with
    | zero => rfl
    | succ fuel =>
      rw [autoRun, hstopped]
      rfl
  | succ m ih =>
    obtain ⟨fuel, rfl⟩ := Nat.exists_eq_add_of_le' (Nat.le_trans (Nat.succ_pos m) hfuel)
    have hlive : s.state.isLive = true := hbefore 0 (Nat.zero_lt_succ m)
    have hrest := ih (s := s.advance.session)
      (fun k hk ↦ by
        rw [← Session.advances_succ]
        exact hbefore (k + 1) (Nat.succ_lt_succ hk))
      (by rwa [← Session.advances_succ]) (Nat.le_of_succ_le_succ hfuel) (advance s).2
    rw [autoRun, if_pos hlive]
    show frame true s message ++ (autoRun fuel s.advance.session (advance s).2).1 = _
    rw [hrest, Session.advances_succ]
    rfl

end

/-- What a script prints, frame by frame. -/
theorem exists_printed_eq (s : Session) (message : String) (script : List (Nat × Command)) :
    ∃ earlier last, shown s message (commandsOf script) = earlier ++ [last] ∧
      earlier.length = script.length ∧
      printed s message script =
        (List.zipWith asked earlier (script.map (·.1))).flatten ++
          [.clear, .frame last.1 last.2,
            .line (closingLine (obeying s (commandsOf script)).state)] := by
  induction script generalizing s message with
  | nil => exact ⟨[], (s.snapshot, message), rfl, rfl, rfl⟩
  | cons entry rest ih =>
    obtain ⟨n, c⟩ := entry
    obtain ⟨earlier, last, hshown, hlength, hprinted⟩ := ih (s.call c.call).1 (told s c)
    refine ⟨(s.snapshot, message) :: earlier, last, congrArg (_ :: ·) hshown,
      congrArg (· + 1) hlength, ?_⟩
    rw [printed, hprinted]
    simp only [List.map_cons, List.zipWith_cons_cons, List.flatten_cons, asked,
      List.append_assoc]
    rfl

/-- What the two modes print, where nothing but steps is typed. -/
theorem exists_frames {m fuel : Nat} {script : List (Nat × Command)}
    (hcommands : commandsOf script = List.replicate m .next)
    (hbefore : ∀ k < m, (s.advances k).state.isLive = true)
    (hend : (s.advances m).state.isLive = false) (hfuel : m ≤ fuel) (message : String) :
    ∃ earlier last rejected,
      earlier ++ [last] = shown s message (List.replicate earlier.length .next) ∧
      rejected.length = earlier.length ∧
      (autoRun fuel s message).1 = (earlier ++ [last]).map (fun f ↦ .frame f.1 f.2) ++
        [.line (closingLine (s.advances m).state)] ∧
      printed s message script = (List.zipWith asked earlier rejected).flatten ++
        [.clear, .frame last.1 last.2, .line (closingLine (s.advances m).state)] := by
  obtain ⟨earlier, last, hshown, hlength, hprinted⟩ := exists_printed_eq s message script
  have hm : earlier.length = m := by
    rw [hlength, ← List.length_map (·.2), ← commandsOf, hcommands, List.length_replicate]
  refine ⟨earlier, last, script.map (·.1), ?_, ?_, ?_, ?_⟩
  · rw [← hshown, hcommands, hm]
  · rw [List.length_map, hlength]
  · rw [← hshown, hcommands]
    exact output_autoRun hbefore hend hfuel message
  · rw [hprinted, hcommands, obeying_replicate_next]

/-! ## The modes compared -/

/-- The step loop on typed commands and in automatic mode, and a run of the session: they end
alike, and show the same frames. -/
structure Agree (s : Session) (typed automatic : Transcript Ending) (run : RunReport) : Prop where
  result : typed.result = automatic.result
  session : typed.result.session = s.runToCompletion.session
  finished_iff : typed.result.verdict = .finished ↔ run.ending = .completed
  faulted_iff : ∀ {fault : Fault},
    typed.result.verdict = .faulted fault ↔ run.ending = .faulted fault
  /-- Below each frame but the last, one of the modes puts its question until there is a command. -/
  output : ∃ earlier last rejected,
    earlier ++ [last] = shown s s.statusLine (List.replicate earlier.length .next) ∧
    rejected.length = earlier.length ∧
    automatic.output = (earlier ++ [last]).map (fun f ↦ .frame f.1 f.2) ++
      [.line (closingLine automatic.result.session.state)] ∧
    typed.output = (List.zipWith asked earlier rejected).flatten ++
      [.clear, .frame last.1 last.2, .line (closingLine automatic.result.session.state)]

/-- The verdict agrees with the report of a run. -/
theorem verdict_of_tells {s' : Session} {run : RunReport}
    (h : Machine.Reachable p program s'.machine) (hp : p.Registered)
    (htells : Session.Tells p program s s' run) :
    verdict s' = match run.ending with
      | .completed => .finished
      | .faulted fault => .faulted fault := by
  cases hending : run.ending with
  | completed => rw [verdict, (htells.completed_iff.mp hending).1]
  | faulted fault =>
    obtain ⟨-, hfault, -⟩ := htells.faulted_iff.mp hending
    rw [verdict_eq h hp, hfault]

/-- If it is told to take a step as often as there is one to take, the loop does what it does
without commands, and both do what a run does: with the same steps, frames and closing line. -/
theorem exists_agree (h : Machine.Reachable p program s.machine) (hp : p.Registered)
    (hlive : s.state.isLive = true)
    (hnext : ∀ k < s.total - s.cursor, (s.advances k).state.isLive = true →
      (typed lines)[k]? = some .next) (others : List Line) :
    ∃ run, s.runToCompletion.result = .ok run ∧
      Agree s (drive false s lines) (drive true s others) run := by
  obtain ⟨n, run, hbatch⟩ := Session.exists_runsStepwise h hp hlive
  have hbefore : ∀ k < n + 1, (s.advances k).state.isLive = true := fun k hk ↦
    (hbatch.stopsAt.goes_on h hp hlive (Nat.le_of_lt_succ hk)).1
  have hend : (s.advances (n + 1)).state.isLive = false := by
    rw [← hbatch.session]
    exact hbatch.tells.isLive_eq_false
  -- both modes take the `n + 1` steps that the run takes
  obtain ⟨script, rest, hscript, hcommands⟩ := exists_script_next hbefore hend fun k hk ↦
    hnext k (Nat.lt_of_lt_of_le hk hbatch.bound) (hbefore k hk)
  have hobeying : obeying s (commandsOf script) = s.advances (n + 1) := by
    rw [hcommands, obeying_replicate_next]
  have hleft : s.advances (s.total - s.cursor) = s.advances (n + 1) := by
    obtain ⟨extra, hextra⟩ := Nat.exists_eq_add_of_le hbatch.bound
    rw [hextra, Session.advances_add, Session.advances_of_stopped hend]
  have htyped : drive false s lines = _ := hscript.runFrom_turn h hp s.statusLine
  have hautomatic : (drive true s others).result = _ := ending_autoRun _ s s.statusLine
  rw [hobeying] at htyped
  rw [hleft] at hautomatic
  have hverdict := verdict_of_tells (hbatch.session ▸ Session.reachable_advances h (n + 1)) hp
    hbatch.tells
  rw [hbatch.session] at hverdict
  refine ⟨run, hbatch.result, ?_⟩
  exact {
    result := by rw [htyped, hautomatic]
    session := by rw [htyped, hbatch.session]
    finished_iff := by
      rw [htyped, hverdict]
      cases run.ending with
      | completed => exact iff_of_true rfl rfl
      | faulted => exact iff_of_false nofun nofun
    faulted_iff := by
      intro fault
      rw [htyped, hverdict]
      cases run.ending with
      | completed => exact iff_of_false nofun nofun
      | faulted raised => simp
    output := by
      rw [htyped, hautomatic]
      exact exists_frames hcommands hbefore hend hbatch.bound s.statusLine }

end Stepping

end Console

open Console

/-- If one blank line is typed for every step that the session goes on to take, and no other command
before, the step loop comes to what it would have come to in automatic mode, and to what the session
would have come to in a run. -/
theorem automatic_and_typed_steps_agree {p : Profile} {program : Program} {s : Session}
    (hp : p.Registered) (h : Machine.Reachable p program s.machine)
    (hstate : s.state = .loaded ∨ s.state = .running) {lines : List Line}
    (hnext : ∀ k < s.total - s.cursor, (s.advances k).state.isLive = true →
      (Stepping.typed lines)[k]? = some .next) (others : List Line) :
    ∃ run, s.runToCompletion.result = .ok run ∧
      Stepping.Agree s (drive false s lines) (drive true s others) run :=
  Stepping.exists_agree h hp (RunState.isLive_eq_true_iff.mpr hstate) hnext others

/-- Four blank lines, with something else between them, and a line that is not text. -/
def Console.fourSteps : List Line :=
  [.text "\n", .text "jump\n", .text " \n", .text "\t\n", .text "go on\n", .text "\r\n",
    .garbled]

/-- The fourth of the steps divides by zero, and the line that is not text is not read. -/
theorem automatic_and_typed_steps_storeThenDivide :
    ∃ s run, Session.ofProgram .ias .storeThenDivide {} = .ok s ∧
      Stepping.Agree s (drive false s fourSteps) (drive true s []) run ∧
      run.ending = .faulted (.divisionByZero .mq) ∧
      (drive false s fourSteps).unread = [.garbled] := by
  have hp : Profile.ias.Registered := ⟨.ias, .simplified, rfl⟩
  have hl := Machine.load_storeThenDivide
  have hopen : Session.ofProgram .ias .storeThenDivide {} =
      .ok ⟨Machine.fresh .ias .storeThenDivide, {}, false⟩ :=
    Session.ofProgram_of_validate hp rfl {}
  generalize hs : Session.mk (.fresh .ias .storeThenDivide) {} false = s at hopen
  have hr : Machine.Reachable .ias .storeThenDivide s.machine := by
    rw [← hs]
    exact .load hl
  have hnext : ∀ k < s.total - s.cursor, (s.advances k).state.isLive = true →
      (Stepping.typed fourSteps)[k]? = some .next := by
    rw [← hs]
    decide +kernel
  obtain ⟨run, -, hagree⟩ :=
    automatic_and_typed_steps_agree hp hr (.inl (by rw [← hs]; rfl)) hnext []
  refine ⟨s, run, hopen, hagree, hagree.faulted_iff.mp ?_, ?_⟩
  · rw [← hs]
    decide +kernel
  · rw [← hs]
    decide +kernel

end FetchExecute
