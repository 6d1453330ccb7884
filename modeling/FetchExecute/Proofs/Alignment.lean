import FetchExecute.Proofs.Brevity
import FetchExecute.Proofs.Snapshot
import FetchExecute.Proofs.Stepping

/-!
# Frames stay aligned

A frame is aligned if the texts in its rows fit their columns and the sides of its box
are straight (`Snapshot.Aligned`).  Rows are aligned because the values in a reachable
machine fit their cells, and boxes because nothing that the step loop says has a long
word in it:

| message | |
|---|---|
| status line | `Session.narrow_statusLine` |
| description of a step, or the error that kept it from being taken | `narrow_advance` |

What one turn of the loop shows is aligned (`Stepping.keeps_turn`,
`Stepping.keeps_receive`), and therefore all that the loop shows
(`Stepping.aligned_drive`).

A program is a list of steps of any length, and the status line of a running session
tells that length.  There it has to be one that a word of 64 bits can count.
-/

namespace FetchExecute

open Text
open Profile (widest)

/-! ## Rows -/

/-- The text fits its column, and what tells the width begins behind it. -/
structure RegisterRow.Aligned (row : RegisterRow) : Prop where
  text : row.text.length ≤ 14
  line : ∃ front, front.length = 21 ∧
    row.line = front ++ ("  (" ++ Numeral.decimal row.width ++ " bits)")

/-- The texts fit their columns, and the content begins behind them. -/
structure MemoryRow.Aligned (row : MemoryRow) : Prop where
  addressText : row.addressText.length ≤ 5
  valueText : row.valueText.length ≤ 14
  line : ∃ front, front.length = 28 ∧ row.line = front ++ row.content

/-- The sides of the box are straight, and so are the columns above it. -/
structure Snapshot.Aligned (v : Snapshot) (message : String) : Prop where
  box : ∀ line ∈ Box.lines message, line.length = lineWidth
  registers : ∀ row ∈ v.registers, row.Aligned
  memory : ∀ row ∈ v.memory, row.Aligned

/-- The row of a register is aligned if its name and its value fit their columns. -/
theorem RegisterRow.aligned_of_brief {row : RegisterRow} (hname : Brief 4 row.name)
    (htext : Brief 14 row.text) : row.Aligned where
  text := htext
  line := by
    refine ⟨"  " ++ padRight 4 row.name ++ " " ++ padLeft 14 row.text, ?_, ?_⟩
    · have hblanks : ("  " : String).length = 2 ∧ (" " : String).length = 1 := by decide
      simp only [String.length_append, length_padRight, length_padLeft, hblanks,
        Nat.max_eq_left hname, Nat.max_eq_left htext]
    · simp only [line, String.append_assoc]

theorem MemoryRow.aligned_of_brief {row : MemoryRow} (haddress : Brief 5 row.addressText)
    (hvalue : Brief 14 row.valueText) : row.Aligned where
  addressText := haddress
  valueText := hvalue
  line := by
    refine ⟨"    [" ++ padLeft 5 row.addressText ++ "] " ++ padLeft 14 row.valueText ++ "  ", ?_,
      rfl⟩
    have hliterals : ("    [" : String).length = 5 ∧ ("] " : String).length = 2 ∧
        ("  " : String).length = 2 := by decide
    simp only [String.length_append, length_padLeft, hliterals, Nat.max_eq_left haddress,
      Nat.max_eq_left hvalue]

/-- The row of a word is aligned, since no machine has a wider cell than its columns are made for.
-/
theorem MemoryRow.aligned_ofWord {p : Profile} (hp : p.Registered) (kind : CellKind) {a v : Nat}
    (ha : a < p.memoryWords) (hv : v < 2 ^ p.wordBits) : (ofWord p kind a v).Aligned := by
  have hcell : v < 2 ^ widest := Profile.lt_widest hv hp.wordBits_le_widest
  refine aligned_of_brief ?_ ?_
  · exact hp.brief_formatAddress_word (Nat.lt_of_lt_of_le ha hp.memoryWords_le)
  · cases kind with
    | instruction =>
      exact (Numeral.brief_hexOfWidth_cell hp.wordBits_le_widest hcell).mono (by decide)
    | data => exact (Numeral.brief_decimal_cell hcell).mono (by decide)

/-- The row of a register is aligned, since no machine has a wider register either. -/
theorem RegisterRow.aligned_ofSlot {p : Profile} {s : Storage} (hs : s.Fits p) (hp : p.Registered)
    {slot : Slot} (hslot : slot ∈ s.registers.slots) : (ofSlot slot).Aligned := by
  have hdeclared : (slot.register, slot.width) ∈ p.registers :=
    hs.layout ▸ List.mem_map_of_mem hslot
  have hwidth : slot.width ≤ widest := hp.width_le_widest _ hdeclared
  have hcell : slot.value < 2 ^ widest := Profile.lt_widest (hs.value_lt slot hslot) hwidth
  exact aligned_of_brief (slot.register.brief_name.mono (by decide))
    ((Numeral.brief_hexOfWidth_cell hwidth hcell).mono (by decide))

/-- Under a message without long words, a frame is aligned whatever the machine holds. -/
theorem Machine.Sound.aligned_snapshot {p : Profile} {program : Program} {m : Machine}
    (h : m.Sound p program) (hp : p.Registered) (showZeros : Bool) {message : String}
    (hmessage : Narrow message) : (m.snapshot showZeros).Aligned message where
  box := (Box.length_lines_iff message).mpr hmessage
  registers := by
    intro row hrow
    obtain ⟨slot, hslot, rfl⟩ := List.mem_map.mp hrow
    exact RegisterRow.aligned_ofSlot h.fits hp hslot
  memory := by
    intro row hrow
    rw [h.memory_snapshot_eq hp, List.mem_flatMap] at hrow
    obtain ⟨w, hw, hrow⟩ := hrow
    obtain ⟨a, ha, rfl⟩ := List.mem_map.mp hrow
    have hinside := hp.windowed.inside w hw a (List.mem_of_mem_filter ha)
    exact MemoryRow.aligned_ofWord hp w.kind hinside (h.fits.word_lt_bits a)

/-! ## Messages -/

theorem RunState.initial_ne_running (total : Nat) : initial total ≠ .running := by
  unfold initial
  split <;> nofun

namespace Session

variable {p : Profile} {program : Program} {s : Session}
  (h : Machine.Reachable p program s.machine) (hp : p.Registered)
include h hp

/-- Only a running session has the number of a step in its status line. -/
theorem narrow_statusLine (hsteps : s.state = .running → program.steps.length < Numeral.limit) :
    Narrow s.statusLine := by
  unfold statusLine
  split
  · exact (brief _).narrow
  · exact (brief _).narrow
  · exact (brief _).narrow
  · rename_i hrunning
    have hnumber {n : Nat} (hn : n ≤ program.steps.length) : Brief 20 (Numeral.decimal n) :=
      Numeral.brief_decimal (by decide)
        (Nat.lt_of_le_of_lt hn (Nat.lt_trans (hsteps hrunning) (by decide)))
    have hcursor : Brief 20 (Numeral.decimal s.cursor) := hnumber (h.sound hp).cursor_le
    have htotal : Brief 20 (Numeral.decimal s.total) := by
      rw [total, Machine.total, (h.sound hp).program_eq]
      exact hnumber (Nat.le_refl _)
    split
    · exact (brief _).narrow
    · split
      · rename_i step _
        have hfront := ((((brief "Step ").append hcursor).append (brief "/")).append htotal).append
          (brief ":")
        exact (narrow_append_space hfront.narrow step.narrow_label).congr (by simp)
      · exact (brief _).narrow

end Session

namespace Console

theorem narrow_error {fault : Fault} (h : Narrow fault.message) :
    Narrow ("error: " ++ fault.message) :=
  (narrow_append_space (brief "error:").narrow h).congr (by simp)

namespace Stepping

variable {p : Profile} {program : Program} {s : Session}
  (h : Machine.Reachable p program s.machine) (hp : p.Registered)
include h hp

/-- Whether a step is taken or not, what is told of it has no long words. -/
theorem narrow_advance : Narrow (advance s).2 := by
  have hs := h.sound hp
  have hwf := h.wellFormed hp
  simp only [advance, Session.result_advance]
  cases hlive : s.machine.state.isLive with
  | false =>
    rw [Machine.advance_of_stopped hlive]
    exact narrow_error (Fault.narrow_message_finished _)
  | true =>
    obtain ⟨step, hstep⟩ := hs.exists_step hlive
    cases hhazard : step.op.hazard? s.machine.storage with
    | some fault =>
      have hraises := (MicroOp.raises_iff_hazard? hs.fits (hwf.present hs.fits hstep)).mpr hhazard
      rw [hs.advance_of_hazard hwf hlive hstep hhazard]
      exact narrow_error (hraises.narrow_message hs.fits hp)
    | none =>
      obtain ⟨e, he, -, hadvance⟩ := hs.advance_of_safe hwf hlive hstep hhazard
      rw [hadvance]
      exact MicroStep.narrow_description hs.fits hp he

end Stepping

/-! ## The step loop -/

/-- Anything but a frame is no matter of columns. -/
def Output.Aligned : Output → Prop
  | .frame snapshot message => snapshot.Aligned message
  | _ => True

namespace Stepping

/-- The loop asks only a session that may go on. -/
def Asks (p : Profile) (program : Program) (s : Session) : Prop :=
  Machine.Reachable p program s.machine ∧ s.state.isLive = true

section

variable {p : Profile} {program : Program} {s : Session}
  (h : Machine.Reachable p program s.machine) (hp : p.Registered)
include h hp

theorem aligned_frame (auto : Bool) {message : String} (hmessage : Narrow message) :
    ∀ o ∈ frame auto s message, o.Aligned := by
  have hframe : s.snapshot.Aligned message :=
    (h.sound hp).aligned_snapshot hp s.config.showZeros hmessage
  cases auto <;> simp [frame, Output.Aligned, hframe]

theorem aligned_finish (auto : Bool) {message : String} (hmessage : Narrow message) :
    ∀ o ∈ (finish auto s message).1, o.Aligned :=
  List.forall_mem_append.mpr ⟨aligned_frame h hp auto hmessage, by simp [Output.Aligned]⟩

/-- A turn of the loop shows aligned frames, and asks only a session that may go on. -/
theorem keeps_turn {message : String} (hmessage : Narrow message) :
    (turn s message).Keeps Output.Aligned (Asks p program) := by
  unfold turn
  split
  · refine ⟨List.forall_mem_append.mpr ⟨aligned_frame h hp false hmessage, ?_⟩, h, ‹_›⟩
    simp [Output.Aligned]
  · exact aligned_finish h hp false hmessage

theorem aligned_autoRun (n : Nat) {message : String} (hmessage : Narrow message) :
    ∀ o ∈ (autoRun n s message).1, o.Aligned := by
  induction n generalizing s message with
  | zero => exact aligned_finish h hp true hmessage
  | succ n ih =>
    rw [autoRun]
    split
    · exact List.forall_mem_append.mpr ⟨aligned_frame h hp true hmessage,
        ih (Session.reachable_advance h) (narrow_advance h hp)⟩
    · exact aligned_finish h hp true hmessage

/-- No command but to take a step leaves the session running. -/
theorem narrow_told (hlive : s.state.isLive = true) (c : Command) : Narrow (told s c) := by
  have hcall := Session.reachable_call hp h c.call
  cases c with
  | next => exact narrow_advance h hp
  | reset =>
    refine Session.narrow_statusLine hcall hp fun hrunning ↦ ?_
    have hinitial : (s.call .reset).1.state = .initial program.steps.length := by
      rw [Session.call, Session.reset_eq h hp]
      rfl
    exact absurd (hinitial.symm.trans hrunning) (RunState.initial_ne_running _)
  | quit =>
    refine Session.narrow_statusLine hcall hp fun hrunning ↦ ?_
    have haborted : (s.call .abort).1.state = .aborted := by
      rw [Session.call, Session.abort_of_live hlive]
      rfl
    cases haborted.symm.trans hrunning

theorem aligned_quit (hlive : s.state.isLive = true) : ∀ o ∈ (quit s).1, o.Aligned := by
  rw [quit_of_live hlive]
  exact aligned_finish (Session.reachable_call hp h .abort) hp false (narrow_told h hp hlive .quit)

/-- Whatever is typed, the next turn shows aligned frames. -/
theorem keeps_receive (hlive : s.state.isLive = true) (line : Line) :
    (dialogue.receive s line).Keeps Output.Aligned (Asks p program) := by
  cases line with
  | garbled => exact List.forall_mem_nil _
  | text text =>
    cases hcommand : Command.ofText? text with
    | none =>
      rw [receive_of_nonsense hcommand]
      exact ⟨by simp [Output.Aligned], h, hlive⟩
    | some c =>
      have hturn := keeps_turn (Session.reachable_call hp h c.call) hp (narrow_told h hp hlive c)
      rw [receive_of_command hcommand, obey_eq_turn h hp hlive]
      exact hturn.after (List.forall_mem_nil _)

/-- Every frame of the loop is aligned, in either mode. -/
theorem aligned_drive (hsteps : s.state = .running → program.steps.length < Numeral.limit)
    (auto : Bool) (lines : List Line) : ∀ o ∈ (drive auto s lines).output, o.Aligned := by
  have hstatus := Session.narrow_statusLine h hp hsteps
  cases auto with
  | true => exact aligned_autoRun h hp _ hstatus
  | false =>
    refine Dialogue.forall_mem_output_runFrom ?_ ?_ (keeps_turn h hp hstatus) lines
    · rintro s' line ⟨h', hlive⟩
      exact keeps_receive h' hp hlive line
    · rintro s' ⟨h', hlive⟩
      exact aligned_quit h' hp hlive

end

end Stepping

end Console

open Console

/-- Every frame of the step loop is aligned, in either mode and whatever is typed: so is the frame
of any reachable session under its status line, the one after a step under what is told of that
step, and a row for any word.  Only the status line of a running session tells how long the program
is, and no program that a machine holds has more steps than 64 bits can count. -/
theorem frames_stay_aligned {p : Profile} {program : Program} {s : Session} (hp : p.Registered)
    (h : Machine.Reachable p program s.machine)
    (hsteps : s.state = .running → program.steps.length < Numeral.limit) :
    s.snapshot.Aligned s.statusLine ∧
    (Stepping.advance s).1.snapshot.Aligned (Stepping.advance s).2 ∧
    (∀ auto lines, ∀ o ∈ (drive auto s lines).output, o.Aligned) ∧
    ∀ kind address value, address < p.memoryWords → value < 2 ^ p.wordBits →
      (MemoryRow.ofWord p kind address value).Aligned := by
  have hadvance : Machine.Reachable p program (Stepping.advance s).1.machine :=
    Session.reachable_advance h
  refine ⟨?_, ?_, Stepping.aligned_drive h hp hsteps, ?_⟩
  · exact (h.sound hp).aligned_snapshot hp _ (Session.narrow_statusLine h hp hsteps)
  · exact (hadvance.sound hp).aligned_snapshot hp _ (Stepping.narrow_advance h hp)
  · exact fun kind address value ↦ MemoryRow.aligned_ofWord hp kind

/-- A frame before the step that divides by zero, the one after it, and those of the loop if the
program is then started again. -/
theorem frames_of_storeThenDivide :
    ∃ s, Session.ofProgram .ias .storeThenDivide {} = .ok s ∧ (s.advances 3).state = .running ∧
      (s.advances 3).snapshot.Aligned "Step 3/4: Execute cycle - ALU performing division" ∧
      (s.advances 3).advance.session.snapshot.Aligned "error: division by zero: MQ holds 0" ∧
      ∀ o ∈ (drive false (s.advances 3) [.text "reset\n", .text "\n"]).output, o.Aligned := by
  have hp : Profile.ias.Registered := ⟨.ias, .simplified, rfl⟩
  have hopen : Session.ofProgram .ias .storeThenDivide {} =
      .ok ⟨Machine.fresh .ias .storeThenDivide, {}, false⟩ :=
    Session.ofProgram_of_validate hp rfl {}
  generalize hs : Session.mk (.fresh .ias .storeThenDivide) {} false = s at hopen
  have h : Machine.Reachable .ias .storeThenDivide (s.advances 3).machine := by
    rw [← hs]
    exact Session.reachable_advances (.load Machine.load_storeThenDivide) 3
  obtain ⟨hstatus, hadvance, hdrive, -⟩ := frames_stay_aligned hp h fun _ ↦ by decide
  have hline : (s.advances 3).statusLine = "Step 3/4: Execute cycle - ALU performing division" := by
    rw [← hs]
    decide +kernel
  have htold : (Stepping.advance (s.advances 3)).2 = "error: division by zero: MQ holds 0" := by
    rw [← hs]
    decide +kernel
  refine ⟨s, hopen, ?_, hline ▸ hstatus, htold ▸ hadvance, hdrive false _⟩
  rw [← hs]
  decide +kernel

end FetchExecute
