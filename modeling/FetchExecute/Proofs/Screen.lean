import FetchExecute.Proofs.Disassembly
import FetchExecute.Proofs.Snapshot
import FetchExecute.Proofs.Wrapping

/-!
# The screen determines the snapshot

A screen is read back from its first line to its last.  Nothing on it contains a
newline but the line of the title, which depends on the program alone, so that equal
screens have equal lines (`Text.unlines_inj`).  These are told apart section by
section:

| section | ends | told by |
|---|---|---|
| registers | after as many lines as the profile has registers | `RegisterRow.line_ofSlot_inj` |
| units | after two lines | `UnitRow.line_inj` |
| words of a kind | before a line that does not begin with four blanks | `Snapshot.rowLines_inj` |
| progress | after a line | `Snapshot.progress_inj` |

Within a line, what is set to the right in a column is the only word there
(`Text.words_padLeft`), so that no padding blurs it.  The message stands last, and
nothing is read behind it.
-/

namespace FetchExecute

/-! ## Lines -/

namespace Text

/-- Without a newline. -/
def OneLine (text : String) : Prop := '\n' ∉ text.toList

instance : DecidablePred OneLine := fun _ ↦ inferInstanceAs (Decidable (_ ∉ _))

@[simp] theorem oneLine_append {a b : String} : OneLine (a ++ b) ↔ OneLine a ∧ OneLine b := by
  simp [OneLine]

@[simp] theorem oneLine_padLeft {width : Nat} {text : String} :
    OneLine (padLeft width text) ↔ OneLine text := by
  simp [OneLine, padLeft, List.leftpad]

@[simp] theorem oneLine_padRight {width : Nat} {text : String} :
    OneLine (padRight width text) ↔ OneLine text := by
  simp [OneLine, padRight, List.rightpad]

@[simp] theorem oneLine_decimal (n : Nat) : OneLine (Numeral.decimal n) :=
  Numeral.notMem_decimal (by decide) n

@[simp] theorem oneLine_hexOfWidth (width n : Nat) : OneLine (Numeral.hexOfWidth width n) :=
  Numeral.notMem_hex (by decide) (by decide) _ n

@[simp] theorem oneLine_formatAddress (p : Profile) (address : Nat) :
    OneLine (p.formatAddress address) :=
  p.notMem_formatAddress (by decide) (by decide) address

/-- Lines are put below one another without a separator, since each ends in its own. -/
theorem unlines_append (lines more : List String) :
    unlines (lines ++ more) = unlines lines ++ unlines more := by
  induction lines with
  | nil => exact (String.empty_append).symm
  | cons line rest ih =>
    show line ++ "\n" ++ unlines (rest ++ more) = line ++ "\n" ++ unlines rest ++ unlines more
    rw [ih, ← String.append_assoc]

/-- Lines are read back from the text they make, if none of them contains the newline that ends it.
-/
theorem unlines_inj {lines lines' : List String} (h : ∀ line ∈ lines, OneLine line)
    (h' : ∀ line ∈ lines', OneLine line) (heq : unlines lines = unlines lines') :
    lines = lines' := by
  have hne (line : String) (rest : List String) : unlines (line :: rest) ≠ "" := by
    intro hempty
    simpa [unlines] using congrArg String.toList hempty
  induction lines generalizing lines' with
  | nil =>
    cases lines' with
    | nil => rfl
    | cons line' rest' => exact absurd heq.symm (hne line' rest')
  | cons line rest ih =>
    cases lines' with
    | nil => exact absurd heq (hne line rest)
    | cons line' rest' =>
      have hlines : line ++ ("\n" ++ unlines rest) = line' ++ ("\n" ++ unlines rest') := by
        simpa only [unlines, List.foldr_cons, String.append_assoc] using heq
      obtain ⟨rfl, hrest⟩ := append_inj_of_notMem rfl (h _ List.mem_cons_self)
        (h' _ List.mem_cons_self) hlines
      rw [ih (fun l hl ↦ h l (.tail _ hl)) (fun l hl ↦ h' l (.tail _ hl)) hrest]

/-! ## Columns -/

theorem isBlank_of_mem_alphabet {c : Char} (hc : c ∈ Numeral.alphabet) : isBlank c = false := by
  have hall : Numeral.alphabet.all (fun c ↦ !isBlank c) = true := by decide
  simpa using List.all_eq_true.mp hall c hc

theorem isWord_decimal (n : Nat) : IsWord (Numeral.decimal n) where
  ne_empty := by
    intro hempty
    have hlength := congrArg String.length hempty
    rw [Numeral.decimal, ← String.length_toList, String.toList_ofList,
      Numeral.length_digits_eq_max] at hlength
    simp at hlength
  solid := by
    intro c hc
    by_contra hblank
    exact Numeral.notMem_decimal (fun hmem ↦ hblank (isBlank_of_mem_alphabet hmem)) n hc

theorem isWord_hex (least n : Nat) : IsWord (Numeral.hex least n) where
  ne_empty := by
    intro hempty
    simpa [Numeral.toList_hex] using congrArg String.toList hempty
  solid := by
    intro c hc
    by_contra hblank
    refine Numeral.notMem_hex (fun hmem ↦ hblank (isBlank_of_mem_alphabet hmem)) ?_ least n hc
    rintro rfl
    exact hblank (by decide)

/-- An address is a word too, in either notation. -/
theorem isWord_formatAddress (p : Profile) (address : Nat) : IsWord (p.formatAddress address) := by
  rw [Profile.formatAddress]
  split
  · exact isWord_hex _ address
  · exact isWord_decimal address

/-- What is set to the right in a column is the word there. -/
theorem words_padLeft (width : Nat) {word : String} (h : IsWord word) :
    words (padLeft width word) = [word] := by
  have hpad (n : Nat) : words (String.ofList (List.replicate n ' ' ++ word.toList)) = [word] := by
    induction n with
    | zero => rw [List.replicate_zero, List.nil_append, String.ofList_toList, h.words_eq]
    | succ n ih =>
      have hspace : String.ofList (List.replicate (n + 1) ' ' ++ word.toList) =
          "" ++ " " ++ String.ofList (List.replicate n ' ' ++ word.toList) := by
        apply String.toList_inj.mp
        simp [List.replicate_succ]
      rw [hspace, words_append_space, ih]
      rfl
  exact hpad (width - word.toList.length)

/-- A word set to the right in its column is read back, for the padding is blank. -/
theorem padLeft_inj {width : Nat} {word word' : String} (h : IsWord word) (h' : IsWord word')
    (heq : padLeft width word = padLeft width word') : word = word' := by
  have hwords := congrArg words heq
  rw [words_padLeft width h, words_padLeft width h'] at hwords
  exact List.head_eq_of_cons_eq hwords

/-- A column is read up to the blank that follows it. -/
theorem padLeft_append_inj {width : Nat} {separator word word' after after' : String}
    (hseparator : separator.toList.head? = some ' ') (h : IsWord word) (h' : IsWord word')
    (heq : padLeft width word ++ (separator ++ after) =
      padLeft width word' ++ (separator ++ after')) : word = word' := by
  obtain ⟨rest, hrest⟩ := List.head?_eq_some_iff.mp hseparator
  have hwords {word : String} (h : IsWord word) (after : String) :
      words (padLeft width word ++ (separator ++ after)) =
        word :: words (String.ofList rest ++ after) := by
    have hsplit : padLeft width word ++ (separator ++ after) =
        padLeft width word ++ " " ++ (String.ofList rest ++ after) :=
      String.toList_inj.mp (by simp [hrest])
    rw [hsplit, words_append_space, words_padLeft width h, List.singleton_append]
  have hread := congrArg words heq
  rw [hwords h, hwords h'] at hread
  exact List.head_eq_of_cons_eq hread

end Text

open Text

/-! ## Rows -/

theorem RegisterRow.oneLine_line_ofSlot (slot : Slot) : OneLine (ofSlot slot).line := by
  have hname : OneLine slot.register.name := by cases slot.register <;> decide
  have hliterals : OneLine "  " ∧ OneLine " " ∧ OneLine "  (" ∧ OneLine " bits)" := by decide
  simp [line, ofSlot, hname, hliterals]

/-- A register is told by the line of its row, if its name and width are known. -/
theorem RegisterRow.line_ofSlot_inj : Function.Injective fun slot : Slot ↦
    ((slot.register, slot.width), (ofSlot slot).line) := by
  rintro ⟨r, width, value⟩ ⟨r', width', value'⟩ h
  obtain ⟨hdeclared, hline⟩ := Prod.mk.inj h
  obtain ⟨rfl, rfl⟩ := Prod.mk.inj hdeclared
  simp only [line, ofSlot, String.append_assoc, String.append_right_inj] at hline
  have htext := padLeft_append_inj rfl (isWord_hex _ value) (isWord_hex _ value') hline
  rw [Numeral.hexOfWidth_injective width htext]

theorem UnitRow.oneLine_line (row : UnitRow) : OneLine row.line := by
  obtain ⟨unit, status⟩ := row
  cases unit <;> cases status <;> decide

theorem UnitStatus.label_injective : Function.Injective label := by
  intro status status' h
  cases status <;> cases status' <;> first | rfl | exact absurd h (by decide)

/-- The line of a unit tells its state, since the name in front of it is known. -/
theorem UnitRow.line_inj {unit : ProcessorUnit} {status status' : UnitStatus}
    (h : line ⟨unit, status⟩ = line ⟨unit, status'⟩) : status = status' := by
  simp only [line, String.append_assoc, String.append_right_inj] at h
  exact UnitStatus.label_injective h

theorem RunState.name_injective : Function.Injective name := by
  intro state state' h
  cases state <;> cases state' <;> first | rfl | exact absurd h (by decide)

namespace Profile.Registered

variable {p : Profile} (hp : p.Registered)
include hp

/-- An instruction is disassembled on one line, whatever its bits are. -/
theorem oneLine_disassemble (instruction : Nat) : OneLine (p.disassemble instruction) := by
  have hmnemonic : ∀ op ∈ p.opcodes, OneLine op.mnemonic := by
    obtain ⟨a, policy, rfl⟩ := hp
    show ∀ op ∈ (ofArchitecture a).opcodes, _
    cases a <;> decide
  have hsuffix (form : OperandForm) (address : Nat) :
      OneLine (form.suffix (p.formatAddress address)) := by
    by_cases hform : form = .implied
    · rw [hform]
      exact (by decide : OneLine "")
    · have hshape : OneLine form.sign ∧ OneLine form.ending := by cases form <;> decide
      have hliterals : OneLine " " ∧ OneLine "M(" := by decide
      rw [OperandForm.suffix_eq hform]
      simp [hshape, hliterals]
  rw [disassemble]
  split
  · have hop := List.mem_of_find?_eq_some ‹p.opcode? _ = some _›
    exact oneLine_append.mpr ⟨hmnemonic _ hop, hsuffix _ _⟩
  · exact oneLine_append.mpr ⟨by decide, hsuffix _ _⟩

/-- A word is disassembled on one line, even with two instructions in it. -/
theorem oneLine_disassembleWord (word : Nat) : OneLine (p.disassembleWord word) := by
  have hliteral : OneLine " ; " := by decide
  rw [disassembleWord]
  split
  · exact hp.oneLine_disassemble _
  · simp [hp.oneLine_disassemble, hliteral]

end Profile.Registered

theorem MemoryRow.oneLine_line_ofWord {p : Profile} (hp : p.Registered) (kind : CellKind)
    (a v : Nat) : OneLine (ofWord p kind a v).line := by
  have hliterals : OneLine "    [" ∧ OneLine "] " ∧ OneLine "  " := by decide
  cases kind <;> simp [line, ofWord, hp.oneLine_disassembleWord, hliterals]

theorem isWord_valueText (p : Profile) (kind : CellKind) (a v : Nat) :
    IsWord (MemoryRow.ofWord p kind a v).valueText := by
  cases kind with
  | instruction => exact isWord_hex _ v
  | data => exact isWord_decimal v

/-- A word in memory, with its address, is told by the line of its row. -/
theorem MemoryRow.line_ofWord_injective (p : Profile) (kind : CellKind) :
    Function.Injective fun cell : Nat × Nat ↦ (ofWord p kind cell.1 cell.2).line := by
  rintro ⟨a, v⟩ ⟨a', v'⟩ h
  have hclosing (a : Nat) : ']' ∉ (padLeft 5 (p.formatAddress a)).toList := by
    have haddress := p.notMem_formatAddress (c := ']') (by decide) (by decide) a
    simp [padLeft, List.leftpad, haddress]
  simp only [line, ofWord, String.append_assoc, String.append_right_inj] at h
  obtain ⟨haddress, hrest⟩ := append_inj_of_notMem rfl (hclosing a) (hclosing a') h
  have hvalue := padLeft_append_inj rfl (isWord_valueText p kind a v)
    (isWord_valueText p kind a' v') hrest
  obtain rfl := p.formatAddress_injective (padLeft_inj (isWord_formatAddress p a)
    (isWord_formatAddress p a') haddress)
  cases kind with
  | instruction => rw [Numeral.hexOfWidth_injective _ hvalue]
  | data => rw [Numeral.decimal_injective hvalue]

/-! ## Sections -/

namespace Snapshot

/-- The rows of one kind for these addresses and words. -/
def cellRows (p : Profile) (kind : CellKind) (cells : List (Nat × Nat)) : List MemoryRow :=
  cells.map fun cell ↦ .ofWord p kind cell.1 cell.2

/-- The lines under a heading of the memory. -/
def rowLines (rows : List MemoryRow) : List String :=
  match rows with
  | [] => ["    (empty)"]
  | rows => rows.map MemoryRow.line

/-- The section of a kind of words is a heading and the rows of that kind. -/
theorem memoryLines_eq (v : Snapshot) (kind : CellKind) :
    v.memoryLines kind = ("  " ++ kind.heading ++ ":") :: rowLines (v.cells kind) := rfl

/-- Whether a line is a row of the memory, and not one of the lines around these. -/
def isRowLine (line : String) : Bool := "    ".toList.isPrefixOf line.toList

/-- The line of a word begins with four blanks, by which it is told from what follows the section.
-/
theorem isRowLine_line (row : MemoryRow) : isRowLine row.line = true := by
  simp [isRowLine, MemoryRow.line]

/-- Every line of a section of words begins with four blanks, also the one that stands for none. -/
theorem isRowLine_of_mem_rowLines {rows : List MemoryRow} {line : String}
    (h : line ∈ rowLines rows) : isRowLine line = true := by
  cases rows with
  | nil =>
    obtain rfl := List.mem_singleton.mp h
    rfl
  | cons row rest =>
    obtain ⟨row', -, rfl⟩ := List.mem_map.mp h
    exact isRowLine_line row'

theorem empty_ne_line (row : MemoryRow) (rest : List String) :
    ["    (empty)"] ≠ row.line :: rest := by
  intro h
  have hchars := congrArg String.toList (List.head_eq_of_cons_eq h)
  simp [MemoryRow.line] at hchars

/-- The words in a section of the memory are told by its lines, also if there are none. -/
theorem rowLines_inj {p : Profile} {kind : CellKind} {cells cells' : List (Nat × Nat)}
    (h : rowLines (cellRows p kind cells) = rowLines (cellRows p kind cells')) :
    cells = cells' := by
  cases cells with
  | nil =>
    cases cells' with
    | nil => rfl
    | cons cell' rest' => exact absurd h (empty_ne_line _ _)
  | cons cell rest =>
    cases cells' with
    | nil => exact absurd h.symm (empty_ne_line _ _)
    | cons cell' rest' =>
      apply List.map_injective_iff.mpr (MemoryRow.line_ofWord_injective p kind)
      simpa [rowLines, cellRows, Function.comp_def] using h

/-- The lines after the title. -/
def body (v : Snapshot) (message : String) : List String :=
  [rule '=', "", "REGISTERS:"] ++ (v.registers.map RegisterRow.line ++
    (["", "CONTROL UNITS:"] ++ (v.units.map UnitRow.line ++
      (["", "RELEVANT MEMORY:", "  Instructions:"] ++ (rowLines (v.cells .instruction) ++
        (["  Data:"] ++ (rowLines (v.cells .data) ++
          (["", v.progressLine, "", "CURRENT MESSAGE:"] ++ Box.lines message))))))))

/-- A screen is the line of the title, which the program fixes, and all the rest. -/
theorem lines_eq (v : Snapshot) (message : String) :
    v.lines message = [rule '=', v.title ++ " - " ++ v.program] ++ v.body message := by
  have hcode : "  " ++ CellKind.instruction.heading ++ ":" = "  Instructions:" := rfl
  have hdata : "  " ++ CellKind.data.heading ++ ":" = "  Data:" := rfl
  simp [lines, body, memoryLines_eq, hcode, hdata]

/-- The line of the progress, cut where its numerals end. -/
theorem progressLine_eq (v : Snapshot) :
    v.progressLine = "PROGRESS: " ++ (Numeral.decimal v.cursor ++ ("/" ++
      (Numeral.decimal v.total ++ (" (" ++ (v.state.name ++ ")"))))) := by
  simp only [← String.append_assoc]
  rfl

theorem oneLine_progressLine (v : Snapshot) : OneLine v.progressLine := by
  have hname : OneLine v.state.name := by cases v.state <;> decide
  have hliterals : OneLine "PROGRESS: " ∧ OneLine "/" ∧ OneLine " (" ∧ OneLine ")" := by decide
  simp only [progressLine_eq, oneLine_append, oneLine_decimal, hname, hliterals, and_self]

/-- The line of the progress tells the cursor, the number of steps and the state. -/
theorem progress_inj {v v' : Snapshot} (h : v.progressLine = v'.progressLine) :
    v.cursor = v'.cursor ∧ v.total = v'.total ∧ v.state = v'.state := by
  have hdecimal {c : Char} (hc : c ∉ Numeral.alphabet) := Numeral.notMem_decimal hc
  rw [progressLine_eq, progressLine_eq, String.append_right_inj] at h
  obtain ⟨hcursor, hrest⟩ := append_inj_of_notMem (c := '/') rfl (hdecimal (by decide) _)
    (hdecimal (by decide) _) h
  obtain ⟨htotal, hrest⟩ := append_inj_of_notMem (c := ' ') rfl (hdecimal (by decide) _)
    (hdecimal (by decide) _) hrest
  rw [String.append_left_inj] at hrest
  exact ⟨Numeral.decimal_injective hcursor, Numeral.decimal_injective htotal,
    RunState.name_injective hrest⟩

theorem oneLine_of_mem_rowLines {p : Profile} (hp : p.Registered) {kind : CellKind}
    {cells : List (Nat × Nat)} {line : String} (h : line ∈ rowLines (cellRows p kind cells)) :
    OneLine line := by
  cases cells with
  | nil =>
    obtain rfl := List.mem_singleton.mp h
    decide
  | cons cell rest =>
    obtain ⟨row, hrow, rfl⟩ := List.mem_map.mp h
    obtain ⟨cell', -, rfl⟩ := List.mem_map.mp hrow
    exact MemoryRow.oneLine_line_ofWord hp kind cell'.1 cell'.2

/-! ## Snapshots -/

/-- A snapshot with the registers of a profile, both units, and rows of instructions before those of
data. -/
structure Regular (p : Profile) (v : Snapshot) : Prop where
  architecture : v.architecture = p.architecture
  title : v.title = p.title
  registers : ∃ slots : List Slot,
    slots.map (fun slot ↦ (slot.register, slot.width)) = p.registers ∧
      v.registers = slots.map .ofSlot
  units : ∃ control : ControlState, v.units = control.rows.map fun row ↦ ⟨row.1, row.2⟩
  memory : ∃ code data, v.memory = cellRows p .instruction code ++ cellRows p .data data

theorem kind_of_mem_cellRows {p : Profile} {kind : CellKind} {cells : List (Nat × Nat)}
    {row : MemoryRow} (h : row ∈ cellRows p kind cells) : row.kind = kind := by
  obtain ⟨cell, -, rfl⟩ := List.mem_map.mp h
  rfl

/-- Cells of one kind are kept or left out together. -/
theorem filter_cellRows (p : Profile) (kind kind' : CellKind) (cells : List (Nat × Nat)) :
    (cellRows p kind cells).filter (fun row ↦ row.kind = kind') =
      if kind = kind' then cellRows p kind cells else [] := by
  split
  · rename_i heq
    exact List.filter_eq_self.mpr fun row hrow ↦
      decide_eq_true ((kind_of_mem_cellRows hrow).trans heq)
  · rename_i hne
    exact List.filter_eq_nil_iff.mpr fun row hrow hkind ↦
      hne ((kind_of_mem_cellRows hrow).symm.trans (of_decide_eq_true hkind))

namespace Regular

variable {p : Profile} {v v' : Snapshot} (h : v.Regular p) (h' : v'.Regular p)
include h

theorem memory_eq : v.memory = v.cells .instruction ++ v.cells .data := by
  obtain ⟨code, data, hmemory⟩ := h.memory
  simp [cells, hmemory, filter_cellRows]

/-- The rows of one kind are made from cells of that kind. -/
theorem cells_eq (kind : CellKind) : ∃ cells, v.cells kind = cellRows p kind cells := by
  obtain ⟨code, data, hmemory⟩ := h.memory
  cases kind with
  | instruction => exact ⟨code, by simp [cells, hmemory, filter_cellRows]⟩
  | data => exact ⟨data, by simp [cells, hmemory, filter_cellRows]⟩

theorem length_registers : v.registers.length = p.registers.length := by
  obtain ⟨slots, hdeclared, hregisters⟩ := h.registers
  rw [hregisters, ← hdeclared, List.length_map, List.length_map]

theorem length_units : v.units.length = 2 := by
  obtain ⟨control, hunits⟩ := h.units
  rw [hunits]
  rfl

/-- Nothing below the title contains a newline. -/
theorem oneLine_body (hp : p.Registered) (message : String) :
    ∀ line ∈ v.body message, OneLine line := by
  simp only [body, List.forall_mem_append]
  refine ⟨by decide, ?registers, by decide, ?units, by decide, ?code, by decide, ?data, ?progress,
    fun _ ↦ Box.newline_notMem_lines⟩
  case registers =>
    obtain ⟨slots, -, hregisters⟩ := h.registers
    simp [hregisters, RegisterRow.oneLine_line_ofSlot]
  case units => simp [UnitRow.oneLine_line]
  case code =>
    obtain ⟨cells, hcells⟩ := h.cells_eq .instruction
    exact fun _ hline ↦ oneLine_of_mem_rowLines hp (hcells ▸ hline)
  case data =>
    obtain ⟨cells, hcells⟩ := h.cells_eq .data
    exact fun _ hline ↦ oneLine_of_mem_rowLines hp (hcells ▸ hline)
  case progress =>
    have hliterals : OneLine "" ∧ OneLine "CURRENT MESSAGE:" := by decide
    simp [oneLine_progressLine, hliterals]

include h'

/-- The lines of the registers determine the rows. -/
theorem registers_eq_of_line (heq : v.registers.map RegisterRow.line =
    v'.registers.map RegisterRow.line) : v.registers = v'.registers := by
  obtain ⟨slots, hdeclared, hregisters⟩ := h.registers
  obtain ⟨slots', hdeclared', hregisters'⟩ := h'.registers
  rw [hregisters, hregisters', List.map_map, List.map_map] at heq
  have hpairs := congrArg₂ List.zip (hdeclared.trans hdeclared'.symm) heq
  rw [List.zip_map', List.zip_map'] at hpairs
  rw [hregisters, hregisters', List.map_injective_iff.mpr RegisterRow.line_ofSlot_inj hpairs]

theorem units_eq_of_line (heq : v.units.map UnitRow.line = v'.units.map UnitRow.line) :
    v.units = v'.units := by
  obtain ⟨control, hunits⟩ := h.units
  obtain ⟨control', hunits'⟩ := h'.units
  rw [hunits, hunits'] at heq ⊢
  simp only [ControlState.rows, List.map_cons, List.map_nil, List.cons.injEq, and_true] at heq
  simp only [ControlState.rows, List.map_cons, UnitRow.line_inj heq.1, UnitRow.line_inj heq.2]

theorem cells_eq_of_line {kind : CellKind}
    (heq : rowLines (v.cells kind) = rowLines (v'.cells kind)) : v.cells kind = v'.cells kind := by
  obtain ⟨cells, hcells⟩ := h.cells_eq kind
  obtain ⟨cells', hcells'⟩ := h'.cells_eq kind
  rw [hcells, hcells'] at heq
  rw [hcells, hcells', rowLines_inj heq]

/-- What stands below the title determines the snapshot, section by section. -/
theorem eq_of_body {message message' : String} (hname : v.program = v'.program)
    (heq : v.body message = v'.body message') : v = v' := by
  have hmember {rows : List MemoryRow} : ∀ line ∈ rowLines rows, isRowLine line = true :=
    fun _ ↦ isRowLine_of_mem_rowLines
  obtain ⟨hregisters, hrest⟩ := List.append_inj (List.append_cancel_left heq)
    (by rw [List.length_map, List.length_map, h.length_registers, h'.length_registers])
  obtain ⟨hunits, hrest⟩ := List.append_inj (List.append_cancel_left hrest)
    (by rw [List.length_map, List.length_map, h.length_units, h'.length_units])
  obtain ⟨hcode, hrest⟩ := list_append_inj_of_forall hmember hmember
    (by rintro line ⟨⟩; decide) (by rintro line ⟨⟩; decide) (List.append_cancel_left hrest)
  obtain ⟨hdata, hrest⟩ := list_append_inj_of_forall hmember hmember
    (by rintro line ⟨⟩; decide) (by rintro line ⟨⟩; decide) (List.append_cancel_left hrest)
  have hprogress : v.progressLine = v'.progressLine :=
    List.head_eq_of_cons_eq (List.tail_eq_of_cons_eq hrest)
  obtain ⟨hcursor, htotal, hstate⟩ := progress_inj hprogress
  have hmemory : v.memory = v'.memory := by
    rw [h.memory_eq, h'.memory_eq, h.cells_eq_of_line h' hcode, h.cells_eq_of_line h' hdata]
  have harchitecture := h.architecture.trans h'.architecture.symm
  have htitle := h.title.trans h'.title.symm
  have hregisters := h.registers_eq_of_line h' hregisters
  have hunits := h.units_eq_of_line h' hunits
  cases v
  cases v'
  simp only [Snapshot.mk.injEq]
  exact ⟨harchitecture, htitle, hname, hregisters, hunits, hmemory, hcursor, htotal, hstate⟩

/-- The screen determines the snapshot, for a program of the same name. -/
theorem eq_of_render (hp : p.Registered) {message message' : String}
    (hname : v.program = v'.program) (heq : v.render message = v'.render message') : v = v' := by
  rw [render, render, lines_eq, lines_eq, unlines_append, unlines_append, h.title, h'.title, hname,
    String.append_right_inj] at heq
  have hbody := unlines_inj (h.oneLine_body hp message) (h'.oneLine_body hp message') heq
  exact h.eq_of_body h' hname hbody

end Regular

end Snapshot

/-! ## Machines -/

/-- Snapshots are taken of sound machines, and so have the shape that the lemmas above need. -/
theorem Machine.Sound.regular_snapshot {p : Profile} {program : Program} {m : Machine}
    (h : m.Sound p program) (hp : p.Registered) (showZeros : Bool) :
    (m.snapshot showZeros).Regular p where
  architecture := congrArg Profile.architecture h.profile_eq
  title := congrArg Profile.title h.profile_eq
  registers := ⟨m.storage.registers.slots, h.fits.layout, rfl⟩
  units := ⟨m.control, rfl⟩
  memory := by
    obtain ⟨w, rest, hwindows, hcode, hrest⟩ := List.map_eq_cons_iff.mp hp.windowed.kinds
    obtain ⟨w', rest', rfl, hdata, hnil⟩ := List.map_eq_cons_iff.mp hrest
    obtain rfl := List.map_eq_nil_iff.mp hnil
    have hrows (w : Window) : ∃ cells,
        ((w.addresses.filter fun a ↦ Snapshot.Listed m.storage showZeros a).map fun a ↦
          MemoryRow.ofWord p w.kind a (m.storage.word a)) = Snapshot.cellRows p w.kind cells := by
      refine ⟨(w.addresses.filter fun a ↦ Snapshot.Listed m.storage showZeros a).map fun a ↦
        (a, m.storage.word a), ?_⟩
      rw [Snapshot.cellRows, List.map_map]
      rfl
    obtain ⟨code, hcells⟩ := hrows w
    obtain ⟨data, hcells'⟩ := hrows w'
    refine ⟨code, data, ?_⟩
    rw [h.memory_snapshot_eq hp, hwindows, List.flatMap_cons, List.flatMap_singleton, hcells,
      hcells', hcode, hdata]

/-- No two snapshots of machines of one profile, on programs of one name, look alike on the screen,
whatever rows are asked for and whatever the messages are. -/
theorem screen_determines_snapshot {p : Profile} {program program' : Program} {m m' : Machine}
    (hp : p.Registered) (h : Machine.Reachable p program m)
    (h' : Machine.Reachable p program' m') (hname : program.name = program'.name)
    {showZeros showZeros' : Bool} {message message' : String}
    (heq : (m.snapshot showZeros).render message = (m'.snapshot showZeros').render message') :
    m.snapshot showZeros = m'.snapshot showZeros' := by
  have hs := h.sound hp
  have hs' := h'.sound hp
  refine (hs.regular_snapshot hp showZeros).eq_of_render (hs'.regular_snapshot hp showZeros') hp ?_
    heq
  show m.program.name = m'.program.name
  rw [hs.program_eq, hs'.program_eq, hname]

/-- The sum with all of its steps said to be fetching. -/
def Program.sumFetching : Program :=
  { Catalog.hypotheticalSum with
    steps := Catalog.hypotheticalSum.steps.map fun step ↦ .fetch step.op }

/-- Before its first step the one program looks like the other, also with one more blank in the
message, and unlike itself after that step under any message. -/
theorem screen_of_hypotheticalSum :
    ∃ m m', Machine.load .hypothetical Catalog.hypotheticalSum = .ok m ∧
      Machine.load .hypothetical .sumFetching = .ok m' ∧
      (m.snapshot false).render "Ready  to run" = (m'.snapshot false).render "Ready to run" ∧
      m.snapshot false = m'.snapshot false ∧
      ∀ message message', (m.snapshot true).render message ≠
        (m.advance.1.snapshot true).render message' := by
  have hp : Profile.hypothetical.Registered := ⟨.hypothetical, .simplified, rfl⟩
  have hl := Machine.load_of_validate hp (rfl : Catalog.hypotheticalSum.validate .hypothetical = _)
  have hl' := Machine.load_of_validate hp (rfl : Program.sumFetching.validate .hypothetical = _)
  have hrender : ((Machine.fresh .hypothetical Catalog.hypotheticalSum).snapshot false).render
      "Ready  to run" =
      ((Machine.fresh .hypothetical .sumFetching).snapshot false).render "Ready to run" := by
    have hbox : Box.lines "Ready  to run" = Box.lines "Ready to run" := by decide +kernel
    rw [Snapshot.render, Snapshot.render, Snapshot.lines, Snapshot.lines, hbox]
    rfl
  refine ⟨_, _, hl, hl', hrender, ?_, fun message message' heq ↦ ?_⟩
  · exact screen_determines_snapshot hp (.load hl) (.load hl') rfl hrender
  · have heq := screen_determines_snapshot hp (.load hl) (.advance (.load hl)) rfl heq
    have hcursor : 0 = 1 := congrArg Snapshot.cursor heq
    cases hcursor

end FetchExecute
