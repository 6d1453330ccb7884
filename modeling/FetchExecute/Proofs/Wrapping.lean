import FetchExecute.Text
import Mathlib.Data.List.Chain
import Mathlib.Data.List.DropRight

/-!
# Boxes keep the words of their text

The words of a text are the stretches between its blanks that are not empty
(`Text.words_eq_splitOnP`).  A box cuts them into rows, one for each of its lines:
`Box.rows` goes through the words as the writer of a box does, but keeps them apart
(`Box.wrap_eq_map_rows`).  Whatever is said of the lines is said of the rows first.

| of the rows | theorem |
|---|---|
| in a row, they are the words of the text | `Box.flatten_rows` |
| none is empty, but for a text without words | `Box.ne_nil_of_mem_rows` |
| with more than one word, a row has room on its line | `Box.size_rowText_le` |
| the first word of the next row has no room left | `Box.isChain_rows` |

Room is counted in bytes and blanks are added up to a number of characters.  A text
has no more characters than bytes, so that a line is too long only if it holds a
single word and that word is (`Box.length_lines_iff`).
-/

namespace FetchExecute.Text

/-! ## Words -/

theorem filter_cons_ne_nil (word : List Char) (rest : List (List Char)) :
    (word :: rest).filter (fun w ↦ w ≠ []) = consWord word (rest.filter fun w ↦ w ≠ []) := by
  cases word with
  | nil => rfl
  | cons c cs => rfl

/-- Cut at every blank, a text begins with the same word as in the reading of the box; what remains
are the other words, once the empty ones are left out. -/
theorem exists_splitOnP_eq (cs : List Char) :
    ∃ rest, cs.splitOnP isBlank = (splitWord cs).1 :: rest ∧
      rest.filter (fun w ↦ w ≠ []) = (splitWord cs).2 := by
  induction cs with
  | nil => exact ⟨[], rfl, rfl⟩
  | cons c cs ih =>
    obtain ⟨rest, hsplit, hrest⟩ := ih
    simp only [List.splitOnP_cons_eq_if_modifyHead, hsplit, splitWord]
    cases isBlank c with
    | true => exact ⟨_, rfl, (filter_cons_ne_nil _ rest).trans (congrArg _ hrest)⟩
    | false => exact ⟨rest, rfl, hrest⟩

/-- Words are what stands between blanks, where anything does. -/
theorem words_eq_splitOnP (text : String) :
    words text = ((text.toList.splitOnP isBlank).filter fun w ↦ w ≠ []).map String.ofList := by
  obtain ⟨rest, hsplit, hrest⟩ := exists_splitOnP_eq text.toList
  rw [hsplit, filter_cons_ne_nil, hrest]
  rfl

theorem mem_of_mem_consWord {word w : List Char} {rest : List (List Char)}
    (h : w ∈ consWord word rest) : w ∈ word :: rest := by
  unfold consWord at h
  split at h
  · exact .tail _ h
  · exact h

/-- What stands between blanks is without blanks, and no longer than the whole. -/
theorem of_mem_splitWord {cs word : List Char}
    (h : word ∈ (splitWord cs).1 :: (splitWord cs).2) :
    word.length ≤ cs.length ∧ ∀ c ∈ word, isBlank c = false := by
  induction cs generalizing word with
  | nil =>
    obtain rfl := List.mem_singleton.mp h
    exact ⟨Nat.le_refl 0, nofun⟩
  | cons c cs ih =>
    simp only [splitWord] at h
    cases hblank : isBlank c with
    | true =>
      rw [if_pos hblank] at h
      rcases List.mem_cons.mp h with rfl | h
      · exact ⟨Nat.zero_le _, nofun⟩
      · obtain ⟨hlength, hsolid⟩ := ih (mem_of_mem_consWord h)
        exact ⟨Nat.le_succ_of_le hlength, hsolid⟩
    | false =>
      rw [if_neg (by simp [hblank])] at h
      rcases List.mem_cons.mp h with rfl | h
      · obtain ⟨hlength, hsolid⟩ := ih List.mem_cons_self
        exact ⟨Nat.succ_le_succ hlength, List.forall_mem_cons.mpr ⟨hblank, hsolid⟩⟩
      · obtain ⟨hlength, hsolid⟩ := ih (.tail _ h)
        exact ⟨Nat.le_succ_of_le hlength, hsolid⟩

/-- Not empty, and without blanks. -/
structure IsWord (word : String) : Prop where
  ne_empty : word ≠ ""
  solid : ∀ c ∈ word.toList, isBlank c = false

/-- Words are not empty and contain no blank. -/
theorem isWord_of_mem_words {text word : String} (h : word ∈ words text) : IsWord word where
  ne_empty := by
    rw [words_eq_splitOnP] at h
    obtain ⟨cs, hcs, rfl⟩ := List.mem_map.mp h
    intro hempty
    have hnil : cs = [] := by simpa using congrArg String.toList hempty
    exact of_decide_eq_true (List.mem_filter.mp hcs).2 hnil
  solid := by
    obtain ⟨cs, hcs, rfl⟩ := List.mem_map.mp h
    rw [String.toList_ofList]
    exact (of_mem_splitWord (mem_of_mem_consWord hcs)).2

theorem length_le_of_mem_words {text word : String} (h : word ∈ words text) :
    word.length ≤ text.length := by
  obtain ⟨cs, hcs, rfl⟩ := List.mem_map.mp h
  rw [← String.length_toList, String.toList_ofList, ← String.length_toList]
  exact (of_mem_splitWord (mem_of_mem_consWord hcs)).1

/-- Nothing that stands on both sides of a blank is a word. -/
theorem words_append_space (before after : String) :
    words (before ++ " " ++ after) = words before ++ words after := by
  have hblank : isBlank ' ' = true := by decide
  have hchars : (before ++ " " ++ after).toList = before.toList ++ ' ' :: after.toList := by simp
  rw [words_eq_splitOnP, hchars, List.splitOnP_append_cons _ _ hblank, List.filter_append,
    List.map_append, ← words_eq_splitOnP, ← words_eq_splitOnP]

theorem IsWord.words_eq {word : String} (h : IsWord word) : words word = [word] := by
  have hne : word.toList ≠ [] := fun hnil ↦ h.ne_empty (String.toList_inj.mp hnil)
  rw [words_eq_splitOnP, List.splitOnP_eq_singleton h.solid,
    List.filter_cons_of_pos (by simp [hne]), List.filter_nil, List.map_singleton,
    String.ofList_toList]

/-! ## Lengths -/

/-- Every character takes a byte at least. -/
theorem length_le_utf8ByteSize (text : String) : text.length ≤ text.utf8ByteSize := by
  obtain ⟨cs, rfl⟩ : ∃ cs, text = String.ofList cs := ⟨text.toList, String.ofList_toList.symm⟩
  induction cs with
  | nil => exact Nat.zero_le _
  | cons c cs ih =>
    have hcons : String.ofList (c :: cs) = String.singleton c ++ String.ofList cs :=
      String.toList_inj.mp (by simp)
    have hpos := c.utf8Size_pos
    rw [hcons, String.utf8ByteSize_append, String.utf8ByteSize_singleton, String.length_append,
      String.length_singleton]
    omega

theorem length_padRight (width : Nat) (text : String) :
    (padRight width text).length = max width text.length := by
  simp only [padRight, List.rightpad, ← String.length_toList, String.toList_ofList,
    List.length_append, List.length_replicate]
  omega

theorem length_padLeft (width : Nat) (text : String) :
    (padLeft width text).length = max width text.length := by
  simp only [padLeft, List.leftpad, ← String.length_toList, String.toList_ofList,
    List.length_append, List.length_replicate]
  omega

namespace Box

/-! ## Rows -/

/-- The words of a row as they stand on its line. -/
def rowText (row : List String) : String := " ".intercalate row

/-- Sets words in rows, the first of which is begun. -/
def fillRows (row : List String) : List String → List (List String)
  | [] => [row]
  | word :: rest =>
    if fits (rowText row) word then fillRows (row ++ [word]) rest
    else row :: fillRows [word] rest

/-- The words on each line of a box. -/
def rows (text : String) : List (List String) :=
  match words text with
  | [] => [[]]
  | word :: rest => fillRows [word] rest

theorem rowText_concat {row : List String} (h : row ≠ []) (word : String) :
    rowText (row ++ [word]) = rowText row ++ " " ++ word := by
  rw [rowText, String.intercalate_append_of_ne_nil h (List.cons_ne_nil word []),
    String.intercalate_singleton, rowText]

theorem rowText_cons_cons (word next : String) (rest : List String) :
    rowText (word :: next :: rest) = word ++ " " ++ rowText (next :: rest) :=
  String.intercalate_cons_cons

/-- Filling lines is filling rows of words, line by line. -/
theorem fill_eq_map_fillRows {row : List String} (h : row ≠ []) (ws : List String) :
    fill (rowText row) ws = (fillRows row ws).map rowText := by
  induction ws generalizing row with
  | nil => rfl
  | cons word rest ih =>
    rw [fill, fillRows]
    split
    · rw [← rowText_concat h, ih (List.append_ne_nil_of_left_ne_nil h [word])]
    · rw [List.map_cons, ← ih (List.cons_ne_nil word [])]
      rfl

/-- A line of a box holds the words of a row, with a blank between them. -/
theorem wrap_eq_map_rows (text : String) : wrap text = (rows text).map rowText := by
  unfold wrap rows
  cases words text with
  | nil => rfl
  | cons word rest =>
    have hbegun : [word] ≠ [] := List.cons_ne_nil word []
    exact fill_eq_map_fillRows hbegun rest

theorem flatten_fillRows (row ws : List String) : (fillRows row ws).flatten = row ++ ws := by
  induction ws generalizing row with
  | nil => rfl
  | cons word rest ih =>
    rw [fillRows]
    split
    · rw [ih, List.append_assoc]
      rfl
    · rw [List.flatten_cons, ih]
      rfl

/-- A box has every word of its text, in order and once. -/
theorem flatten_rows (text : String) : (rows text).flatten = words text := by
  unfold rows
  split
  · simp [*]
  · rw [flatten_fillRows]
    simp [*]

theorem ne_nil_of_mem_fillRows {row r ws : List String} (h : row ≠ []) (hr : r ∈ fillRows row ws) :
    r ≠ [] := by
  induction ws generalizing row with
  | nil =>
    obtain rfl := List.mem_singleton.mp hr
    exact h
  | cons word rest ih =>
    rw [fillRows] at hr
    split at hr
    · exact ih (List.append_ne_nil_of_left_ne_nil h [word]) hr
    · rcases List.mem_cons.mp hr with rfl | hr
      · exact h
      · exact ih (List.cons_ne_nil word []) hr

theorem ne_nil_of_mem_rows {text : String} (h : words text ≠ []) {row : List String}
    (hr : row ∈ rows text) : row ≠ [] := by
  unfold rows at hr
  split at hr
  · exact absurd ‹_› h
  · exact ne_nil_of_mem_fillRows (List.cons_ne_nil _ []) hr

/-- A text without words still has a line. -/
theorem rows_of_words_eq_nil {text : String} (h : words text = []) : rows text = [[]] := by
  rw [rows, h]

theorem rows_ne_nil (text : String) : rows text ≠ [] := by
  intro h
  have hwords : words text = [] := by rw [← flatten_rows, h, List.flatten_nil]
  rw [rows_of_words_eq_nil hwords] at h
  cases h

/-- A word is added to a row only if it fits, so only a word that stands first can be too long. -/
theorem size_rowText_le_of_mem_fillRows {row r ws : List String} (h : row ≠ [])
    (hsize : 2 ≤ row.length → (rowText row).utf8ByteSize ≤ inner) (hr : r ∈ fillRows row ws)
    (hlength : 2 ≤ r.length) : (rowText r).utf8ByteSize ≤ inner := by
  induction ws generalizing row with
  | nil =>
    obtain rfl := List.mem_singleton.mp hr
    exact hsize hlength
  | cons word rest ih =>
    rw [fillRows] at hr
    split at hr
    · have hfits : (rowText row).utf8ByteSize + 1 + word.utf8ByteSize ≤ inner :=
        of_decide_eq_true ‹_›
      refine ih (List.append_ne_nil_of_left_ne_nil h [word]) (fun _ ↦ ?_) hr
      rw [rowText_concat h, String.utf8ByteSize_append, String.utf8ByteSize_append]
      exact hfits
    · rcases List.mem_cons.mp hr with rfl | hr
      · exact hsize hlength
      · exact ih (List.cons_ne_nil word []) (fun h2 ↦ absurd h2 (by simp)) hr

/-- A row of two words or more has room on a line, for its last word was only added because it fits.
-/
theorem size_rowText_le {text : String} {row : List String} (hr : row ∈ rows text)
    (hlength : 2 ≤ row.length) : (rowText row).utf8ByteSize ≤ inner := by
  unfold rows at hr
  split at hr
  · obtain rfl := List.mem_singleton.mp hr
    cases hlength
  · exact size_rowText_le_of_mem_fillRows (List.cons_ne_nil _ [])
      (fun h2 ↦ absurd h2 (by simp)) hr hlength

/-- The next row begins with a word for which this one had no room. -/
def Full (row next : List String) : Prop :=
  ∀ word ∈ next.head?, inner < (rowText row).utf8ByteSize + 1 + word.utf8ByteSize

/-- The row that is begun keeps its words at the front. -/
theorem exists_fillRows_eq (row ws : List String) :
    ∃ more rest, fillRows row ws = (row ++ more) :: rest := by
  induction ws generalizing row with
  | nil => exact ⟨[], [], by rw [List.append_nil]; rfl⟩
  | cons word rest ih =>
    rw [fillRows]
    split
    · obtain ⟨more, others, h⟩ := ih (row ++ [word])
      exact ⟨word :: more, others, by rw [h, List.append_assoc]; rfl⟩
    · exact ⟨[], _, by rw [List.append_nil]⟩

/-- A row is left only for a word that does not fit on it. -/
theorem isChain_fillRows (row ws : List String) : (fillRows row ws).IsChain Full := by
  induction ws generalizing row with
  | nil => exact .singleton row
  | cons word rest ih =>
    rw [fillRows]
    split
    · exact ih (row ++ [word])
    · have hfull : inner < (rowText row).utf8ByteSize + 1 + word.utf8ByteSize := by
        simpa [fits] using ‹¬ fits (rowText row) word = true›
      refine List.isChain_cons.mpr ⟨?_, ih [word]⟩
      obtain ⟨more, others, h⟩ := exists_fillRows_eq [word] rest
      rw [h]
      rintro next ⟨⟩ first ⟨⟩
      exact hfull

/-- Each row is as full as it can be. -/
theorem isChain_rows (text : String) : (rows text).IsChain Full := by
  unfold rows
  split
  · exact .singleton []
  · exact isChain_fillRows _ _

/-! ## Lines -/

theorem lines_eq (text : String) :
    lines text = border :: (rows text).map (fun row ↦ body (rowText row)) ++ [border] := by
  rw [lines, wrap_eq_map_rows, List.map_map]
  rfl

theorem toList_body (line : String) :
    (body line).toList =
      '|' :: ' ' :: (line.toList ++ List.replicate (inner - line.length) ' ' ++ [' ', '|']) := by
  simp [body, padRight, List.rightpad, String.length_toList]

theorem length_border : border.length = lineWidth := by decide

theorem length_body (line : String) : (body line).length = 4 + max inner line.length := by
  have hsides : ("| " : String).length = 2 ∧ (" |" : String).length = 2 := by decide
  rw [body, String.length_append, String.length_append, length_padRight, hsides.1, hsides.2]
  omega

/-- A line has the width of the box exactly if its text is not too long. -/
theorem length_body_iff (line : String) : (body line).length = lineWidth ↔ line.length ≤ inner := by
  have hwidth : lineWidth = 4 + inner := rfl
  rw [length_body, hwidth]
  omega

theorem length_le_length_rowText {row : List String} {word : String} (h : word ∈ row) :
    word.length ≤ (rowText row).length := by
  obtain ⟨before, after, rfl⟩ := List.append_of_mem h
  have hmiddle : ∀ after : List String, word.length ≤ (rowText (word :: after)).length := by
    intro after
    cases after with
    | nil => rw [rowText, String.intercalate_singleton]
    | cons next rest =>
      rw [rowText_cons_cons, String.length_append, String.length_append]
      omega
  cases before with
  | nil => exact hmiddle after
  | cons first before =>
    rw [rowText, String.intercalate_append_of_ne_nil (List.cons_ne_nil first before)
      (List.cons_ne_nil word after), String.length_append]
    exact (hmiddle after).trans (Nat.le_add_left _ _)

/-- A row is too long for its line only if a word in it is. -/
theorem length_rowText_le_iff {text : String} {row : List String} (hr : row ∈ rows text) :
    (rowText row).length ≤ inner ↔ ∀ word ∈ row, word.length ≤ inner := by
  constructor
  · intro h word hword
    exact (length_le_length_rowText hword).trans h
  · intro h
    match row with
    | [] => exact Nat.zero_le _
    | [word] => exact h word List.mem_cons_self
    | _ :: _ :: rest =>
      have hsize := size_rowText_le hr (Nat.le_add_left 2 rest.length)
      exact (length_le_utf8ByteSize _).trans hsize

/-- A box is ragged only if a word in it is too long. -/
theorem length_lines_iff (text : String) :
    (∀ line ∈ lines text, line.length = lineWidth) ↔
      ∀ word ∈ words text, word.length ≤ inner := by
  rw [lines_eq, ← flatten_rows]
  constructor
  · intro h word hword
    obtain ⟨row, hrow, hword⟩ := List.mem_flatten.mp hword
    have hline : body (rowText row) ∈ border :: (rows text).map (fun row ↦ body (rowText row)) ++
        [border] := by
      refine List.mem_append_left _ (.tail _ ?_)
      exact List.mem_map_of_mem (f := fun row ↦ body (rowText row)) hrow
    exact (length_rowText_le_iff hrow).mp ((length_body_iff _).mp (h _ hline)) word hword
  · intro h line hline
    rcases List.mem_append.mp hline with hline | hline
    · rcases List.mem_cons.mp hline with rfl | hline
      · exact length_border
      · obtain ⟨row, hrow, rfl⟩ := List.mem_map.mp hline
        refine (length_body_iff _).mpr ((length_rowText_le_iff hrow).mpr fun word hword ↦ ?_)
        exact h word (List.mem_flatten_of_mem hrow hword)
    · rw [List.mem_singleton.mp hline]
      exact length_border

/-! ### Reading a box -/

/-- A row contains nothing but its words and single blanks. -/
theorem eq_space_or_mem_of_mem_rowText {row : List String} {c : Char}
    (hc : c ∈ (rowText row).toList) : c = ' ' ∨ ∃ word ∈ row, c ∈ word.toList := by
  induction row with
  | nil => cases hc
  | cons word rest ih =>
    cases rest with
    | nil =>
      rw [rowText, String.intercalate_singleton] at hc
      exact .inr ⟨word, List.mem_cons_self, hc⟩
    | cons next rest =>
      rw [rowText_cons_cons, String.toList_append, String.toList_append] at hc
      rcases List.mem_append.mp hc with hc | hc
      · rcases List.mem_append.mp hc with hc | hc
        · exact .inr ⟨word, List.mem_cons_self, hc⟩
        · exact .inl (List.mem_singleton.mp hc)
      · rcases ih hc with hspace | ⟨word', hword', hc⟩
        · exact .inl hspace
        · exact .inr ⟨word', .tail _ hword', hc⟩

theorem isWord_of_mem_row {text word : String} {row : List String} (hr : row ∈ rows text)
    (hword : word ∈ row) : IsWord word :=
  isWord_of_mem_words (flatten_rows text ▸ List.mem_flatten_of_mem hr hword)

/-- The only blanks in a box are spaces. -/
theorem eq_space_of_mem_lines {text line : String} (hline : line ∈ lines text) {c : Char}
    (hc : c ∈ line.toList) (hblank : isBlank c = true) : c = ' ' := by
  have hborder {c : Char} (hc : c ∈ border.toList) : isBlank c = false := by
    have hall : border.toList.all (fun c ↦ !isBlank c) = true := by decide
    simpa using List.all_eq_true.mp hall c hc
  rw [lines_eq] at hline
  rcases List.mem_append.mp hline with hline | hline
  · rcases List.mem_cons.mp hline with rfl | hline
    · exact nomatch hblank.symm.trans (hborder hc)
    · obtain ⟨row, hrow, rfl⟩ := List.mem_map.mp hline
      by_contra hne
      have hside : isBlank '|' = false := by decide
      have hrowText : c ∈ (rowText row).toList := by
        simp only [toList_body, List.mem_cons, List.mem_append, List.mem_replicate,
          List.not_mem_nil, or_false, hne, and_false, false_or] at hc
        rcases hc with rfl | hc | rfl
        · exact nomatch hblank.symm.trans hside
        · exact hc
        · exact nomatch hblank.symm.trans hside
      rcases eq_space_or_mem_of_mem_rowText hrowText with hspace | ⟨word, hword, hc⟩
      · exact hne hspace
      · exact nomatch hblank.symm.trans ((isWord_of_mem_row hrow hword).solid c hc)
  · rw [List.mem_singleton.mp hline] at hc
    exact nomatch hblank.symm.trans (hborder hc)

/-- A newline is a blank, so no line of a box contains one. -/
theorem newline_notMem_lines {text line : String} (hline : line ∈ lines text) :
    '\n' ∉ line.toList := by
  intro hc
  exact absurd (eq_space_of_mem_lines hline hc (by decide)) (by decide)

/-- The lines of a box are told apart again. -/
theorem split_boxed (text : String) :
    ((boxed text).split '\n').toList.map (·.copy) = lines text := by
  have hlines := String.toList_split_intercalate (c := '\n') (l := lines text)
    fun line hline ↦ newline_notMem_lines hline
  have hne : lines text ≠ [] := by simp [lines]
  rw [if_neg hne] at hlines
  exact hlines

/-- What is on a line of a box, without its sides and the blanks before the right one. -/
def content (line : String) : String :=
  String.ofList ((line.toList.drop 2).dropLast.rdropWhile fun c ↦ c = ' ')

/-- The text of a line is read back from it, if it does not end in a blank. -/
theorem content_body {line : String} (h : ∀ c ∈ line.toList.getLast?, c ≠ ' ') :
    content (body line) = line := by
  have hpadded : ((body line).toList.drop 2).dropLast =
      line.toList ++ List.replicate (inner - line.length + 1) ' ' := by
    rw [toList_body, List.drop_succ_cons, List.drop_succ_cons, List.drop_zero,
      List.replicate_succ', ← List.append_assoc]
    exact List.dropLast_append_cons
  have hpadding : ∀ n, (line.toList ++ List.replicate n ' ').rdropWhile (fun c ↦ c = ' ') =
      line.toList.rdropWhile fun c ↦ c = ' ' := by
    intro n
    induction n with
    | zero => rw [List.replicate_zero, List.append_nil]
    | succ n ih =>
      rw [List.replicate_succ', ← List.append_assoc, List.rdropWhile_concat_pos _ _ _ (by simp), ih]
  have hkept : line.toList.rdropWhile (fun c ↦ c = ' ') = line.toList := by
    rw [List.rdropWhile_eq_self_iff]
    intro hne hlast
    exact h _ (List.getLast?_eq_some_getLast hne) (of_decide_eq_true hlast)
  rw [content, hpadded, hpadding, hkept, String.ofList_toList]

/-- No row ends in a blank, for no word does. -/
theorem getLast?_rowText {row : List String} (h : ∀ word ∈ row, IsWord word) :
    ∀ c ∈ (rowText row).toList.getLast?, c ≠ ' ' := by
  rcases List.eq_nil_or_concat' row with rfl | ⟨front, last, rfl⟩
  · exact nofun
  · have hlast : IsWord last := h last (by simp)
    have hne : last.toList ≠ [] := fun hnil ↦ hlast.ne_empty (String.toList_inj.mp hnil)
    have hend : ∃ before, (rowText (front ++ [last])).toList = before ++ last.toList := by
      by_cases hfront : front = []
      · exact ⟨[], by rw [hfront, List.nil_append, rowText, String.intercalate_singleton]; rfl⟩
      · exact ⟨_, by rw [rowText_concat hfront, String.toList_append]⟩
    obtain ⟨before, hend⟩ := hend
    rw [hend, List.getLast?_append_of_ne_nil _ hne]
    rintro c hc rfl
    exact absurd (hlast.solid ' ' (List.mem_of_getLast? hc)) (by decide)

/-- The words of a row are read back from its text. -/
theorem words_rowText {row : List String} (h : ∀ word ∈ row, IsWord word) :
    words (rowText row) = row := by
  induction row with
  | nil => rfl
  | cons word rest ih =>
    have hword := (h word List.mem_cons_self).words_eq
    cases rest with
    | nil => rw [rowText, String.intercalate_singleton, hword]
    | cons next rest =>
      rw [rowText_cons_cons, words_append_space, hword, ih fun w hw ↦ h w (.tail _ hw),
        List.singleton_append]

theorem rowText_map_rowText {rows : List (List String)} (h : [] ∉ rows) :
    rowText (rows.map rowText) = rowText rows.flatten := by
  induction rows with
  | nil => rfl
  | cons row rest ih =>
    have hrow : row ≠ [] := fun hnil ↦ h (hnil ▸ List.mem_cons_self)
    have hrest := ih fun hmem ↦ h (.tail _ hmem)
    cases rest with
    | nil =>
      rw [List.map_singleton, rowText, String.intercalate_singleton, List.flatten_singleton]
    | cons next rest =>
      have hflat : (next :: rest).flatten ≠ [] := by
        refine List.flatten_ne_nil_iff.mpr ⟨next, List.mem_cons_self, fun hnil ↦ h ?_⟩
        exact .tail _ (hnil ▸ List.mem_cons_self)
      rw [List.flatten_cons, List.map_cons, List.map_cons, rowText_cons_cons, ← List.map_cons,
        hrest, rowText, rowText, rowText, String.intercalate_append_of_ne_nil hrow hflat]

/-! ## What a box is -/

/-- The box of a text has these rows of words on its lines. -/
structure Holds (text : String) (rows : List (List String)) : Prop where
  split : ((boxed text).split '\n').toList.map (·.copy) = lines text
  lines : lines text = border :: rows.map (fun row ↦ body (rowText row)) ++ [border]
  /-- Without its sides and its padding, a line has the words of its row on it. -/
  content : ∀ row ∈ rows, content (body (rowText row)) = rowText row ∧ words (rowText row) = row
  /-- Every word of the text is there, in order, once, and in one piece. -/
  flatten : rows.flatten = words text
  joined : rowText (rows.map rowText) = rowText (words text)
  ne_nil : rows ≠ []
  ne_empty : words text ≠ [] → ∀ row ∈ rows, row ≠ [] ∧ rowText row ≠ ""
  blank : words text = [] → rows = [[]]
  size_le : ∀ row ∈ rows, 2 ≤ row.length → (rowText row).utf8ByteSize ≤ inner
  /-- No row has room for the first word of the next. -/
  full : rows.IsChain Full

/-- The rows are a way to set the text that meets all conditions of a box. -/
theorem holds_rows (text : String) : Holds text (rows text) where
  split := split_boxed text
  lines := lines_eq text
  content := by
    intro row hrow
    have hwords : ∀ word ∈ row, IsWord word := fun word ↦ isWord_of_mem_row hrow
    exact ⟨content_body (getLast?_rowText hwords), words_rowText hwords⟩
  flatten := flatten_rows text
  joined := by
    by_cases hnone : words text = []
    · rw [rows_of_words_eq_nil hnone, hnone]
      rfl
    · rw [← flatten_rows]
      exact rowText_map_rowText fun hmem ↦ ne_nil_of_mem_rows hnone hmem rfl
  ne_nil := rows_ne_nil text
  ne_empty := by
    intro hsome row hrow
    have hne := ne_nil_of_mem_rows hsome hrow
    refine ⟨hne, fun hempty ↦ hne ?_⟩
    rw [← words_rowText fun word ↦ isWord_of_mem_row hrow, hempty]
    rfl
  blank := rows_of_words_eq_nil
  size_le := fun _ ↦ size_rowText_le
  full := isChain_rows text

end Box

/-- The box of any text has the words of the text on its lines, all of them, in order and unbroken;
words are what stands between blanks.  Each line takes as many of them as have room on it, and the
sides of the box are straight unless a word alone is longer than a line. -/
theorem box_keeps_words (text : String) :
    words text = ((text.toList.splitOnP isBlank).filter fun w ↦ w ≠ []).map String.ofList ∧
    (∃ rows, Box.Holds text rows) ∧
    ((∀ line ∈ Box.lines text, line.length = lineWidth) ↔
      ∀ word ∈ words text, word.length ≤ Box.inner) :=
  ⟨words_eq_splitOnP text, ⟨_, Box.holds_rows text⟩, Box.length_lines_iff text⟩

end FetchExecute.Text
