import FetchExecute.Profile
import Mathlib.Algebra.Group.Nat.Defs
import Mathlib.Data.List.Basic
import Mathlib.Data.List.Induction
import Mathlib.Logic.Function.Basic

/-!
# Numerals determine their numbers

A numeral is read back by `Numeral.value`, leading zeros and capital letters
included (`Numeral.value_digits`), also from a text that might be something else
(`Numeral.ofDecimal?_decimal`, `Numeral.ofHex?_hex`).  So no two numbers are written
alike, in decimal, in hexadecimal of any number of digits, and in the notation that
a machine has for its addresses (`Profile.formatAddress_injective`).  A number that
the least number of digits can denote has no more digits than these
(`Numeral.length_digits`).  Nor do two numerals of one length denote the same number
(`Numeral.eq_of_value_eq`).

A longer text determines the numerals in it where it can tell that they end: equal
texts agree on what stands before the first character that no numeral has, and on
what follows it, be it the same in both of them from the start
(`Text.append_inj_of_notMem`) or not (`Text.append_inj_of_forall`).
-/

namespace FetchExecute

/-! ## Texts that begin with a numeral -/

namespace Text

theorem cons_append_inj_of_notMem {α : Type} {a : α} {before before' after after' : List α}
    (h : a ∉ before) (h' : a ∉ before') (heq : before ++ a :: after = before' ++ a :: after') :
    before = before' ∧ after = after' := by
  induction before generalizing before' with
  | nil =>
    cases before' with
    | nil => exact ⟨rfl, List.tail_eq_of_cons_eq heq⟩
    | cons x rest => exact absurd (List.head_eq_of_cons_eq heq ▸ List.mem_cons_self) h'
  | cons x rest ih =>
    cases before' with
    | nil => exact absurd (List.head_eq_of_cons_eq heq ▸ List.mem_cons_self) h
    | cons y rest' =>
      obtain ⟨rfl, htail⟩ := List.cons_eq_cons.mp heq
      obtain ⟨rfl, hafter⟩ := ih (List.not_mem_of_not_mem_cons h)
        (List.not_mem_of_not_mem_cons h') htail
      exact ⟨rfl, hafter⟩

/-- A separator splits equal texts alike if its first character does not occur before it. -/
theorem append_inj_of_notMem {c : Char} {separator before before' after after' : String}
    (hseparator : separator.toList.head? = some c) (h : c ∉ before.toList)
    (h' : c ∉ before'.toList)
    (heq : before ++ (separator ++ after) = before' ++ (separator ++ after')) :
    before = before' ∧ after = after' := by
  obtain ⟨rest, hrest⟩ := List.head?_eq_some_iff.mp hseparator
  have hchars : before.toList ++ c :: (rest ++ after.toList) =
      before'.toList ++ c :: (rest ++ after'.toList) := by
    simpa [hrest] using congrArg String.toList heq
  obtain ⟨hbefore, htail⟩ := cons_append_inj_of_notMem h h' hchars
  exact ⟨String.toList_inj.mp hbefore, String.toList_inj.mp (List.append_cancel_left htail)⟩

/-- What goes on as long as a test holds is found again by the test. -/
theorem takeWhile_append_eq {α : Type} {kind : α → Bool} {before after : List α}
    (h : ∀ a ∈ before, kind a = true) (hafter : ∀ a ∈ after.head?, kind a = false) :
    (before ++ after).takeWhile kind = before := by
  rw [List.takeWhile_append_of_pos h]
  cases after with
  | nil => exact List.append_nil before
  | cons a rest => rw [List.takeWhile_cons_of_neg (by simp [hafter a rfl]), List.append_nil]

/-- Equal lists agree on elements of one kind at their start, and on what follows the last of
these. -/
theorem list_append_inj_of_forall {α : Type} {kind : α → Bool}
    {before before' after after' : List α} (h : ∀ a ∈ before, kind a = true)
    (h' : ∀ a ∈ before', kind a = true)
    (hafter : ∀ a ∈ after.head?, kind a = false) (hafter' : ∀ a ∈ after'.head?, kind a = false)
    (heq : before ++ after = before' ++ after') : before = before' ∧ after = after' := by
  have hbefore := congrArg (List.takeWhile kind) heq
  rw [takeWhile_append_eq h hafter, takeWhile_append_eq h' hafter'] at hbefore
  subst hbefore
  exact ⟨rfl, List.append_cancel_left heq⟩

/-- A text splits at the end of a stretch of characters of one kind, if it is known on both sides
that the stretch ends there. -/
theorem append_inj_of_forall {kind : Char → Bool} {before before' after after' : String}
    (h : ∀ c ∈ before.toList, kind c = true) (h' : ∀ c ∈ before'.toList, kind c = true)
    (hafter : ∀ c ∈ after.toList.head?, kind c = false)
    (hafter' : ∀ c ∈ after'.toList.head?, kind c = false)
    (heq : before ++ after = before' ++ after') : before = before' ∧ after = after' := by
  have hchars : before.toList ++ after.toList = before'.toList ++ after'.toList := by
    simpa using congrArg String.toList heq
  obtain ⟨hbefore, htail⟩ := list_append_inj_of_forall h h' hafter hafter' hchars
  exact ⟨String.toList_inj.mp hbefore, String.toList_inj.mp htail⟩

end Text

namespace Numeral

/-! ## Digits -/

/-- What numerals consist of. -/
def alphabet : List Char :=
  ['0', '1', '2', '3', '4', '5', '6', '7', '8', '9', 'A', 'B', 'C', 'D', 'E', 'F']

def digitValue (c : Char) : Nat := alphabet.idxOf c

/-- The number that a numeral denotes. -/
def value (base : Nat) (ds : List Char) : Nat :=
  ds.foldl (fun n c => base * n + digitValue c) 0

/-- A digit is read back, as a capital letter too. -/
theorem digitValue_toUpper_digitChar : ∀ d < 16, digitValue (Nat.digitChar d).toUpper = d := by
  decide

theorem toUpper_digitChar_mem : ∀ d < 16, (Nat.digitChar d).toUpper ∈ alphabet := by decide

theorem value_append_singleton (base : Nat) (ds : List Char) (c : Char) :
    value base (ds ++ [c]) = base * value base ds + digitValue c := by
  simp [value]

/-- Leading zeros do not count. -/
theorem value_leftpad (base least : Nat) (ds : List Char) :
    value base (ds.leftpad least '0') = value base ds := by
  have hzeros : ∀ k, value base (List.replicate k '0') = 0 := by
    intro k
    induction k with
    | zero => rfl
    | succ k ih => rw [List.replicate_succ', value_append_singleton, ih]; rfl
  rw [List.leftpad, value, List.foldl_append]
  exact congrArg (fun n ↦ ds.foldl _ n) (hzeros _)

theorem exists_digitChar_of_mem_toDigits {base n : Nat} {c : Char} (hbase : 1 < base)
    (hc : c ∈ Nat.toDigits base n) : ∃ d < base, Nat.digitChar d = c := by
  induction n using Nat.strongRecOn with
  | ind n ih =>
    rcases Nat.lt_or_ge n base with hlt | hge
    · rw [Nat.toDigits_of_lt_base hlt, List.mem_singleton] at hc
      exact ⟨n, hlt, hc.symm⟩
    · rw [Nat.toDigits_of_base_le hbase hge, List.mem_append, List.mem_singleton] at hc
      rcases hc with hfront | rfl
      · exact ih _ (Nat.div_lt_self (by omega) hbase) hfront
      · exact ⟨n % base, Nat.mod_lt n (by omega), rfl⟩

section

variable {base : Nat} (hbase : 1 < base) (hle : base ≤ 16)
include hbase hle

/-- A number is read back from its digits. -/
theorem value_toDigits (n : Nat) : value base ((Nat.toDigits base n).map Char.toUpper) = n := by
  induction n using Nat.strongRecOn with
  | ind n ih =>
    rcases Nat.lt_or_ge n base with hlt | hge
    · have hdigit := digitValue_toUpper_digitChar n (Nat.lt_of_lt_of_le hlt hle)
      simp [Nat.toDigits_of_lt_base hlt, value, hdigit]
    · have hlast : n % base < 16 := Nat.lt_of_lt_of_le (Nat.mod_lt n (by omega)) hle
      have hfront : n / base < n := Nat.div_lt_self (by omega) hbase
      rw [Nat.toDigits_of_base_le hbase hge, List.map_append, List.map_singleton,
        value_append_singleton, ih _ hfront, digitValue_toUpper_digitChar _ hlast,
        Nat.div_add_mod]

/-- A number is read back from its digits, leading zeros included. -/
theorem value_digits (least n : Nat) : value base (digits base least n) = n := by
  rw [digits, value_leftpad, value_toDigits hbase hle]

theorem digits_injective (least : Nat) : Function.Injective (digits base least) :=
  Function.LeftInverse.injective (value_digits hbase hle least)

theorem toUpper_mem_of_mem_toDigits {n : Nat} {c : Char} (hc : c ∈ Nat.toDigits base n) :
    c.toUpper ∈ alphabet := by
  obtain ⟨d, hd, rfl⟩ := exists_digitChar_of_mem_toDigits hbase hc
  exact toUpper_digitChar_mem d (Nat.lt_of_lt_of_le hd hle)

/-- Numerals are written in capital letters and digits only. -/
theorem mem_alphabet_of_mem_digits {least n : Nat} {c : Char} (hc : c ∈ digits base least n) :
    c ∈ alphabet := by
  rw [digits, List.leftpad, List.mem_append] at hc
  rcases hc with hzero | hdigit
  · rw [List.eq_of_mem_replicate hzero]
    exact List.mem_cons_self
  · obtain ⟨d, hd, rfl⟩ := List.mem_map.mp hdigit
    exact toUpper_mem_of_mem_toDigits hbase hle hd

theorem digitValue_lt_of_mem_digits {least n : Nat} {c : Char} (hc : c ∈ digits base least n) :
    digitValue c < base := by
  rw [digits, List.leftpad, List.mem_append] at hc
  rcases hc with hzero | hdigit
  · rw [List.eq_of_mem_replicate hzero]
    exact Nat.zero_lt_of_lt hbase
  · obtain ⟨digit, hmem, rfl⟩ := List.mem_map.mp hdigit
    obtain ⟨d, hd, rfl⟩ := exists_digitChar_of_mem_toDigits hbase hmem
    rwa [digitValue_toUpper_digitChar d (Nat.lt_of_lt_of_le hd hle)]

end

/-- A numeral of a given length denotes one of so many numbers. -/
theorem value_lt_pow {base : Nat} {ds : List Char} (h : ∀ c ∈ ds, digitValue c < base) :
    value base ds < base ^ ds.length := by
  induction ds using List.reverseRecOn with
  | nil => exact Nat.one_pos
  | append_singleton ds c ih =>
    rw [List.forall_mem_append, List.forall_mem_singleton] at h
    obtain ⟨hfront, hc⟩ := h
    calc value base (ds ++ [c])
      _ = base * value base ds + digitValue c := value_append_singleton base ds c
      _ < base * (value base ds + 1) := Nat.add_lt_add_left hc _
      _ ≤ base * base ^ ds.length := Nat.mul_le_mul_left base (ih hfront)
      _ = base ^ (ds ++ [c]).length := by
        rw [List.length_append, List.length_singleton, Nat.pow_succ']

/-- Different characters with a value as digits are different digits. -/
theorem eq_of_digitValue_eq {c c' : Char} (h : digitValue c < 16)
    (heq : digitValue c = digitValue c') : c = c' :=
  (List.idxOf_inj (List.idxOf_lt_length_iff.mp h)).mp heq

/-- Of the numerals of one length, no two denote the same number. -/
theorem eq_of_value_eq {base : Nat} (hle : base ≤ 16) {ds ds' : List Char}
    (h : ∀ c ∈ ds, digitValue c < base) (h' : ∀ c ∈ ds', digitValue c < base)
    (hlength : ds.length = ds'.length) (heq : value base ds = value base ds') : ds = ds' := by
  induction ds using List.reverseRecOn generalizing ds' with
  | nil => exact (List.length_eq_zero_iff.mp hlength.symm).symm
  | append_singleton front c ih =>
    rcases List.eq_nil_or_concat' ds' with rfl | ⟨front', c', rfl⟩
    · simp at hlength
    · rw [List.forall_mem_append, List.forall_mem_singleton] at h h'
      obtain ⟨hfront, hc⟩ := h
      obtain ⟨hfront', hc'⟩ := h'
      rw [value_append_singleton, value_append_singleton] at heq
      -- The last digit is the remainder, and what stands before it the quotient.
      have hlast : digitValue c = digitValue c' := by
        have hmod := congrArg (· % base) heq
        simpa [Nat.mul_add_mod, Nat.mod_eq_of_lt hc, Nat.mod_eq_of_lt hc'] using hmod
      have hvalue : value base front = value base front' := by
        rw [hlast] at heq
        exact Nat.eq_of_mul_eq_mul_left (by omega) (Nat.add_right_cancel heq)
      have hlengths : front.length = front'.length := by simpa using hlength
      rw [ih hfront hfront' hlengths hvalue, eq_of_digitValue_eq (Nat.lt_of_lt_of_le hc hle) hlast]

/-- Zeros make up for missing digits, and no digit is left out. -/
theorem length_digits_eq_max (base least n : Nat) :
    (digits base least n).length = max least (Nat.toDigits base n).length := by
  rw [digits, List.leftpad, List.length_append, List.length_replicate, List.length_map]
  omega

/-- A number below a power of the base has no more digits than the exponent says, unless more are
asked for. -/
theorem length_digits_le {base least k n : Nat} (hbase : 1 < base) (hk : 0 < k) (hleast : least ≤ k)
    (h : n < base ^ k) : (digits base least n).length ≤ k := by
  rw [length_digits_eq_max]
  exact Nat.max_le.mpr ⟨hleast, (Nat.length_toDigits_le_iff hbase hk).mpr h⟩

/-- If the least number of digits is enough, there are just as many. -/
theorem length_digits {base least n : Nat} (hbase : 1 < base) (hleast : 0 < least)
    (h : n < base ^ least) : (digits base least n).length = least := by
  have hle := (Nat.length_toDigits_le_iff hbase hleast).mpr h
  rw [length_digits_eq_max, Nat.max_eq_left hle]

/-! ## Numerals -/

theorem decimal_injective : Function.Injective decimal := by
  intro n m h
  exact digits_injective (by decide) (by decide) 1 (String.ofList_injective h)

/-- No two numbers are written alike in hexadecimal, with the same least number of digits. -/
theorem hex_injective (least : Nat) : Function.Injective (hex least) := by
  intro n m h
  unfold hex at h
  rw [String.append_right_inj] at h
  exact digits_injective (by decide) (by decide) least (String.ofList_injective h)

theorem hexOfWidth_injective (width : Nat) : Function.Injective (hexOfWidth width) :=
  hex_injective _

/-- What is no digit does not occur in a decimal numeral. -/
theorem notMem_decimal {c : Char} (hc : c ∉ alphabet) (n : Nat) : c ∉ (decimal n).toList := by
  intro hmem
  rw [decimal, String.toList_ofList] at hmem
  exact hc (mem_alphabet_of_mem_digits (by decide) (by decide) hmem)

theorem toList_hex (least n : Nat) : (hex least n).toList = '0' :: 'x' :: digits 16 least n := by
  unfold hex
  simp

/-- What is neither a digit nor the letter of the prefix does not occur in a hexadecimal numeral. -/
theorem notMem_hex {c : Char} (hc : c ∉ alphabet) (hx : c ≠ 'x') (least n : Nat) :
    c ∉ (hex least n).toList := by
  rw [toList_hex, List.mem_cons, List.mem_cons]
  rintro (rfl | rfl | hdigit)
  · exact hc List.mem_cons_self
  · exact hx rfl
  · exact hc (mem_alphabet_of_mem_digits (by decide) (by decide) hdigit)

theorem length_decimal_le {k n : Nat} (hk : 0 < k) (h : n < 10 ^ k) : (decimal n).length ≤ k := by
  rw [decimal, ← String.length_toList, String.toList_ofList]
  exact length_digits_le (by decide) hk hk h

theorem length_hex (least n : Nat) : (hex least n).length = 2 + (digits 16 least n).length := by
  rw [← String.length_toList, toList_hex, List.length_cons, List.length_cons]
  omega

/-- Four bits make a hexadecimal digit, and those left over another one. -/
theorem lt_sixteen_pow {width n : Nat} (h : n < 2 ^ width) : n < 16 ^ ((width + 3) / 4) := by
  have hsixteen : 16 ^ ((width + 3) / 4) = 2 ^ (4 * ((width + 3) / 4)) := by
    rw [Nat.pow_mul]
  rw [hsixteen]
  exact Nat.lt_of_lt_of_le h (Nat.pow_le_pow_right (by decide) (by omega))

/-- What fits a cell is written with a digit for every four bits of the cell. -/
theorem length_hexOfWidth {width n : Nat} (hwidth : 0 < width) (h : n < 2 ^ width) :
    (hexOfWidth width n).length = 2 + (width + 3) / 4 := by
  rw [hexOfWidth, length_hex, length_digits (by decide) (by omega) (lt_sixteen_pow h)]

/-! ### Reading numerals -/

theorem digitValue_digitChar : ∀ d < 10, digitValue (Nat.digitChar d) = d := by decide

theorem digitValue_of_isDigit {c : Char} (h : c.isDigit = true) : digitValue c = c.toNat - 48 := by
  obtain ⟨hge, hle⟩ := Char.isDigit_iff_toNat.mp h
  have h48 : 48 ≤ c.toNat := hge
  have h57 : c.toNat ≤ 57 := hle
  have hlt : c.toNat - 48 < 10 := by omega
  have hc : Nat.digitChar (c.toNat - 48) = c := by
    rw [← Char.toNat_inj, Nat.toNat_digitChar_of_lt_ten hlt]
    omega
  calc digitValue c
    _ = digitValue (Nat.digitChar (c.toNat - 48)) := congrArg digitValue hc.symm
    _ = c.toNat - 48 := digitValue_digitChar _ hlt

/-- The library reads decimal digits as it is done here. -/
theorem ofDigitChars_eq_value {base : Nat} {ds : List Char} (h : ∀ c ∈ ds, c.isDigit = true) :
    Nat.ofDigitChars base ds 0 = value base ds := by
  rw [Nat.ofDigitChars_eq_foldl, value]
  refine List.foldl_ext _ _ _ ?_
  intro n c hc
  rw [digitValue_of_isDigit (h c hc)]
  rfl

/-- A decimal numeral has no leading zeros. -/
theorem digits_ten (n : Nat) : digits 10 1 n = Nat.toDigits 10 n := by
  have hupper : (Nat.toDigits 10 n).map Char.toUpper = Nat.toDigits 10 n := by
    refine (List.map_congr_left ?_).trans (List.map_id _)
    intro c hc
    have hdigit : c.isDigit = true := Nat.isDigit_of_mem_toDigits (by decide) (by decide) hc
    refine dif_neg ?_
    rintro ⟨ha, -⟩
    have h9 : c.val ≤ '9'.val := by
      simp only [Char.isDigit, Bool.and_eq_true, decide_eq_true_eq] at hdigit
      exact hdigit.2
    exact absurd (UInt32.le_trans ha h9) (by decide)
  have hpos : 1 ≤ (Nat.toDigits 10 n).length := Nat.length_toDigits_pos
  rw [digits, hupper, List.leftpad, Nat.sub_eq_zero_of_le hpos]
  rfl

/-- A number that an address can hold is read back from its numeral. -/
theorem ofDecimal?_decimal {n : Nat} (h : n < limit) : ofDecimal? (decimal n) = some n := by
  have hdigits : ∀ c ∈ Nat.toDigits 10 n, c.isDigit = true := fun c hc ↦
    Nat.isDigit_of_mem_toDigits (by decide) (by decide) hc
  have hread : ofDigits? (Nat.toDigits 10 n) = some n := by
    rw [ofDigits?, if_pos ⟨Nat.toDigits_ne_nil, List.all_eq_true.mpr hdigits⟩,
      Nat.ofDigitChars_ten_toDigits]
    exact if_pos h
  rw [ofDecimal?, decimal, String.toList_ofList, digits_ten]
  split
  · rename_i ds heq
    -- a plus sign would be a digit
    have hplus : '+' ∈ Nat.toDigits 10 n := by
      rw [heq]
      exact List.mem_cons_self
    exact absurd (hdigits '+' hplus) (by decide)
  · exact hread

/-- A hexadecimal numeral with capital letters. -/
def ofHex? (text : String) : Option Nat :=
  match text.toList with
  | '0' :: 'x' :: ds => if ds ≠ [] ∧ ds.all alphabet.contains then some (value 16 ds) else none
  | _ => none

/-- A hexadecimal numeral is read back, prefix and leading zeros included. -/
theorem ofHex?_hex (least n : Nat) : ofHex? (hex least n) = some n := by
  have hne : digits 16 least n ≠ [] := by
    have hpos : 0 < (Nat.toDigits 16 n).length := Nat.length_toDigits_pos
    rw [← List.length_pos_iff_ne_nil, length_digits_eq_max]
    omega
  have hdigits : (digits 16 least n).all alphabet.contains = true := by
    rw [List.all_eq_true]
    intro d hd
    exact List.contains_iff_mem.mpr (mem_alphabet_of_mem_digits (by decide) (by decide) hd)
  have hvalue : value 16 (digits 16 least n) = n := value_digits (by decide) (by decide) least n
  rw [ofHex?, toList_hex]
  simp only [if_pos (And.intro hne hdigits), hvalue]

end Numeral

/-! ## Addresses -/

namespace Profile

/-- No two addresses are written alike, in the notation of any machine. -/
theorem formatAddress_injective (p : Profile) : Function.Injective p.formatAddress := by
  intro address address' h
  simp only [formatAddress] at h
  split at h
  · exact Numeral.hex_injective _ h
  · exact Numeral.decimal_injective h

/-- What is neither a digit nor the letter of the prefix does not occur in an address. -/
theorem notMem_formatAddress (p : Profile) {c : Char} (hc : c ∉ Numeral.alphabet) (hx : c ≠ 'x')
    (address : Nat) : c ∉ (p.formatAddress address).toList := by
  rw [formatAddress]
  split
  · exact Numeral.notMem_hex hc hx _ address
  · exact Numeral.notMem_decimal hc address

end Profile

end FetchExecute
