/-!
# Text

Numbers written as numerals, text taken apart into words, and text of one width: rules, padded
columns and boxes.
-/

namespace FetchExecute

/-!
## Numerals

Writing numbers in base two, ten and sixteen, and reading them back. A written
numeral may ask for a least number of digits, which leading zeros make up.
Reading a decimal numeral accepts one leading plus sign, needs at least one
digit, and refuses what does not fit an address of 64 bits.
-/

namespace Numeral

/-! ### Writing -/

/-- The digits of `n`, most significant first, with capital letters above nine. -/
def digits (base least n : Nat) : List Char :=
  ((Nat.toDigits base n).map Char.toUpper).leftpad least '0'

def decimal (n : Nat) : String := String.ofList (digits 10 1 n)

def binary (least n : Nat) : String := String.ofList (digits 2 least n)

def hex (least n : Nat) : String := "0x" ++ String.ofList (digits 16 least n)

/-- Hexadecimal with a digit for every four bits of a cell, begun or full. -/
def hexOfWidth (width n : Nat) : String := hex ((width + 3) / 4) n

/-! ### Reading -/

/-- Zeros and ones only. -/
def isBit (c : Char) : Bool := c = '0' || c = '1'

/-- A binary numeral of exactly `width` digits. -/
def ofBinary? (width : Nat) (text : String) : Option Nat :=
  let ds := text.toList
  if ds.length = width ∧ ds.all isBit then some (Nat.ofDigitChars 2 ds 0) else none

/-- One more than the largest number that a decimal numeral may denote. -/
def limit : Nat := Nat.pow 2 64

/-- A decimal numeral without a sign. -/
def ofDigits? (ds : List Char) : Option Nat :=
  if ds ≠ [] ∧ ds.all Char.isDigit then
    let n := Nat.ofDigitChars 10 ds 0
    if n < limit then some n else none
  else none

def ofDecimal? (text : String) : Option Nat :=
  match text.toList with
  | '+' :: ds => ofDigits? ds
  | ds => ofDigits? ds

end Numeral

/-!
## Blanks and words

A blank is a character of the Unicode property `White_Space`. Words are what
blanks separate.
-/

namespace Text

/-- The ranges of `White_Space`, ends included. -/
def blankRanges : List (Nat × Nat) :=
  [(0x0009, 0x000D), (0x0020, 0x0020), (0x0085, 0x0085), (0x00A0, 0x00A0), (0x1680, 0x1680),
   (0x2000, 0x200A), (0x2028, 0x2029), (0x202F, 0x202F), (0x205F, 0x205F), (0x3000, 0x3000)]

def isBlank (c : Char) : Bool :=
  blankRanges.any fun range => range.1 ≤ c.toNat ∧ c.toNat ≤ range.2

/-- Blanks at either end left out. -/
def trim (text : String) : String :=
  String.ofList (((text.toList.dropWhile isBlank).reverse.dropWhile isBlank).reverse)

/-- A word in front of other words, if it has a letter. -/
def consWord (word : List Char) (rest : List (List Char)) : List (List Char) :=
  if word = [] then rest else word :: rest

/-- The characters before the first blank, and the words after it. -/
def splitWord : List Char → List Char × List (List Char)
  | [] => ([], [])
  | c :: cs =>
    let (word, rest) := splitWord cs
    if isBlank c then ([], consWord word rest) else (c :: word, rest)

def words (text : String) : List String :=
  let (word, rest) := splitWord text.toList
  (consWord word rest).map String.ofList

end Text

/-!
## Ruled and boxed text

Text of one width: rules, padded columns, and boxes whose text is wrapped
between words. A line takes as many words as fit, counted in UTF-8 bytes, and a
word that is too long stands alone on an overlong line.
-/

namespace Text

/-- Characters to a line. -/
def lineWidth : Nat := 60

def replicate (n : Nat) (c : Char) : String := String.ofList (List.replicate n c)

/-- A whole line of one character. -/
def rule (c : Char) : String := replicate lineWidth c

def padRight (width : Nat) (text : String) : String :=
  String.ofList (text.toList.rightpad width ' ')

def padLeft (width : Nat) (text : String) : String :=
  String.ofList (text.toList.leftpad width ' ')

/-- Lines, each ended. -/
def unlines (lines : List String) : String := lines.foldr (fun line rest => line ++ "\n" ++ rest) ""

/-! ### Boxes -/

namespace Box

/-- Room inside a box, between its sides and their blanks. -/
def inner : Nat := lineWidth - 4

/-- Whether a word fits a line that is begun. -/
def fits (line word : String) : Bool := line.utf8ByteSize + 1 + word.utf8ByteSize ≤ inner

/-- Sets words after those of a line that is begun. -/
def fill (line : String) : List String → List String
  | [] => [line]
  | word :: rest =>
    if fits line word then fill (line ++ " " ++ word) rest else line :: fill word rest

/-- Text without any word still has one line. -/
def wrap (text : String) : List String :=
  match words text with
  | [] => [""]
  | word :: rest => fill word rest

def border : String := "+" ++ replicate (lineWidth - 2) '-' ++ "+"

def body (line : String) : String := "| " ++ padRight inner line ++ " |"

def lines (text : String) : List String := [border] ++ (wrap text).map body ++ [border]

end Box

def boxed (text : String) : String := "\n".intercalate (Box.lines text)

end Text

end FetchExecute
