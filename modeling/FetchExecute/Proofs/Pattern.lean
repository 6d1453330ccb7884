import FetchExecute.Proofs.Disassembly
import FetchExecute.Proofs.Screen

/-!
# Patterns are looked up as the listing prints them

The listing writes the code of every opcode in binary, with a digit for each bit of the
opcode field, and a mnemonic is looked up by a pattern of such digits.  The one is the
inverse of the other: for a pattern there is a mnemonic exactly if the listing of the
machine shows it, and then it is the one that stands beside it
(`pattern_lookup_inverts_listing`).  A numeral of a given length is the only one for its
number (`Numeral.eq_binary_iff`), so that no opcode has a second pattern.

The lookup can be made on the bytes of a pattern as well (`Profile.mnemonicOfBytes`).  A
numeral that is read from bytes may have any length and a plus sign
(`Numeral.ofBits?`), and so there are two tests before it is read.

| a pattern with | is refused by |
|---|---|
| more or fewer bytes than the field has bits | the test of its length |
| that many bytes, but a sign, a blank or a letter among them | the test of its digits |
| digits only, which no opcode has for its code | the table of opcodes |
-/

namespace FetchExecute

/-! ## Binary numerals -/

namespace Numeral

variable {width n : Nat} {text : String}

theorem isBit_iff {c : Char} : isBit c = true ↔ c = '0' ∨ c = '1' := by
  simp [isBit]

theorem isDigit_of_isBit {c : Char} (h : isBit c = true) : c.isDigit = true := by
  rcases isBit_iff.mp h with rfl | rfl
  · rfl
  · rfl

theorem isBit_iff_digitValue_lt {c : Char} : isBit c = true ↔ digitValue c < 2 := by
  constructor
  · intro h
    rcases isBit_iff.mp h with rfl | rfl
    · exact Nat.zero_lt_two
    · exact Nat.one_lt_two
  · intro h
    have hcases : digitValue c = digitValue '0' ∨ digitValue c = digitValue '1' :=
      Nat.le_one_iff_eq_zero_or_eq_one.mp (Nat.le_of_lt_succ h)
    have hlt : digitValue c < 16 := Nat.lt_trans h (by decide)
    exact isBit_iff.mpr (hcases.imp (eq_of_digitValue_eq hlt) (eq_of_digitValue_eq hlt))

/-- The digits, their number and what they denote make up the numeral. -/
theorem eq_binary_iff (hwidth : 0 < width) (h : n < 2 ^ width) :
    text = binary width n ↔
      text.length = width ∧ (∀ c ∈ text.toList, isBit c = true) ∧ value 2 text.toList = n := by
  have hlength : (digits 2 width n).length = width := length_digits (by decide) hwidth h
  have hbits : ∀ c ∈ digits 2 width n, digitValue c < 2 := fun _ ↦
    digitValue_lt_of_mem_digits (by decide) (by decide)
  have hvalue : value 2 (digits 2 width n) = n := value_digits (by decide) (by decide) width n
  rw [← String.length_toList, ← String.toList_inj, binary, String.toList_ofList]
  constructor
  · intro htext
    rw [htext]
    exact ⟨hlength, fun c hc ↦ isBit_iff_digitValue_lt.mpr (hbits c hc), hvalue⟩
  · rintro ⟨htextLength, htextBits, htextValue⟩
    exact eq_of_value_eq (by decide) (fun c hc ↦ isBit_iff_digitValue_lt.mp (htextBits c hc)) hbits
      (htextLength.trans hlength.symm) (htextValue.trans hvalue.symm)

/-- A numeral is read exactly if it is one that is written for a number of that many bits. -/
theorem ofBinary?_eq_some_iff (hwidth : 0 < width) :
    ofBinary? width text = some n ↔ n < 2 ^ width ∧ text = binary width n := by
  have hread : ofBinary? width text = some n ↔ (text.toList.length = width ∧
      ∀ c ∈ text.toList, isBit c = true) ∧ Nat.ofDigitChars 2 text.toList 0 = n := by
    simp [ofBinary?]
  rw [hread]
  constructor
  · rintro ⟨⟨hlength, hbits⟩, hn⟩
    rw [ofDigitChars_eq_value fun c hc ↦ isDigit_of_isBit (hbits c hc)] at hn
    have hlt : n < 2 ^ width := by
      rw [← hn, ← hlength]
      exact value_lt_pow fun c hc ↦ isBit_iff_digitValue_lt.mp (hbits c hc)
    rw [String.length_toList] at hlength
    exact ⟨hlt, (eq_binary_iff hwidth hlt).mpr ⟨hlength, hbits, hn⟩⟩
  · rintro ⟨hlt, htext⟩
    obtain ⟨hlength, hbits, hn⟩ := (eq_binary_iff hwidth hlt).mp htext
    rw [ofDigitChars_eq_value fun c hc ↦ isDigit_of_isBit (hbits c hc)]
    exact ⟨⟨String.length_toList.trans hlength, hbits⟩, hn⟩

end Numeral

/-! ## Patterns -/

open Opcode (unknownMnemonic)

namespace Profile

/-- Every opcode has a code of its own, for which the opcode field has room, and a mnemonic. -/
structure Coded (p : Profile) : Prop where
  opcodeBits_pos : 0 < p.layout.opcodeBits
  opcodeBits_le : p.layout.opcodeBits ≤ Layout.maxOpcodeBits
  code_lt : ∀ op ∈ p.opcodes, op.code < 2 ^ p.layout.opcodeBits
  opcode?_code : ∀ op ∈ p.opcodes, p.opcode? op.code = some op
  isWord_mnemonic : ∀ op ∈ p.opcodes, Text.IsWord op.mnemonic
  mnemonic_ne_unknown : ∀ op ∈ p.opcodes, op.mnemonic ≠ unknownMnemonic

/-- The opcodes of either machine have codes of their own that fit into the bits for them, and
mnemonics other than that of an unknown code. -/
theorem Registered.coded {p : Profile} (hp : p.Registered) : p.Coded := by
  have hle := hp.regular_layout.opcodeBits_le
  obtain ⟨a, policy, rfl⟩ := hp
  have hwords : ∀ op ∈ (ofArchitecture a).opcodes,
      op.mnemonic ≠ "" ∧ (op.mnemonic.toList.all fun c => !Text.isBlank c) = true := by
    cases a <;> decide
  refine ⟨?_, hle, ?_, ?_, ?_, ?_⟩
  · show 0 < (ofArchitecture a).layout.opcodeBits
    cases a <;> decide
  · show ∀ op ∈ (ofArchitecture a).opcodes, op.code < 2 ^ (ofArchitecture a).layout.opcodeBits
    cases a <;> decide
  · show ∀ op ∈ (ofArchitecture a).opcodes, (ofArchitecture a).opcode? op.code = some op
    cases a <;> decide
  · intro op hop
    obtain ⟨hne, hsolid⟩ := hwords op hop
    exact ⟨hne, by simpa using hsolid⟩
  · show ∀ op ∈ (ofArchitecture a).opcodes, op.mnemonic ≠ unknownMnemonic
    cases a <;> decide

namespace Coded

variable {p : Profile} (hp : p.Coded)
include hp

/-- A pattern is the code of an opcode exactly if it has the right number of digits and denotes the
code. -/
theorem codeText_iff (pattern : String) :
    ∀ op ∈ p.opcodes, pattern = p.codeText op ↔ pattern.length = p.layout.opcodeBits ∧
      (∀ c ∈ pattern.toList, c = '0' ∨ c = '1') ∧ Numeral.value 2 pattern.toList = op.code := by
  intro op hop
  simp only [← Numeral.isBit_iff]
  exact Numeral.eq_binary_iff hp.opcodeBits_pos (hp.code_lt op hop)

theorem mnemonicOfPattern_codeText {op : Opcode} (hop : op ∈ p.opcodes) :
    p.mnemonicOfPattern (p.codeText op) = op.mnemonic := by
  have hread : Numeral.ofBinary? p.layout.opcodeBits (p.codeText op) = some op.code :=
    (Numeral.ofBinary?_eq_some_iff hp.opcodeBits_pos).mpr ⟨hp.code_lt op hop, rfl⟩
  simp only [mnemonicOfPattern, hread, mnemonic, hp.opcode?_code op hop]

/-- If anything is found, the pattern is the code of an opcode. -/
theorem exists_of_mnemonicOfPattern {pattern : String}
    (h : p.mnemonicOfPattern pattern ≠ unknownMnemonic) :
    ∃ op ∈ p.opcodes, pattern = p.codeText op := by
  unfold mnemonicOfPattern at h
  split at h
  · next code hread =>
    obtain ⟨-, hpattern⟩ := (Numeral.ofBinary?_eq_some_iff hp.opcodeBits_pos).mp hread
    unfold mnemonic at h
    split at h
    · next op hop =>
      refine ⟨op, List.mem_of_find?_eq_some hop, ?_⟩
      rw [hpattern, codeText, code_of_opcode? hop]
    · exact absurd rfl h
  · exact absurd rfl h

/-- Nothing but codes of opcodes is found. -/
theorem mnemonicOfPattern_ne_unknown_iff (pattern : String) :
    p.mnemonicOfPattern pattern ≠ unknownMnemonic ↔ ∃ op ∈ p.opcodes, pattern = p.codeText op := by
  constructor
  · exact hp.exists_of_mnemonicOfPattern
  · rintro ⟨op, hop, rfl⟩
    rw [hp.mnemonicOfPattern_codeText hop]
    exact hp.mnemonic_ne_unknown op hop

end Coded

end Profile

/-! ## Bytes -/

namespace Numeral

/-- The bytes of a zero and a one. -/
def isBitByte (b : UInt8) : Bool := b = '0'.toUInt8 || b = '1'.toUInt8

/-- Reads on behind digits that denote `n`, as long as eight bits can hold the number. -/
def moreBits? (n : Nat) : List UInt8 → Option Nat
  | [] => some n
  | b :: rest =>
    let longer := 2 * n + (b.toNat - '0'.toNat)
    if isBitByte b ∧ longer < 2 ^ Layout.maxOpcodeBits then moreBits? longer rest else none

/-- A binary numeral of any length for a number of eight bits, perhaps with a plus sign.  A sign
alone is no numeral. -/
def ofBits? : List UInt8 → Option Nat
  | [] => none
  | b :: rest =>
    if b = '+'.toUInt8 then
      if rest = [] then none else moreBits? 0 rest
    else moreBits? 0 (b :: rest)

theorem isBitByte_ofNat (k : Nat) :
    isBitByte (UInt8.ofNat k) = true ↔ k % 256 = 48 ∨ k % 256 = 49 := by
  have hzero : '0'.toUInt8.toNat = 48 := rfl
  have hone : '1'.toUInt8.toNat = 49 := rfl
  simp only [isBitByte, Bool.or_eq_true, decide_eq_true_eq, ← UInt8.toNat_inj,
    UInt8.toNat_ofNat', hzero, hone]

theorem isBit_iff_toNat {c : Char} : isBit c = true ↔ c.toNat = 48 ∨ c.toNat = 49 := by
  have hzero : '0'.toNat = 48 := rfl
  have hone : '1'.toNat = 49 := rfl
  simp only [isBit, Bool.or_eq_true, decide_eq_true_eq, ← Char.toNat_inj, hzero, hone]

/-- The bytes of another character are not taken for digits. -/
theorem all_isBitByte_utf8EncodeChar (c : Char) :
    (String.utf8EncodeChar c).all isBitByte = true ↔ isBit c = true := by
  have hcode : c.toNat = c.val.toNat := rfl
  rw [isBit_iff_toNat, hcode]
  simp only [String.utf8EncodeChar]
  -- There is a case for every number of bytes, from one to four.
  split_ifs
  all_goals
    simp only [List.all_cons, List.all_nil, Bool.and_true, Bool.and_eq_true, isBitByte_ofNat]
    omega

theorem utf8EncodeChar_of_isBit {c : Char} (h : isBit c = true) :
    String.utf8EncodeChar c = [c.toUInt8] := by
  rcases isBit_iff.mp h with rfl | rfl
  · rfl
  · rfl

/-- Digits that eight bits have room for are read to the end. -/
theorem moreBits?_map {ds : List Char} (h : ∀ c ∈ ds, isBit c = true) {k n : Nat}
    (hn : n < 2 ^ k) (hk : k + ds.length ≤ Layout.maxOpcodeBits) :
    moreBits? n (ds.map Char.toUInt8) = some (Nat.ofDigitChars 2 ds n) := by
  induction ds generalizing k n with
  | nil => rfl
  | cons c ds ih =>
    obtain ⟨hc, hds⟩ := List.forall_mem_cons.mp h
    rw [List.length_cons] at hk
    have hbyte : isBitByte c.toUInt8 = true ∧ c.toUInt8.toNat = c.toNat ∧
        c.toNat - '0'.toNat < 2 := by
      rcases isBit_iff.mp hc with rfl | rfl
      · exact ⟨rfl, rfl, by decide⟩
      · exact ⟨rfl, rfl, by decide⟩
    obtain ⟨hbit, htoNat, hdigit⟩ := hbyte
    have hlonger : 2 * n + (c.toNat - '0'.toNat) < 2 ^ (k + 1) := by
      rw [Nat.pow_succ]
      omega
    have hfits : 2 ^ (k + 1) ≤ 2 ^ Layout.maxOpcodeBits :=
      Nat.pow_le_pow_right (by decide) (by omega)
    rw [List.map_cons, moreBits?, Nat.ofDigitChars_cons, htoNat]
    rw [if_pos ⟨hbit, Nat.lt_of_lt_of_le hlonger hfits⟩]
    exact ih hds hlonger (by omega)

/-- A text of binary digits that is not too long is read from its bytes. -/
theorem ofBits?_map {ds : List Char} (h : ∀ c ∈ ds, isBit c = true) (hne : ds ≠ [])
    (hlength : ds.length ≤ Layout.maxOpcodeBits) :
    ofBits? (ds.map Char.toUInt8) = some (Nat.ofDigitChars 2 ds 0) := by
  cases ds with
  | nil => exact absurd rfl hne
  | cons c ds =>
    have hsign : c.toUInt8 ≠ '+'.toUInt8 := by
      rcases isBit_iff.mp (h c List.mem_cons_self) with rfl | rfl
      · decide
      · decide
    rw [List.map_cons, ofBits?, if_neg hsign, ← List.map_cons]
    exact moreBits?_map h (by decide : 0 < 2 ^ 0) (by omega)

end Numeral

namespace Text

/-- The bytes that a text is kept in. -/
def bytes (text : String) : List UInt8 := text.toUTF8.data.toList

variable {text : String}

theorem bytes_eq (text : String) : bytes text = text.toList.flatMap String.utf8EncodeChar := by
  rw [bytes, String.toUTF8, ← String.utf8Encode_toList, List.utf8Encode]
  simp

/-- The bytes of a text are all digits exactly if its characters are. -/
theorem all_isBitByte_bytes :
    (bytes text).all Numeral.isBitByte = true ↔ ∀ c ∈ text.toList, Numeral.isBit c = true := by
  rw [bytes_eq, List.all_flatMap, List.all_eq_true]
  exact forall₂_congr fun c _ ↦ Numeral.all_isBitByte_utf8EncodeChar c

/-- Among digits, bytes and characters are the same thing. -/
theorem bytes_of_bits (h : ∀ c ∈ text.toList, Numeral.isBit c = true) :
    bytes text = text.toList.map Char.toUInt8 := by
  rw [bytes_eq, List.map_eq_flatMap]
  exact List.flatMap_congr fun c hc ↦ Numeral.utf8EncodeChar_of_isBit (h c hc)

theorem length_bytes_of_bits (h : ∀ c ∈ text.toList, Numeral.isBit c = true) :
    (bytes text).length = text.toList.length := by
  rw [bytes_of_bits h, List.length_map]

/-- Length and digits can be tested on the bytes.  The length alone could not. -/
theorem tested_bytes_iff {width : Nat} :
    ((bytes text).length = width ∧ (bytes text).all Numeral.isBitByte = true) ↔
      (text.toList.length = width ∧ text.toList.all Numeral.isBit = true) := by
  rw [all_isBitByte_bytes, List.all_eq_true]
  refine and_congr_left ?_
  intro h
  rw [length_bytes_of_bits h]

end Text

namespace Profile

/-- The mnemonic for a pattern that is kept in these bytes. -/
def mnemonicOfBytes (p : Profile) (pattern : List UInt8) : String :=
  if pattern.length = p.layout.opcodeBits ∧ pattern.all Numeral.isBitByte then
    match Numeral.ofBits? pattern with
    | some code => p.mnemonic code
    | none => unknownMnemonic
  else unknownMnemonic

/-- On bytes the lookup finds what it finds on characters. -/
theorem Coded.mnemonicOfBytes_bytes {p : Profile} (hp : p.Coded) (pattern : String) :
    p.mnemonicOfBytes (Text.bytes pattern) = p.mnemonicOfPattern pattern := by
  by_cases htest : pattern.toList.length = p.layout.opcodeBits ∧
      pattern.toList.all Numeral.isBit = true
  · have hbits := List.all_eq_true.mp htest.2
    have hne : pattern.toList ≠ [] := by
      rw [← List.length_pos_iff, htest.1]
      exact hp.opcodeBits_pos
    have hle : pattern.toList.length ≤ Layout.maxOpcodeBits := by
      rw [htest.1]
      exact hp.opcodeBits_le
    rw [mnemonicOfBytes, if_pos (Text.tested_bytes_iff.mpr htest), Text.bytes_of_bits hbits,
      Numeral.ofBits?_map hbits hne hle, mnemonicOfPattern, Numeral.ofBinary?, if_pos htest]
  · rw [mnemonicOfBytes, if_neg (mt Text.tested_bytes_iff.mp htest), mnemonicOfPattern,
      Numeral.ofBinary?, if_neg htest]

end Profile

/-! ## The listing -/

namespace Listing

/-- Code and mnemonic, if the line is one of an opcode: the first words behind four blanks. -/
def shown? (line : String) : Option (String × String) :=
  if "    ".toList.isPrefixOf line.toList then
    match Text.words line with
    | code :: mnemonic :: _ => some (code, mnemonic)
    | _ => none
  else none

/-- The heading of a machine is not taken for the line of an opcode, since it is not indented. -/
theorem shown?_heading (a : Architecture) : shown? (a.name ++ " (" ++ a.key ++ "):") = none := by
  refine if_neg ?_
  cases a <;> decide

/-- The title of the instruction set is not taken for one, since it has two blanks in front. -/
theorem shown?_title : shown? "  Instruction set:" = none := by
  rw [shown?, if_neg (by decide)]

/-- The line of a program is not taken for one: it has two blanks and then its number. -/
theorem shown?_entry (e : Catalog.Entry) : shown? ("  " ++ e.line) = none := by
  have hword := Text.isWord_decimal e.menuNumber
  have hne : (Numeral.decimal e.menuNumber).toList ≠ [] := fun hnil ↦
    hword.ne_empty (String.toList_inj.mp hnil)
  obtain ⟨c, cs, hdigits⟩ := List.exists_cons_of_ne_nil hne
  have hc : c ≠ ' ' := by
    rintro rfl
    have hsolid := hword.solid ' ' (by simp [hdigits])
    exact absurd hsolid (by decide)
  refine if_neg ?_
  simp [Catalog.Entry.line, hdigits, hc.symm]

end Listing

namespace Profile

namespace Coded

variable {p : Profile} (hp : p.Coded)
include hp

theorem isWord_codeText {op : Opcode} (hop : op ∈ p.opcodes) : Text.IsWord (p.codeText op) := by
  obtain ⟨hlength, hbits, -⟩ := (hp.codeText_iff _ op hop).mp rfl
  refine ⟨?_, ?_⟩
  · intro hempty
    have hpos := hp.opcodeBits_pos
    rw [← hlength, hempty] at hpos
    exact absurd hpos (by decide)
  · intro c hc
    rcases hbits c hc with rfl | rfl
    · decide
    · decide

theorem exists_words_template {op : Opcode} (hop : op ∈ p.opcodes) :
    ∃ operand, Text.words op.template = op.mnemonic :: operand := by
  have hword := (hp.isWord_mnemonic op hop).words_eq
  by_cases himplied : op.operand = .implied
  · refine ⟨[], ?_⟩
    rw [Opcode.template, Opcode.render, himplied, OperandForm.suffix, String.append_empty, hword]
  · refine ⟨Text.words (op.operand.sign ++ ("M(" ++ ("X" ++ op.operand.ending))), ?_⟩
    rw [Opcode.template, Opcode.render, OperandForm.suffix_eq himplied, ← String.append_assoc,
      Text.words_append_space, hword, List.singleton_append]

/-- The line of an opcode shows its code and its mnemonic. -/
theorem shown?_opcode {op : Opcode} (hop : op ∈ p.opcodes) :
    Listing.shown? ("    " ++ p.codeText op ++ "  " ++ op.template) =
      some (p.codeText op, op.mnemonic) := by
  obtain ⟨operand, htemplate⟩ := hp.exists_words_template hop
  have hsplit : "    " ++ p.codeText op ++ "  " ++ op.template =
      "   " ++ " " ++ p.codeText op ++ " " ++ ("" ++ " " ++ op.template) := by
    apply String.toList_inj.mp
    simp
  have hwords : Text.words ("    " ++ p.codeText op ++ "  " ++ op.template) =
      p.codeText op :: op.mnemonic :: operand := by
    rw [hsplit, Text.words_append_space, Text.words_append_space, Text.words_append_space,
      (hp.isWord_codeText hop).words_eq, htemplate]
    rfl
  have hindented : "    ".toList.isPrefixOf
      ("    " ++ p.codeText op ++ "  " ++ op.template).toList = true := by
    simp
  rw [Listing.shown?, if_pos hindented, hwords]

end Coded

namespace Registered

variable {p : Profile} (hp : p.Registered)
include hp

theorem opcodes_eq : (ofArchitecture p.architecture).opcodes = p.opcodes := by
  obtain ⟨a, policy, rfl⟩ := hp
  cases a <;> rfl

theorem codeText_eq : (ofArchitecture p.architecture).codeText = p.codeText := by
  funext op
  rw [codeText, hp.layout_eq]
  rfl

/-- The lines of a machine show its opcodes, and no other line could be taken for one of these. -/
theorem shown_machineLines (entries : List Catalog.Entry) :
    (Listing.machineLines p.architecture entries).filterMap Listing.shown? =
      p.opcodes.map fun op => (p.codeText op, op.mnemonic) := by
  have hentries : (entries.map fun e => "  " ++ e.line).filterMap Listing.shown? = [] := by
    rw [List.filterMap_eq_nil_iff, List.forall_mem_map]
    exact fun e _ ↦ Listing.shown?_entry e
  have hopcodes : (p.opcodes.map fun op => "    " ++ p.codeText op ++ "  " ++ op.template).filterMap
      Listing.shown? = p.opcodes.map fun op => (p.codeText op, op.mnemonic) := by
    rw [List.filterMap_map, ← List.filterMap_eq_map]
    refine List.filterMap_congr ?_
    intro op hop
    rw [Function.comp_apply, hp.coded.shown?_opcode hop, Function.comp_apply]
  simp only [Listing.machineLines, List.filterMap_append, List.filterMap_cons, List.filterMap_nil,
    Listing.shown?_heading, Listing.shown?_title, hentries, hp.opcodes_eq, hp.codeText_eq, hopcodes,
    List.nil_append]

end Registered

/-- What is found for a pattern. -/
structure Finds (p : Profile) (pattern found : String) : Prop where
  known_iff : found ≠ unknownMnemonic ↔ ∃ op ∈ p.opcodes, pattern = p.codeText op
  mnemonic_eq : ∀ op ∈ p.opcodes, pattern = p.codeText op → found = op.mnemonic
  /-- The listing of the machine shows both, whatever programs it names. -/
  shown_iff : ∀ (entries : List Catalog.Entry) (mnemonic : String), (pattern, mnemonic) ∈
    (Listing.lines [(p.architecture, entries)]).filterMap Listing.shown? ↔
      found = mnemonic ∧ mnemonic ≠ unknownMnemonic
  /-- So there is no sign in the pattern, no blank, and nothing that takes several bytes. -/
  digits : found ≠ unknownMnemonic → (Text.bytes pattern).length = p.layout.opcodeBits ∧
    pattern.length = p.layout.opcodeBits ∧ ∀ c ∈ pattern.toList, c = '0' ∨ c = '1'

/-- Of either machine the lookup finds what the listing shows. -/
theorem Registered.finds_mnemonicOfPattern {p : Profile} (hp : p.Registered) (pattern : String) :
    p.Finds pattern (p.mnemonicOfPattern pattern) where
  known_iff := hp.coded.mnemonicOfPattern_ne_unknown_iff pattern
  mnemonic_eq := by
    rintro op hop rfl
    exact hp.coded.mnemonicOfPattern_codeText hop
  shown_iff := by
    intro entries mnemonic
    rw [Listing.lines, List.flatMap_singleton, hp.shown_machineLines, List.mem_map]
    constructor
    · rintro ⟨op, hop, hshown⟩
      obtain ⟨rfl, rfl⟩ := Prod.mk.inj hshown
      exact ⟨hp.coded.mnemonicOfPattern_codeText hop, hp.coded.mnemonic_ne_unknown op hop⟩
    · rintro ⟨rfl, hknown⟩
      obtain ⟨op, hop, rfl⟩ := hp.coded.exists_of_mnemonicOfPattern hknown
      exact ⟨op, hop, by rw [hp.coded.mnemonicOfPattern_codeText hop]⟩
  digits := by
    intro hknown
    obtain ⟨op, hop, hpattern⟩ := hp.coded.exists_of_mnemonicOfPattern hknown
    obtain ⟨hlength, hbits, -⟩ := (hp.coded.codeText_iff pattern op hop).mp hpattern
    have hbytes := Text.length_bytes_of_bits fun c hc ↦ Numeral.isBit_iff.mpr (hbits c hc)
    exact ⟨hbytes.trans (String.length_toList.trans hlength), hlength, hbits⟩

end Profile

/-- A pattern has a mnemonic exactly if the listing of the machine shows it as the code of an
opcode, and then it is the mnemonic of that opcode.  A code is shown in zeros and ones, as many as
the opcode field has bits, and nothing else is accepted for it.  It makes no difference if the
pattern is looked up byte by byte. -/
theorem pattern_lookup_inverts_listing {p : Profile} (hp : p.Registered) (pattern : String) :
    p.Finds pattern (p.mnemonicOfPattern pattern) ∧
    (∀ op ∈ p.opcodes, pattern = p.codeText op ↔ pattern.length = p.layout.opcodeBits ∧
      (∀ c ∈ pattern.toList, c = '0' ∨ c = '1') ∧ Numeral.value 2 pattern.toList = op.code) ∧
    p.mnemonicOfBytes (Text.bytes pattern) = p.mnemonicOfPattern pattern :=
  ⟨hp.finds_mnemonicOfPattern pattern, hp.coded.codeText_iff pattern,
    hp.coded.mnemonicOfBytes_bytes pattern⟩

/-- A multiplication, and patterns with as many bytes that are not found: with a sign, with a letter
of two bytes, and with a code that no opcode has. -/
theorem pattern_lookup_of_multiplication :
    Profile.ias.mnemonicOfPattern "00001110" = "MUL" ∧
      Profile.ias.mnemonicOfPattern "+0001110" = unknownMnemonic ∧
      Profile.ias.mnemonicOfPattern "000011é" = unknownMnemonic ∧
      Profile.ias.mnemonicOfPattern "00010011" = unknownMnemonic := by
  have hp : Profile.ias.Registered := ⟨.ias, .simplified, rfl⟩
  obtain ⟨hfinds, -, -⟩ := pattern_lookup_inverts_listing hp "00001110"
  obtain ⟨hsign, -, -⟩ := pattern_lookup_inverts_listing hp "+0001110"
  obtain ⟨hletter, -, -⟩ := pattern_lookup_inverts_listing hp "000011é"
  obtain ⟨hfree, hcode, -⟩ := pattern_lookup_inverts_listing hp "00010011"
  refine ⟨?_, ?_, ?_, ?_⟩
  · exact hfinds.mnemonic_eq ⟨0x0E, "MUL", .memory⟩ (by decide) (by decide +kernel)
  · by_contra hknown
    exact absurd ((hsign.digits hknown).2.2 '+' (by decide)) (by decide)
  · by_contra hknown
    exact absurd (hletter.digits hknown).2.1 (by decide)
  · by_contra hknown
    obtain ⟨op, hop, hpattern⟩ := hfree.known_iff.mp hknown
    have hvalue := ((hcode op hop).mp hpattern).2.2
    have hcodes : ∀ op ∈ Profile.ias.opcodes, op.code ≠ 19 := by decide
    exact hcodes op hop hvalue.symm

end FetchExecute
