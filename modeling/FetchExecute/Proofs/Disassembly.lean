import FetchExecute.Proofs.Layout
import FetchExecute.Proofs.Numeral
import Mathlib.Data.List.Nodup

/-!
# Disassembly loses nothing

The text of an instruction is a mnemonic and an operand.  Several opcodes share a
mnemonic and are told apart by the form of the operand, an address is written in the
notation of the machine, and the right instruction of a word is left out if it is
zero.  Still, two words whose instructions all have operands are disassembled alike
only if they are the same up to their last bit (`disassembly_determines_word`).

The text is read from the left, one part after the other:

| part | ends before | and tells |
|---|---|---|
| mnemonic | the first blank | with the form, the opcode |
| sign of the operand | the first `M` | with the ending, the form |
| address | what is no letter or digit | the address |
| ending | the semicolon, or the end | |

Opcode and address make up the instruction (`Layout.PacksFields`), and the instructions
of a word make up the word (`Layout.Regular.mod_eq_iff`).
-/

namespace FetchExecute

/-! ## Texts of two instructions -/

namespace Text

variable {left left' right right' : String}

theorem ne_append_of_notMem {text : String} (h : ';' ∉ text.toList) :
    text ≠ left ++ " ; " ++ right := by
  rintro rfl
  exact h (by simp)

/-- Two instructions on a line are told apart at the semicolon. -/
theorem append_semicolon_inj (h : ';' ∉ left.toList) (h' : ';' ∉ left'.toList)
    (heq : left ++ " ; " ++ right = left' ++ " ; " ++ right') : left = left' ∧ right = right' := by
  have hsplit (l r : String) : l ++ " ; " ++ r = (l ++ " ") ++ ("; " ++ r) :=
    String.toList_inj.mp (by simp)
  have hbefore {text : String} (htext : ';' ∉ text.toList) : ';' ∉ (text ++ " ").toList := by
    simp [htext]
  rw [hsplit, hsplit] at heq
  obtain ⟨hleft, hright⟩ := append_inj_of_notMem rfl (hbefore h) (hbefore h') heq
  exact ⟨(String.append_left_inj _).mp hleft, hright⟩

end Text

/-! ## Operands -/

namespace OperandForm

/-- What stands before the `M` of an operand in memory. -/
def sign : OperandForm → String
  | .negated => "-"
  | .absolute => "|"
  | .negatedAbsolute => "-|"
  | _ => ""

/-- What stands after the address of an operand in memory. -/
def ending : OperandForm → String
  | .absolute | .negatedAbsolute => ")|"
  | .leftHalf => ",0:19)"
  | .rightHalf => ",20:39)"
  | .addressField => ",8:19)"
  | _ => ")"

variable {form form' : OperandForm}

/-- The suffix of an operand, cut where its parts end. -/
theorem suffix_eq (h : form ≠ .implied) (address : String) :
    form.suffix address = " " ++ (form.sign ++ ("M(" ++ (address ++ form.ending))) := by
  apply String.toList_inj.mp
  cases form with
  | implied => exact absurd rfl h
  | _ => simp [suffix, sign, ending]

theorem notMem_sign (form : OperandForm) : 'M' ∉ form.sign.toList := by
  cases form <;> decide

theorem head?_ending (form : OperandForm) :
    form.ending.toList.head? = some ')' ∨ form.ending.toList.head? = some ',' := by
  cases form with
  | leftHalf | rightHalf | addressField => exact .inr rfl
  | _ => exact .inl rfl

theorem not_isAlphanum_ending (form : OperandForm) :
    ∀ c ∈ form.ending.toList.head?, c.isAlphanum = false := by
  intro c hc
  rcases form.head?_ending with hhead | hhead
  · obtain rfl := Option.some.inj (hhead.symm.trans hc)
    rfl
  · obtain rfl := Option.some.inj (hhead.symm.trans hc)
    rfl

/-- Sign and ending belong to one form only. -/
theorem eq_of_sign_of_ending (h : form ≠ .implied) (h' : form' ≠ .implied)
    (hsign : form.sign = form'.sign) (hending : form.ending = form'.ending) : form = form' := by
  cases form <;> cases form' <;> simp_all [sign, ending]

/-- No two operands are written alike. -/
theorem suffix_inj (h : form ≠ .implied) (h' : form' ≠ .implied) {address address' : String}
    (haddress : ∀ c ∈ address.toList, c.isAlphanum = true)
    (haddress' : ∀ c ∈ address'.toList, c.isAlphanum = true)
    (heq : form.suffix address = form'.suffix address') : form = form' ∧ address = address' := by
  rw [suffix_eq h, suffix_eq h', String.append_right_inj] at heq
  obtain ⟨hsign, hrest⟩ :=
    Text.append_inj_of_notMem rfl form.notMem_sign form'.notMem_sign heq
  obtain ⟨rfl, hending⟩ := Text.append_inj_of_forall haddress haddress'
    form.not_isAlphanum_ending form'.not_isAlphanum_ending hrest
  exact ⟨eq_of_sign_of_ending h h' hsign hending, rfl⟩

end OperandForm

/-! ## Instructions -/

namespace Profile

theorem isAlphanum_of_mem_formatAddress (p : Profile) {address : Nat} {c : Char}
    (hc : c ∈ (p.formatAddress address).toList) : c.isAlphanum = true := by
  by_contra hkind
  have hdigits : ∀ d ∈ Numeral.alphabet, d.isAlphanum = true := List.all_eq_true.mp rfl
  refine p.notMem_formatAddress ?_ ?_ address hc
  · exact fun hmem ↦ hkind (hdigits c hmem)
  · rintro rfl
    exact hkind rfl

/-- The instruction has an opcode of the machine, and that one an operand in memory. -/
def Addresses (p : Profile) (instruction : Nat) : Prop :=
  ∃ op, p.opcode? (p.layout.opcode instruction) = some op ∧ op.operand ≠ .implied

/-- Every instruction of the word has an operand, but for a right one of zero. -/
structure Readable (p : Profile) (word : Nat) : Prop where
  left : p.Addresses (p.layout.instruction word .left)
  right : p.layout.instruction word .right = 0 ∨ p.Addresses (p.layout.instruction word .right)

variable {p : Profile}

/-- A known opcode is disassembled to its mnemonic and its operand. -/
theorem disassemble_of_opcode {instruction : Nat} {op : Opcode}
    (h : p.opcode? (p.layout.opcode instruction) = some op) :
    p.disassemble instruction =
      op.mnemonic ++ op.operand.suffix (p.formatAddress (p.layout.address instruction)) := by
  rw [disassemble, h]
  rfl

theorem code_of_opcode? {code : Nat} {op : Opcode} (h : p.opcode? code = some op) :
    op.code = code := by
  simpa using List.find?_some h

namespace Registered

variable (hp : p.Registered)
include hp

/-- Mnemonics contain neither blanks nor semicolons. -/
theorem notMem_mnemonic : ∀ op ∈ p.opcodes, ' ' ∉ op.mnemonic.toList ∧ ';' ∉ op.mnemonic.toList := by
  obtain ⟨a, policy, rfl⟩ := hp
  show ∀ op ∈ (ofArchitecture a).opcodes, _
  cases a <;> decide

/-- Opcodes with the same mnemonic differ in their operands. -/
theorem eq_of_mnemonic_of_operand {op op' : Opcode} (h : op ∈ p.opcodes) (h' : op' ∈ p.opcodes)
    (hmnemonic : op.mnemonic = op'.mnemonic) (hoperand : op.operand = op'.operand) : op = op' := by
  have hnodup : (p.opcodes.map fun op => (op.mnemonic, op.operand)).Nodup := by
    obtain ⟨a, policy, rfl⟩ := hp
    show ((ofArchitecture a).opcodes.map _).Nodup
    cases a <;> decide
  exact List.inj_on_of_nodup_map hnodup h h' (Prod.ext hmnemonic hoperand)

/-- An instruction with an operand can be assembled from its text. -/
theorem eq_of_disassemble {i i' : Nat} (h : p.Addresses i) (h' : p.Addresses i')
    (hlt : i < 2 ^ p.layout.instructionBits) (hlt' : i' < 2 ^ p.layout.instructionBits)
    (heq : p.disassemble i = p.disassemble i') : i = i' := by
  obtain ⟨op, hop, hoperand⟩ := h
  obtain ⟨op', hop', hoperand'⟩ := h'
  have hmem := List.mem_of_find?_eq_some hop
  have hmem' := List.mem_of_find?_eq_some hop'
  have hblank {form : OperandForm} (h : form ≠ .implied) (address : String) :
      ∃ rest, form.suffix address = " " ++ rest := ⟨_, OperandForm.suffix_eq h address⟩
  obtain ⟨rest, hrest⟩ := hblank hoperand (p.formatAddress (p.layout.address i))
  obtain ⟨rest', hrest'⟩ := hblank hoperand' (p.formatAddress (p.layout.address i'))
  rw [disassemble_of_opcode hop, disassemble_of_opcode hop', hrest, hrest'] at heq
  obtain ⟨hmnemonic, rfl⟩ := Text.append_inj_of_notMem rfl (hp.notMem_mnemonic op hmem).1
    (hp.notMem_mnemonic op' hmem').1 heq
  obtain ⟨hform, haddress⟩ := OperandForm.suffix_inj hoperand hoperand'
    (fun _ ↦ p.isAlphanum_of_mem_formatAddress) (fun _ ↦ p.isAlphanum_of_mem_formatAddress)
    (hrest.trans hrest'.symm)
  obtain rfl := hp.eq_of_mnemonic_of_operand hmem hmem' hmnemonic hform
  have hcode : p.layout.opcode i = p.layout.opcode i' :=
    (code_of_opcode? hop).symm.trans (code_of_opcode? hop')
  have hfields := hp.regular_layout.packsFields.join_fields
  rw [← hfields i hlt, ← hfields i' hlt', hcode, p.formatAddress_injective haddress]

/-- There is no semicolon within an instruction. -/
theorem notMem_disassemble {i : Nat} (h : p.Addresses i) : ';' ∉ (p.disassemble i).toList := by
  obtain ⟨op, hop, hoperand⟩ := h
  have hmnemonic := (hp.notMem_mnemonic op (List.mem_of_find?_eq_some hop)).2
  have haddress := p.notMem_formatAddress (c := ';') (by decide) (by decide) (p.layout.address i)
  have hshape : ';' ∉ op.operand.sign.toList ∧ ';' ∉ op.operand.ending.toList := by
    cases op.operand <;> decide
  rw [disassemble_of_opcode hop, OperandForm.suffix_eq hoperand]
  simp [hmnemonic, haddress, hshape]

end Registered

/-! ## Words -/

/-- The right instruction is shown exactly where there is one. -/
theorem disassembleWord_eq (p : Profile) (word : Nat) :
    p.disassembleWord word =
      if p.layout.instruction word .right = 0 then
        p.disassemble (p.layout.instruction word .left)
      else
        p.disassemble (p.layout.instruction word .left) ++ " ; " ++
          p.disassemble (p.layout.instruction word .right) := by
  have hnone : p.layout.perWord < 2 → p.layout.instruction word .right = 0 := fun hone ↦
    Layout.right_of_ne_two (Nat.ne_of_lt hone) word
  simp only [disassembleWord]
  by_cases hright : p.layout.instruction word .right = 0
  · rw [if_pos (.inr hright), if_pos hright]
  · rw [if_neg (not_or_intro (fun hone ↦ hright (hnone hone)) hright), if_neg hright]

/-- A word is disassembled to one instruction exactly if its right half is zero. -/
theorem disassembleWord_eq_left_iff (p : Profile) (word : Nat) :
    p.disassembleWord word = p.disassemble (p.layout.instruction word .left) ↔
      p.layout.instruction word .right = 0 := by
  rw [disassembleWord_eq]
  by_cases hright : p.layout.instruction word .right = 0
  · simp [hright]
  · simp [hright, String.append_assoc]

/-- The text of a word tells both of its instructions. -/
theorem Registered.instruction_eq_of_disassembleWord (hp : p.Registered) {word word' : Nat}
    (h : p.Readable word) (h' : p.Readable word')
    (heq : p.disassembleWord word = p.disassembleWord word') (half : Half) :
    p.layout.instruction word half = p.layout.instruction word' half := by
  have hinstruction (half : Half) (ha : p.Addresses (p.layout.instruction word half))
      (ha' : p.Addresses (p.layout.instruction word' half)) :=
    hp.eq_of_disassemble ha ha' (p.layout.instruction_lt word half)
      (p.layout.instruction_lt word' half)
  have hplain := hp.notMem_disassemble h.left
  have hplain' := hp.notMem_disassemble h'.left
  rw [disassembleWord_eq, disassembleWord_eq] at heq
  by_cases hright : p.layout.instruction word .right = 0
  · by_cases hright' : p.layout.instruction word' .right = 0
    · rw [if_pos hright, if_pos hright'] at heq
      cases half with
      | left => exact hinstruction .left h.left h'.left heq
      | right => rw [hright, hright']
    · rw [if_pos hright, if_neg hright'] at heq
      exact absurd heq (Text.ne_append_of_notMem hplain)
  · by_cases hright' : p.layout.instruction word' .right = 0
    · rw [if_neg hright, if_pos hright'] at heq
      exact absurd heq.symm (Text.ne_append_of_notMem hplain')
    · rw [if_neg hright, if_neg hright'] at heq
      obtain ⟨hleftText, hrightText⟩ := Text.append_semicolon_inj hplain hplain' heq
      cases half with
      | left => exact hinstruction .left h.left h'.left hleftText
      | right =>
        exact hinstruction .right (h.right.resolve_left hright) (h'.right.resolve_left hright')
          hrightText

theorem disassembleWord_congr {word word' : Nat}
    (h : ∀ half, p.layout.instruction word half = p.layout.instruction word' half) :
    p.disassembleWord word = p.disassembleWord word' := by
  rw [disassembleWord_eq, disassembleWord_eq, h .left, h .right]

end Profile

/-- Two words whose instructions have operands, or nothing on the right, are disassembled alike only
if they are the same in every bit that the machine has for them.  A right instruction is left out
only if it is zero, and no two operands, in form or address, are written alike. -/
theorem disassembly_determines_word {p : Profile} (hp : p.Registered) :
    (∀ {word word' : Nat}, p.Readable word → p.Readable word' →
      (p.disassembleWord word = p.disassembleWord word' ↔
        word % 2 ^ p.wordBits = word' % 2 ^ p.wordBits)) ∧
    (∀ word, p.disassembleWord word = p.disassemble (p.layout.instruction word .left) ↔
      p.layout.instruction word .right = 0) ∧
    ∀ {form form' : OperandForm} {address address' : Nat},
      form ≠ .implied → form' ≠ .implied →
      form.suffix (p.formatAddress address) = form'.suffix (p.formatAddress address') →
      form = form' ∧ address = address' := by
  refine ⟨?_, p.disassembleWord_eq_left_iff, ?_⟩
  · intro word word' h h'
    rw [← hp.instructions_fill_word, hp.regular_layout.mod_eq_iff]
    constructor
    · exact hp.instruction_eq_of_disassembleWord h h'
    · exact Profile.disassembleWord_congr
  · intro form form' address address' h h' heq
    obtain ⟨hform, haddress⟩ := OperandForm.suffix_inj h h'
      (fun _ ↦ p.isAlphanum_of_mem_formatAddress) (fun _ ↦ p.isAlphanum_of_mem_formatAddress) heq
    exact ⟨hform, p.formatAddress_injective haddress⟩

/-- `LOAD -M(10) ; STOR M(12,8:19)`, and the same with another form of the second operand. -/
theorem disassembly_tells_store_from_store :
    Profile.ias.disassembleWord 0x0200A1200C = "LOAD -M(10) ; STOR M(12,8:19)" ∧
      Profile.ias.disassembleWord 0x0200A1200C ≠ Profile.ias.disassembleWord 0x0200A0500C ∧
      Profile.ias.disassembleWord (2 ^ 63 + 0x0200A1200C) =
        Profile.ias.disassembleWord 0x0200A1200C := by
  have hp : Profile.ias.Registered := ⟨.ias, .simplified, rfl⟩
  have hfield : Profile.ias.Readable 0x0200A1200C :=
    ⟨⟨_, rfl, by decide⟩, .inr ⟨_, rfl, by decide⟩⟩
  have hwhole : Profile.ias.Readable 0x0200A0500C :=
    ⟨⟨_, rfl, by decide⟩, .inr ⟨_, rfl, by decide⟩⟩
  have habove : Profile.ias.Readable (2 ^ 63 + 0x0200A1200C) :=
    ⟨⟨_, rfl, by decide⟩, .inr ⟨_, rfl, by decide⟩⟩
  obtain ⟨hiff, -⟩ := disassembly_determines_word hp
  refine ⟨by decide +kernel, ?_, (hiff habove hfield).mpr (by decide)⟩
  intro heq
  exact absurd ((hiff hfield hwhole).mp heq) (by decide)

end FetchExecute
