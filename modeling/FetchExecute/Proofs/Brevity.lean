import FetchExecute.Proofs.Description
import FetchExecute.Proofs.Disassembly
import FetchExecute.Proofs.Wrapping

/-!
# Messages fit a box

The sides of a box are straight if its text has no word that is too long for a line
(`Box.length_lines_iff`).  None of the texts about a step has one, whatever its values
are (`Text.Narrow`): neither its label, nor the description of its effect, nor the
message of a fault that it raises.

A text that is short as a whole has no long word (`Text.Brief.narrow`), and a longer one
is cut at a blank (`Text.narrow_append_space`).  How long a text is adds up from its
parts (`Text.Brief.append`).  These are names, of a few letters each, and numbers:

| number | is less than | takes |
|---|---|---|
| address of a word | `2 ^ 12` | 5 characters |
| value of a cell, in any notation | `2 ^ Profile.widest` | 13 characters |
| result of an operation, in full | `2 ^ (Profile.widest + Profile.widest)` | 25 characters |
-/

namespace FetchExecute

/-! ## Texts -/

namespace Text

/-- Without a word that is too long for a line of a box. -/
def Narrow (text : String) : Prop := ∀ word ∈ words text, word.length ≤ Box.inner

/-- Of at most `n` characters. -/
def Brief (n : Nat) (text : String) : Prop := text.length ≤ n

instance (n : Nat) : DecidablePred (Brief n) := fun _ ↦ inferInstanceAs (Decidable (_ ≤ _))

/-- Each side of a blank is on its own. -/
theorem narrow_append_space {before after : String} (h : Narrow before) (h' : Narrow after) :
    Narrow (before ++ " " ++ after) := by
  intro word hword
  rw [words_append_space, List.mem_append] at hword
  exact hword.elim (h word) (h' word)

/-- However it is put together. -/
theorem Narrow.congr {text text' : String} (h : Narrow text) (heq : text.toList = text'.toList) :
    Narrow text' :=
  String.toList_inj.mp heq ▸ h

theorem brief (text : String) : Brief text.length text := Nat.le_refl _

namespace Brief

variable {n k : Nat} {text text' : String}

/-- Lengths add up where texts are joined. -/
theorem append (h : Brief n text) (h' : Brief k text') : Brief (n + k) (text ++ text') := by
  unfold Brief
  rw [String.length_append]
  exact Nat.add_le_add h h'

theorem mono (h : Brief n text) (hle : n ≤ k) : Brief k text := Nat.le_trans h hle

/-- A bound that is a number is compared with the width of a line by computing it. -/
theorem narrow (h : Brief n text) (hle : n ≤ Box.inner := by decide) : Narrow text :=
  fun _ hword ↦ Nat.le_trans (length_le_of_mem_words hword) (h.mono hle)

end Brief

end Text

open Text

/-! ## Names -/

theorem Register.brief_name (r : Register) : Brief 3 r.name := by cases r <;> decide

theorem Half.brief_name (half : Half) : Brief 5 half.name := by cases half <;> decide

theorem AluOp.brief_noun (op : AluOp) : Brief 14 op.noun := by cases op <;> decide

theorem Phase.brief_label (phase : Phase) : Brief 13 phase.label := by cases phase <;> decide

theorem RunState.brief_name (state : RunState) : Brief 9 state.name := by cases state <;> decide

/-- The words of the longest phrase, besides the two operands, take fifteen characters. -/
theorem AluOp.brief_phrase (op : AluOp) {n : Nat} {left right : String} (hleft : Brief n left)
    (hright : Brief n right) : Brief (n + n + 15) (op.phrase left right) := by
  cases op with
  | add =>
    have htext := (((brief "Add ").append hright).append (brief " to ")).append hleft
    exact htext.mono (show 4 + n + 4 + n ≤ _ by omega)
  | sub =>
    have htext := (((brief "Subtract ").append hright).append (brief " from ")).append hleft
    exact htext.mono (show 9 + n + 6 + n ≤ _ by omega)
  | mul =>
    have htext := (((brief "Multiply ").append hleft).append (brief " by ")).append hright
    exact htext.mono (show 9 + n + 4 + n ≤ _ by omega)
  | div =>
    have htext := (((brief "Divide ").append hleft).append (brief " by ")).append hright
    exact htext.mono (show 7 + n + 4 + n ≤ _ by omega)

/-! ## Labels -/

namespace MicroOp

/-- Even with both destinations named, the action of the arithmetic unit fits on a line. -/
theorem brief_combineAction (op : AluOp) (left right target : Register)
    (second : Option Register) : Brief Box.inner (combineAction op left right target second) := by
  have hphrase := op.brief_phrase left.brief_name right.brief_name
  unfold combineAction
  split
  · rename_i low
    have htext := (((hphrase.append (brief "; high part to ")).append target.brief_name).append
      (brief ", low part to ")).append low.brief_name
    exact htext.mono (by decide)
  · rename_i rest
    have htext := (((hphrase.append (brief "; quotient to ")).append target.brief_name).append
      (brief ", remainder to ")).append rest.brief_name
    exact htext.mono (by decide)
  · split
    · exact hphrase.mono (by decide)
    · exact ((hphrase.append (brief " into ")).append target.brief_name).mono (by decide)

/-- The action of any micro-operation fits on a line. -/
theorem brief_action (phase : Phase) (op : MicroOp) : Brief Box.inner (op.action phase) := by
  cases op with
  | observe r =>
    exact (r.brief_name.append (brief " holds the address of the instruction")).mono (by decide)
  | copy source target =>
    have htext := (((brief "Copy ").append source.brief_name).append (brief " to ")).append
      target.brief_name
    exact htext.mono (by decide)
  | readMemory address target =>
    cases phase with
    | fetch =>
      have htext := (brief "Read instruction word from memory into ").append target.brief_name
      exact htext.mono (by decide)
    | execute =>
      exact ((brief "Read data from memory into ").append target.brief_name).mono (by decide)
  | writeMemory address source =>
    have htext := (((brief "Write ").append source.brief_name).append
      (brief " to memory at ")).append address.brief_name
    exact htext.mono (by decide)
  | increment r => exact ((brief "Increment ").append r.brief_name).mono (by decide)
  | loadHalf half source target =>
    have htext := (((((brief "Transfer ").append half.brief_name).append
      (brief " instruction of ")).append source.brief_name).append (brief " to ")).append
      target.brief_name
    exact htext.mono (by decide)
  | decode r => exact ((brief "Decode instruction in ").append r.brief_name).mono (by decide)
  | extractAddress source mask target =>
    have htext := (((brief "Extract operand address from ").append source.brief_name).append
      (brief " into ")).append target.brief_name
    exact htext.mono (by decide)
  | signal op => exact ((brief "ALU performing ").append op.brief_noun).mono (by decide)
  | combine op left right target second => exact brief_combineAction op left right target second

end MicroOp

/-- The phase stands in front of whatever else is said of a step. -/
theorem Phase.narrow_label_append (phase : Phase) {text : String} (h : Narrow text) :
    Narrow (phase.label ++ " - " ++ text) := by
  have hlabel := (phase.brief_label.append (brief " -")).narrow
  exact (narrow_append_space hlabel h).congr (by simp)

/-- No label of a step has a word that is wider than a line. -/
theorem MicroStep.narrow_label (step : MicroStep) : Narrow step.label :=
  step.phase.narrow_label_append (MicroOp.brief_action step.phase step.op).narrow

/-! ## Values -/

/-- The bits of the widest cell that a machine has. -/
def Profile.widest : Nat := 40

open Profile (widest)

/-- What fits a cell fits the widest one. -/
theorem Profile.lt_widest {v width : Nat} (h : v < 2 ^ width) (hwidth : width ≤ widest) :
    v < 2 ^ widest :=
  Nat.lt_of_lt_of_le h (Nat.pow_le_pow_right (by decide) hwidth)

namespace Numeral

theorem brief_decimal {k n : Nat} (hk : 0 < k) (h : n < 10 ^ k) : Brief k (decimal n) :=
  length_decimal_le hk h

/-- A number below a power of sixteen likewise, with two characters more for the prefix. -/
theorem brief_hex {least k n : Nat} (hk : 0 < k) (hleast : least ≤ k) (h : n < 16 ^ k) :
    Brief (2 + k) (hex least n) := by
  unfold Brief
  rw [length_hex]
  exact Nat.add_le_add_left (length_digits_le (by decide) hk hleast h) 2

/-- A value of a cell, in decimal. -/
theorem brief_decimal_cell {n : Nat} (h : n < 2 ^ widest) : Brief 13 (decimal n) :=
  brief_decimal (by decide) (Nat.lt_trans h (by decide))

/-- A value of a cell, in hexadecimal. -/
theorem brief_hexOfWidth_cell {width n : Nat} (hwidth : width ≤ widest) (h : n < 2 ^ widest) :
    Brief 12 (hexOfWidth width n) := by
  have hforty : widest = 40 := rfl
  exact brief_hex (k := 10) (by decide) (by omega) h

end Numeral

namespace Profile.Registered

variable {p : Profile} (hp : p.Registered)
include hp

theorem wordBits_le_widest : p.wordBits ≤ widest := by
  obtain ⟨a, policy, rfl⟩ := hp
  cases a
  · exact (by decide : 16 ≤ 40)
  · exact (by decide : 40 ≤ 40)

theorem width_le_widest : ∀ declared ∈ p.registers, declared.2 ≤ widest := by
  obtain ⟨a, policy, rfl⟩ := hp
  cases a <;> cases policy <;> decide

theorem width?_le_widest {r : Register} {width : Nat} (h : p.width? r = some width) :
    width ≤ widest := by
  obtain ⟨declared, hdeclared, rfl⟩ := Option.map_eq_some_iff.mp h
  exact hp.width_le_widest declared (List.mem_of_find?_eq_some hdeclared)

/-- Addresses are written in decimal or with three hexadecimal digits at least. -/
theorem brief_formatAddress {a j k : Nat} (hj : 0 < j) (hk : 3 ≤ k) (hdecimal : a < 10 ^ j)
    (hhex : a < 16 ^ k) : Brief (max j (2 + k)) (p.formatAddress a) := by
  have haddresses : p.addresses = .hex 3 ∨ p.addresses = .decimal := by
    obtain ⟨architecture, policy, rfl⟩ := hp
    cases architecture
    · exact .inl rfl
    · exact .inr rfl
  unfold formatAddress
  rcases haddresses with h | h
  · rw [h]
    exact (Numeral.brief_hex (Nat.lt_of_lt_of_le (by decide) hk) hk hhex).mono (Nat.le_max_right ..)
  · rw [h]
    exact (Numeral.brief_decimal hj hdecimal).mono (Nat.le_max_left ..)

/-- The address of a word. -/
theorem brief_formatAddress_word {a : Nat} (h : a < 2 ^ 12) : Brief 5 (p.formatAddress a) :=
  hp.brief_formatAddress (j := 4) (k := 3) (by decide) (by decide) (Nat.lt_trans h (by decide)) h

/-- A value of a cell, written as an address. -/
theorem brief_formatAddress_cell {a : Nat} (h : a < 2 ^ widest) : Brief 13 (p.formatAddress a) :=
  hp.brief_formatAddress (j := 13) (k := 10) (by decide) (by decide) (Nat.lt_trans h (by decide)) h

end Profile.Registered

namespace Storage.Fits

variable {p : Profile} {s : Storage} (h : s.Fits p) (hp : p.Registered)
include h hp

theorem width_le_widest (r : Register) : s.width r ≤ widest := by
  rw [h.width_eq]
  cases hwidth : p.width? r with
  | none => exact Nat.zero_le _
  | some width => exact hp.width?_le_widest hwidth

theorem value_lt_cell (r : Register) : s.value r < 2 ^ widest :=
  Profile.lt_widest (h.value_lt_width r) (h.width_le_widest hp r)

end Storage.Fits

namespace Context

variable {c : Context} {r : Register} {v : Nat} (h : c.storage.Fits c.profile)
  (hp : c.profile.Registered)
include h hp

/-- What an operation reads is a value of a cell. -/
theorem lt_of_read (hread : c.read r = .ok v) : v < 2 ^ widest := by
  have hvalue : c.storage.value r = v := by
    rw [Storage.value, RegisterFile.read_eq_ok_iff.mp hread]
    rfl
  exact hvalue ▸ h.value_lt_cell hp r

theorem lt_of_fit {value : Nat} (hfit : c.fit r value = .ok v) : v < 2 ^ widest := by
  obtain ⟨width, hwidth, hv⟩ := exists_of_bind_eq_ok hfit
  have hdeclared : c.profile.width? r = some width := by
    rw [← h.width?_eq, RegisterFile.widthOf_eq_ok_iff.mp hwidth]
  rw [← Except.ok.inj hv]
  exact Profile.lt_widest (Word.truncate_lt_two_pow width value) (hp.width?_le_widest hdeclared)

/-- However a value of a cell is written, thirteen characters are enough. -/
theorem brief_valueText (r : Register) (hv : v < 2 ^ widest) : Brief 13 (c.valueText r v) := by
  unfold valueText
  split
  · exact hp.brief_formatAddress_cell hv
  · split
    · have hwidth : (c.storage.registers.width? r).getD c.profile.wordBits ≤ widest := by
        rw [h.width?_eq]
        cases hdeclared : c.profile.width? r with
        | none => exact hp.wordBits_le_widest
        | some width => exact hp.width?_le_widest hdeclared
      exact (Numeral.brief_hexOfWidth_cell hwidth hv).mono (by decide)
    · exact Numeral.brief_decimal_cell hv

end Context

/-! ## Descriptions -/

/-- Around the address an operand has twelve characters at most. -/
theorem OperandForm.brief_suffix (form : OperandForm) {n : Nat} {address : String}
    (h : Brief n address) : Brief (n + 12) (form.suffix address) := by
  by_cases hform : form = .implied
  · rw [hform]
    exact (brief "").mono (Nat.zero_le _)
  · have hsign : Brief 2 form.sign := by cases form <;> decide
    have hending : Brief 7 form.ending := by cases form <;> decide
    rw [suffix_eq hform]
    have htext := (brief " ").append (hsign.append ((brief "M(").append (h.append hending)))
    exact htext.mono (show 1 + (2 + (2 + (n + 7))) ≤ _ by omega)

/-- The disassembly of an instruction is at most as long as its mnemonic and its operand can be. -/
theorem Profile.Registered.brief_disassemble {p : Profile} (hp : p.Registered)
    (instruction : Nat) : Brief 23 (p.disassemble instruction) := by
  have hmnemonic : ∀ op ∈ p.opcodes, Brief 6 op.mnemonic := by
    obtain ⟨a, policy, rfl⟩ := hp
    show ∀ op ∈ (ofArchitecture a).opcodes, _
    cases a <;> decide
  have hbits : p.layout.addressBits = 12 := by
    obtain ⟨a, policy, rfl⟩ := hp
    cases a <;> rfl
  have haddress : Brief 5 (p.formatAddress (p.layout.address instruction)) :=
    hp.brief_formatAddress_word (hbits ▸ Word.truncate_lt_two_pow _ _)
  rw [disassemble]
  split
  · rename_i op hop
    exact (hmnemonic op (List.mem_of_find?_eq_some hop)).append (op.operand.brief_suffix haddress)
  · exact ((brief _).append (OperandForm.brief_suffix .memory haddress)).mono (by decide)

namespace Alu

/-- What the arithmetic unit returns is its outcome in closed form. -/
theorem eq_outcome_of_combine {t : Task} {r : Result} (h : combine t = .ok r) :
    r = outcome t := by
  by_cases hzero : t.op = .div ∧ t.right = 0
  · rw [combine_eq_error hzero.1 hzero.2] at h
    cases h
  · rw [combine_eq_ok fun hop hright ↦ hzero ⟨hop, hright⟩] at h
    exact (Except.ok.inj h).symm

variable {t : Task}

theorem primary_lt_cell (hwidth : t.primaryWidth ≤ widest) : (outcome t).primary < 2 ^ widest := by
  rw [← truncate_primary t]
  exact Profile.lt_widest (Word.truncate_lt_two_pow _ _) hwidth

theorem secondary_lt_cell (hwidth : ∀ low ∈ t.secondaryWidth, low ≤ widest) {v : Nat}
    (hv : (outcome t).secondary = some v) : v < 2 ^ widest := by
  have hsome : (t.op.splits && t.secondaryWidth.isSome) = true := by
    rw [← isSome_secondary, hv]
    rfl
  obtain ⟨low, hlow⟩ := Option.isSome_iff_exists.mp (Bool.and_eq_true_iff.mp hsome).2
  rw [← truncate_secondary hlow hv]
  exact Profile.lt_widest (Word.truncate_lt_two_pow _ _) (hwidth low hlow)

/-- Of a product, all the bits of two cells are shown. -/
theorem shown_lt_cells (hleft : t.left < 2 ^ widest) (hright : t.right < 2 ^ widest)
    (hwidth : t.primaryWidth ≤ widest) : (outcome t).shown t.op < 2 ^ (widest + widest) := by
  have hcell : 2 ^ widest ≤ 2 ^ (widest + widest) :=
    Nat.pow_le_pow_right (by decide) (Nat.le_add_left ..)
  have hprimary := Nat.lt_of_lt_of_le (primary_lt_cell hwidth) hcell
  have hfull := full_outcome t
  cases hop : t.op with
  | add => exact hprimary
  | sub => exact hprimary
  | mul =>
    have hproduct : (outcome t).full = t.left * t.right := by
      simp only [Task.exact, hop, reduceCtorEq, if_false] at hfull
      exact_mod_cast hfull
    show (outcome t).full < _
    rw [hproduct, Nat.pow_add]
    exact Nat.mul_lt_mul'' hleft hright
  | div =>
    have hquotient : (outcome t).full = t.left / t.right := by
      simp only [Task.exact, hop, reduceCtorEq, if_false] at hfull
      exact_mod_cast hfull
    show (outcome t).full < _
    rw [hquotient]
    exact Nat.lt_of_le_of_lt (Nat.div_le_self _ _) (Nat.lt_of_lt_of_le hleft hcell)

end Alu

/-- The operands and the full result of an operation may each take more than half a line. -/
theorem MicroOp.narrow_combinedEffect (op : AluOp) (left right target : Register)
    (second : Option Register) {l r : Nat} {result : Alu.Result} (hl : l < 2 ^ widest)
    (hr : r < 2 ^ widest) (hshown : result.shown op < 2 ^ (widest + widest))
    (hprimary : result.primary < 2 ^ widest) (hsecondary : ∀ v ∈ result.secondary, v < 2 ^ widest) :
    Narrow (combinedEffect op left right target second l r result).description := by
  have hoperand (register : Register) {v : Nat} (hv : v < 2 ^ widest) :
      Brief 19 (register.name ++ " (" ++ Numeral.decimal v ++ ")") :=
    ((register.brief_name.append (brief " (")).append (Numeral.brief_decimal_cell hv)).append
      (brief ")")
  have hbrief := op.brief_phrase (hoperand left hl) (hoperand right hr)
  have hphrase : Narrow (op.valuePhrase left right l r ++ " =") :=
    (hbrief.append (brief " =")).narrow
  have hfull : Brief 25 (Numeral.decimal (result.shown op)) :=
    Numeral.brief_decimal (by decide) (Nat.lt_trans hshown (by decide))
  simp only [combinedEffect]
  split
  · rename_i low value hvalue
    have hparts := ((((target.brief_name.append (brief " <- ")).append
      (Numeral.brief_decimal_cell hprimary)).append (brief ", ")).append low.brief_name).append
      ((brief " <- ").append (Numeral.brief_decimal_cell (hsecondary value hvalue)))
    have hrest := narrow_append_space (hfull.append (brief ";")).narrow hparts.narrow
    exact (narrow_append_space hphrase hrest).congr (by simp)
  · show Narrow (if target = left then _ else _)
    split
    · exact (narrow_append_space hphrase hfull.narrow).congr (by simp)
    · have hrest := ((hfull.append (brief " into ")).append target.brief_name).narrow
      exact (narrow_append_space hphrase hrest).congr (by simp)

namespace MicroOp

variable {c : Context} {op : MicroOp} {e : Effect} (h : c.storage.Fits c.profile)
  (hp : c.profile.Registered)
include h hp

/-- The description of an arithmetic step has no word that is wider than a line. -/
theorem narrow_combine {op : AluOp} {left right target : Register} {second : Option Register}
    (he : (combine op left right target second).effect c = .ok e) : Narrow e.description := by
  obtain ⟨result, hresult, rfl⟩ := effect_combine_eq he
  obtain rfl := Alu.eq_outcome_of_combine hresult
  have hwidth := h.width_le_widest hp
  refine narrow_combinedEffect op left right target _ (h.value_lt_cell hp left)
    (h.value_lt_cell hp right) ?_ (Alu.primary_lt_cell (hwidth target)) fun v hv ↦ ?_
  · exact Alu.shown_lt_cells (h.value_lt_cell hp left) (h.value_lt_cell hp right) (hwidth target)
  · refine Alu.secondary_lt_cell (fun low hlow ↦ ?_) hv
    obtain ⟨register, -, rfl⟩ := Option.map_eq_some_iff.mp hlow
    exact hwidth register

/-- What is read from memory is named behind a blank, and so on its own. -/
theorem narrow_readMemory {address target : Register}
    (he : (readMemory address target).effect c = .ok e) : Narrow e.description := by
  obtain ⟨location, hread, he⟩ := exists_of_bind_eq_ok he
  obtain ⟨word, -, he⟩ := exists_of_bind_eq_ok he
  obtain ⟨value, hfit, he⟩ := exists_of_bind_eq_ok he
  obtain rfl := Except.ok.inj he
  have hlocation := hp.brief_formatAddress_cell (Context.lt_of_read h hp hread)
  have hvalue := c.brief_valueText h hp target (Context.lt_of_fit h hp hfit)
  have hfront {what : String} (hwhat : Brief 16 what) := ((((brief "Read ").append hwhat).append
    (brief " from memory (")).append hlocation).append (brief ") into")
  have hback := (target.brief_name.append (brief ": ")).append hvalue
  have hline {what : String} (hwhat : Brief 16 what) :=
    narrow_append_space (hfront hwhat).narrow hback.narrow
  have hword : Brief 16 "instruction word" ∧ Brief 16 "data" := by decide
  cases c.phase with
  | fetch => exact (hline hword.1).congr (by simp)
  | execute => exact (hline hword.2).congr (by simp)

theorem narrow_writeMemory {address source : Register}
    (he : (writeMemory address source).effect c = .ok e) : Narrow e.description := by
  obtain ⟨location, hread, he⟩ := exists_of_bind_eq_ok he
  obtain ⟨-, -, he⟩ := exists_of_bind_eq_ok he
  obtain ⟨value, -, he⟩ := exists_of_bind_eq_ok he
  obtain rfl := Except.ok.inj he
  have hword : Word.truncate c.storage.memory.wordBits value < 2 ^ widest :=
    Profile.lt_widest (Word.truncate_lt_two_pow _ _) (h.wordBits ▸ hp.wordBits_le_widest)
  have hlocation := hp.brief_formatAddress_cell (Context.lt_of_read h hp hread)
  have hvalue := c.brief_valueText h hp source hword
  have htext := (((((brief "Write ").append source.brief_name).append (brief " (")).append
    hvalue).append (brief ") to memory (")).append hlocation |>.append (brief ")")
  exact htext.narrow

/-- No value makes a description too wide for a box. -/
theorem narrow_description (he : op.effect c = .ok e) : Narrow e.description := by
  cases op with
  | observe r =>
    obtain ⟨value, hread, he⟩ := exists_of_bind_eq_ok he
    obtain rfl := Except.ok.inj he
    have hvalue := c.brief_valueText h hp r (Context.lt_of_read h hp hread)
    have htext := ((r.brief_name.append (brief " holds the address of the instruction (")).append
      hvalue).append (brief ")")
    exact htext.narrow
  | copy source target =>
    obtain ⟨value, hread, he⟩ := exists_of_bind_eq_ok he
    obtain ⟨kept, hfit, he⟩ := exists_of_bind_eq_ok he
    obtain rfl := Except.ok.inj he
    have hvalue := c.brief_valueText h hp source (Context.lt_of_fit h hp hfit)
    have htext := ((((((brief "Copy ").append source.brief_name).append (brief " (")).append
      hvalue).append (brief ") to ")).append target.brief_name)
    exact htext.narrow
  | readMemory address target => exact narrow_readMemory h hp he
  | writeMemory address source => exact narrow_writeMemory h hp he
  | increment r =>
    obtain ⟨value, hread, he⟩ := exists_of_bind_eq_ok he
    obtain ⟨next, hfit, he⟩ := exists_of_bind_eq_ok he
    obtain rfl := Except.ok.inj he
    have hvalue := c.brief_valueText h hp r (Context.lt_of_fit h hp hfit)
    have htext := (((brief "Increment ").append r.brief_name).append (brief " to ")).append hvalue
    exact htext.narrow
  | loadHalf half source target =>
    obtain ⟨word, hread, he⟩ := exists_of_bind_eq_ok he
    obtain ⟨value, hfit, he⟩ := exists_of_bind_eq_ok he
    obtain rfl := Except.ok.inj he
    have hvalue := c.brief_valueText h hp target (Context.lt_of_fit h hp hfit)
    have htext := ((((((((brief "Transfer ").append half.brief_name).append
      (brief " instruction of ")).append source.brief_name).append (brief " to ")).append
      target.brief_name).append (brief " (")).append hvalue).append (brief ")")
    exact htext.narrow
  | decode r =>
    obtain ⟨instruction, hread, he⟩ := exists_of_bind_eq_ok he
    obtain rfl := Except.ok.inj he
    have htext := (brief "Decode instruction ").append (hp.brief_disassemble instruction)
    exact htext.narrow
  | extractAddress source mask target =>
    obtain ⟨instruction, hread, he⟩ := exists_of_bind_eq_ok he
    obtain ⟨value, hfit, he⟩ := exists_of_bind_eq_ok he
    obtain rfl := Except.ok.inj he
    have hvalue := c.brief_valueText h hp target (Context.lt_of_fit h hp hfit)
    have hfront := ((brief "Extract operand address (").append hvalue).append (brief ") from")
    have hback := (source.brief_name.append (brief " into ")).append target.brief_name
    exact (narrow_append_space hfront.narrow hback.narrow).congr (by simp)
  | signal op =>
    obtain rfl := Except.ok.inj he
    exact ((brief "ALU performing ").append op.brief_noun).narrow
  | combine op left right target second => exact narrow_combine h hp he

end MicroOp

/-- No description of a step has a word that is wider than a line, in any storage of the profile. -/
theorem MicroStep.narrow_description {step : MicroStep} {p : Profile} {s : Storage} {e : Effect}
    (h : s.Fits p) (hp : p.Registered) (he : step.effect p s = .ok e) : Narrow e.description := by
  obtain ⟨action, hop, he⟩ := exists_of_bind_eq_ok he
  obtain rfl := Except.ok.inj he
  exact step.phase.narrow_label_append (MicroOp.narrow_description h hp hop)

/-! ## Faults -/

/-- No fault that a step can raise has a message with a word that is wider than a line. -/
theorem MicroOp.Raises.narrow_message {p : Profile} {s : Storage} {op : MicroOp} {fault : Fault}
    (hraises : op.Raises p s fault) (h : s.Fits p) (hp : p.Registered) :
    Narrow fault.message := by
  have haddress {r : Register} {v : Nat} (hget : s.registers.get? r = some v) :
      Narrow (Fault.addressOutOfRange v p.memoryWords).message := by
    have hlt : v < 2 ^ widest := by
      have hvalue := h.value_lt_cell hp r
      rwa [Storage.value, hget] at hvalue
    have hsize : Brief 4 (Numeral.decimal p.memoryWords) :=
      Numeral.brief_decimal (by decide) (Nat.lt_of_le_of_lt hp.memoryWords_le (by decide))
    have htext := ((((brief "address ").append (Numeral.brief_decimal_cell hlt)).append
      (brief " is outside memory of ")).append hsize).append (brief " words")
    exact htext.narrow
  cases hraises with
  | read hget _ => exact haddress hget
  | write hget _ => exact haddress hget
  | @divide left right target second _ =>
    have htext := ((brief "division by zero: ").append right.brief_name).append (brief " holds 0")
    exact htext.narrow

theorem Fault.narrow_message_finished (state : RunState) :
    Narrow (Fault.finished state).message := by
  have htext := ((brief "session is ").append state.brief_name).append (brief " and cannot advance")
  exact htext.narrow

end FetchExecute
