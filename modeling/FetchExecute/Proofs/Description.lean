import FetchExecute.Proofs.Numeral
import FetchExecute.Proofs.Operands

/-!
# What a description tells

The description of an effect names some of the values that were read, moved or
computed.  It tells enough: executed on any two storages with the same registers, a
step that describes itself alike has written the same values to the same places, and
read the same address (`descriptions_determine_writes`).

| operation | names |
|---|---|
| `copy`, `increment`, `loadHalf`, `extractAddress` | the value kept |
| `readMemory` | the address and the value kept |
| `writeMemory` | the word kept and the address |
| `combine` | both operands |
| `observe`, `decode`, `signal` | nothing that is written |

All but the combining step name what they write.  That step shows the result before it
is cut, so its case goes through the operands, which determine the whole effect
(`MicroOp.eq_of_combine`).  Wherever a text goes on after a value, a closing bracket
follows it, which no value contains.
-/

namespace FetchExecute

/-- Effects that write the same values to the same places and read the same address. -/
structure Effect.ActsLike (e e' : Effect) : Prop where
  registerWrites : e.registerWrites = e'.registerWrites
  memoryWrite : e.memoryWrite = e'.memoryWrite
  location : e.memoryRead.map (·.1) = e'.memoryRead.map (·.1)

/-- Contexts that differ in the values of registers and in memory only. -/
structure Context.Alike (c c' : Context) : Prop where
  profile : c.profile = c'.profile
  phase : c.phase = c'.phase
  width? : c.storage.registers.width? = c'.storage.registers.width?

/-! ## Values in texts -/

theorem notMem_alphabet_closing : ')' ∉ Numeral.alphabet := by decide

namespace Context

variable {c c' : Context}

/-- No two values are written alike in the notation of a register. -/
theorem valueText_injective (c : Context) (r : Register) : Function.Injective (c.valueText r) := by
  intro v v' h
  simp only [valueText] at h
  split at h
  · exact c.profile.formatAddress_injective h
  · split at h
    · exact Numeral.hexOfWidth_injective _ h
    · exact Numeral.decimal_injective h

/-- No value is written with a closing bracket, which therefore tells where it ends. -/
theorem notMem_valueText (c : Context) (r : Register) (v : Nat) :
    ')' ∉ (c.valueText r v).toList := by
  simp only [valueText]
  split
  · exact c.profile.notMem_formatAddress notMem_alphabet_closing (by decide) v
  · split
    · exact Numeral.notMem_hex notMem_alphabet_closing (by decide) _ v
    · exact Numeral.notMem_decimal notMem_alphabet_closing v

/-- Contexts that are alike write values alike. -/
theorem Alike.valueText (h : c.Alike c') : c.valueText = c'.valueText := by
  funext r v
  simp only [Context.valueText, h.profile, h.phase, h.width?]

end Context

/-- A text with two operands in brackets determines both. -/
theorem operands_inj {front name middle name' rest rest' : String} {a b a' b' : Nat}
    (h : front ++ (name ++ " (" ++ Numeral.decimal a ++ ")") ++ middle ++
        (name' ++ " (" ++ Numeral.decimal b ++ ")") ++ rest =
      front ++ (name ++ " (" ++ Numeral.decimal a' ++ ")") ++ middle ++
        (name' ++ " (" ++ Numeral.decimal b' ++ ")") ++ rest') :
    a = a' ∧ b = b' := by
  have hdecimal := Numeral.notMem_decimal notMem_alphabet_closing
  simp only [String.append_assoc, String.append_right_inj] at h
  obtain ⟨ha, hrest⟩ := Text.append_inj_of_notMem rfl (hdecimal a) (hdecimal a') h
  simp only [String.append_right_inj] at hrest
  obtain ⟨hb, -⟩ := Text.append_inj_of_notMem rfl (hdecimal b) (hdecimal b') hrest
  exact ⟨Numeral.decimal_injective ha, Numeral.decimal_injective hb⟩

/-- The phrase of an operation determines both operands, whatever follows it. -/
theorem AluOp.valuePhrase_inj {op : AluOp} {left right : Register} {l r l' r' : Nat}
    {rest rest' : String}
    (h : op.valuePhrase left right l r ++ rest = op.valuePhrase left right l' r' ++ rest') :
    l = l' ∧ r = r' := by
  cases op with
  | add => exact (operands_inj h).symm
  | sub => exact (operands_inj h).symm
  | mul => exact operands_inj h
  | div => exact operands_inj h

/-! ## Effects with their texts -/

/-- The effect gives a register a value, and names the value in the notation of a register. -/
def Effect.Moves (e : Effect) (c : Context) (target shown : Register) (front back : String) :
    Prop :=
  ∃ v, e = {
    registerWrites := [(target, v)]
    description := front ++ c.valueText shown v ++ back }

/-- Effects that move one value are the same if their descriptions are. -/
theorem Effect.Moves.eq {e e' : Effect} {c c' : Context} {target shown : Register}
    {front back : String} (h : e.Moves c target shown front back)
    (h' : e'.Moves c' target shown front back) (hc : c.Alike c')
    (hdescription : e.description = e'.description) : e = e' := by
  obtain ⟨v, rfl⟩ := h
  obtain ⟨v', rfl⟩ := h'
  simp only [← hc.valueText, String.append_left_inj, String.append_right_inj] at hdescription
  rw [c.valueText_injective shown hdescription, hc.valueText]

namespace MicroOp

section

variable {c : Context} {e : Effect}

/-- A copy names the value it moves, in the notation of the source. -/
theorem moves_of_copy {source target : Register} (he : (copy source target).effect c = .ok e) :
    e.Moves c target source ("Copy " ++ source.name ++ " (") (") to " ++ target.name) := by
  obtain ⟨value, -, he⟩ := exists_of_bind_eq_ok he
  obtain ⟨kept, -, he⟩ := exists_of_bind_eq_ok he
  refine ⟨kept, ?_⟩
  rw [← Except.ok.inj he, ← String.append_assoc]

theorem moves_of_increment {r : Register} (he : (increment r).effect c = .ok e) :
    e.Moves c r r ("Increment " ++ r.name ++ " to ") "" := by
  obtain ⟨value, -, he⟩ := exists_of_bind_eq_ok he
  obtain ⟨next, -, he⟩ := exists_of_bind_eq_ok he
  refine ⟨next, ?_⟩
  rw [← Except.ok.inj he, String.append_empty]

theorem moves_of_loadHalf {half : Half} {source target : Register}
    (he : (loadHalf half source target).effect c = .ok e) :
    e.Moves c target target ("Transfer " ++ half.name ++ " instruction of " ++ source.name ++
      " to " ++ target.name ++ " (") ")" := by
  obtain ⟨word, -, he⟩ := exists_of_bind_eq_ok he
  obtain ⟨value, -, he⟩ := exists_of_bind_eq_ok he
  exact ⟨value, (Except.ok.inj he).symm⟩

theorem moves_of_extractAddress {source target : Register} {mask : Nat}
    (he : (extractAddress source mask target).effect c = .ok e) :
    e.Moves c target target "Extract operand address ("
      (") from " ++ source.name ++ " into " ++ target.name) := by
  obtain ⟨instruction, -, he⟩ := exists_of_bind_eq_ok he
  obtain ⟨value, -, he⟩ := exists_of_bind_eq_ok he
  refine ⟨value, ?_⟩
  rw [← Except.ok.inj he]
  simp only [String.append_assoc]

/-- A read names the address and the word, but not what the register keeps of it. -/
theorem effect_readMemory_eq {address target : Register}
    (he : (readMemory address target).effect c = .ok e) :
    ∃ location word value, e = {
      registerWrites := [(target, value)]
      memoryRead := some (location, word)
      description := "Read " ++ (match c.phase with
        | .fetch => "instruction word"
        | .execute => "data") ++ " from memory (" ++ c.profile.formatAddress location ++
        ") into " ++ target.name ++ ": " ++ c.valueText target value } := by
  obtain ⟨location, -, he⟩ := exists_of_bind_eq_ok he
  obtain ⟨word, -, he⟩ := exists_of_bind_eq_ok he
  obtain ⟨value, -, he⟩ := exists_of_bind_eq_ok he
  exact ⟨location, word, value, (Except.ok.inj he).symm⟩

/-- A write names the address and the word. -/
theorem effect_writeMemory_eq {address source : Register}
    (he : (writeMemory address source).effect c = .ok e) :
    ∃ location word, e = {
      memoryWrite := some (location, word)
      description := "Write " ++ source.name ++ " (" ++ c.valueText source word ++
        ") to memory (" ++ c.profile.formatAddress location ++ ")" } := by
  obtain ⟨location, -, he⟩ := exists_of_bind_eq_ok he
  obtain ⟨_, -, he⟩ := exists_of_bind_eq_ok he
  obtain ⟨value, -, he⟩ := exists_of_bind_eq_ok he
  exact ⟨location, _, (Except.ok.inj he).symm⟩

/-- An arithmetic step names its operands and its results. -/
theorem effect_combine_eq {op : AluOp} {left right target : Register} {second : Option Register}
    (he : (combine op left right target second).effect c = .ok e) :
    ∃ result, Alu.combine (c.storage.task c.profile.splitPolicy op left right target second) =
        .ok result ∧
      e = combinedEffect op left right target (op.secondTarget second) (c.storage.value left)
        (c.storage.value right) result := by
  have hpresent := present_of_effect he
  rw [effect, combineEffect_eq hpresent] at he
  cases hresult :
    Alu.combine (c.storage.task c.profile.splitPolicy op left right target second) with
  | error fault => simp [hresult] at he
  | ok result =>
    rw [hresult] at he
    exact ⟨result, rfl, (Except.ok.inj he).symm⟩

/-- Whatever becomes of a result, both operands are shown first. -/
theorem description_combinedEffect (op : AluOp) (left right target : Register)
    (second : Option Register) (l r : Nat) (result : Alu.Result) :
    ∃ rest, (combinedEffect op left right target second l r result).description =
      op.valuePhrase left right l r ++ rest := by
  simp only [combinedEffect]
  split
  · simp only [String.append_assoc, String.append_right_inj, exists_eq']
  · simp only
    split <;> simp only [String.append_assoc, String.append_right_inj, exists_eq']

end

section

variable {c c' : Context} {e e' : Effect} (hc : c.Alike c')
include hc

/-- Its description determines the effect, because the operands determine the results. -/
theorem eq_of_combine {op : AluOp} {left right target : Register} {second : Option Register}
    (he : (combine op left right target second).effect c = .ok e)
    (he' : (combine op left right target second).effect c' = .ok e')
    (h : e.description = e'.description) : e = e' := by
  obtain ⟨result, hresult, rfl⟩ := effect_combine_eq he
  obtain ⟨result', hresult', rfl⟩ := effect_combine_eq he'
  obtain ⟨rest, hrest⟩ := description_combinedEffect op left right target
    (op.secondTarget second) (c.storage.value left) (c.storage.value right) result
  obtain ⟨rest', hrest'⟩ := description_combinedEffect op left right target
    (op.secondTarget second) (c'.storage.value left) (c'.storage.value right) result'
  rw [hrest, hrest'] at h
  obtain ⟨hleft, hright⟩ := AluOp.valuePhrase_inj h
  have hwidth : c.storage.width = c'.storage.width :=
    funext fun r ↦ congrArg (·.getD 0) (congrFun hc.width? r)
  have htask : c.storage.task c.profile.splitPolicy op left right target second =
      c'.storage.task c'.profile.splitPolicy op left right target second := by
    simp only [Storage.task, hleft, hright, hwidth, hc.profile]
  -- one task for both, and therefore one result, whatever of it is shown
  rw [htask, hresult'] at hresult
  rw [Except.ok.inj hresult, hleft, hright]

theorem actsLike_of_readMemory {address target : Register}
    (he : (readMemory address target).effect c = .ok e)
    (he' : (readMemory address target).effect c' = .ok e')
    (h : e.description = e'.description) : e.ActsLike e' := by
  obtain ⟨location, word, value, rfl⟩ := effect_readMemory_eq he
  obtain ⟨location', word', value', rfl⟩ := effect_readMemory_eq he'
  have hclosing := c.profile.notMem_formatAddress notMem_alphabet_closing (by decide)
  simp only [← hc.profile, ← hc.phase, ← hc.valueText, String.append_assoc,
    String.append_right_inj] at h
  obtain ⟨hlocation, hrest⟩ :=
    Text.append_inj_of_notMem rfl (hclosing location) (hclosing location') h
  obtain rfl := c.profile.formatAddress_injective hlocation
  simp only [String.append_right_inj] at hrest
  obtain rfl := c.valueText_injective target hrest
  exact ⟨rfl, rfl, rfl⟩

/-- The description of a write determines where and what it writes. -/
theorem actsLike_of_writeMemory {address source : Register}
    (he : (writeMemory address source).effect c = .ok e)
    (he' : (writeMemory address source).effect c' = .ok e')
    (h : e.description = e'.description) : e.ActsLike e' := by
  obtain ⟨location, word, rfl⟩ := effect_writeMemory_eq he
  obtain ⟨location', word', rfl⟩ := effect_writeMemory_eq he'
  have hclosing := c.notMem_valueText source
  simp only [← hc.profile, ← hc.valueText, String.append_assoc, String.append_right_inj] at h
  obtain ⟨hword, hrest⟩ := Text.append_inj_of_notMem rfl (hclosing word) (hclosing word') h
  obtain rfl := c.valueText_injective source hword
  simp only [String.append_left_inj] at hrest
  obtain rfl := c.profile.formatAddress_injective hrest
  exact ⟨rfl, rfl, rfl⟩

/-- What an operation writes, and the address that it reads, are told by its description. -/
theorem actsLike_of_description {op : MicroOp} (he : op.effect c = .ok e)
    (he' : op.effect c' = .ok e') (h : e.description = e'.description) : e.ActsLike e' := by
  cases op with
  | copy source target =>
    obtain rfl := (moves_of_copy he).eq (moves_of_copy he') hc h
    exact ⟨rfl, rfl, rfl⟩
  | increment r =>
    obtain rfl := (moves_of_increment he).eq (moves_of_increment he') hc h
    exact ⟨rfl, rfl, rfl⟩
  | loadHalf half source target =>
    obtain rfl := (moves_of_loadHalf he).eq (moves_of_loadHalf he') hc h
    exact ⟨rfl, rfl, rfl⟩
  | extractAddress source mask target =>
    obtain rfl := (moves_of_extractAddress he).eq (moves_of_extractAddress he') hc h
    exact ⟨rfl, rfl, rfl⟩
  | readMemory address target => exact actsLike_of_readMemory hc he he' h
  | writeMemory address source => exact actsLike_of_writeMemory hc he he' h
  | combine op left right target second =>
    obtain rfl := eq_of_combine hc he he' h
    exact ⟨rfl, rfl, rfl⟩
  | observe r =>
    obtain ⟨value, -, he⟩ := exists_of_bind_eq_ok he
    obtain ⟨value', -, he'⟩ := exists_of_bind_eq_ok he'
    rw [← Except.ok.inj he, ← Except.ok.inj he']
    exact ⟨rfl, rfl, rfl⟩
  | decode r =>
    obtain ⟨instruction, -, he⟩ := exists_of_bind_eq_ok he
    obtain ⟨instruction', -, he'⟩ := exists_of_bind_eq_ok he'
    rw [← Except.ok.inj he, ← Except.ok.inj he']
    exact ⟨rfl, rfl, rfl⟩
  | signal op =>
    rw [← Except.ok.inj he, ← Except.ok.inj he']
    exact ⟨rfl, rfl, rfl⟩

end

end MicroOp

/-! ## Steps -/

/-- A step that succeeds on two storages with the same registers, and describes itself alike on
both, writes the same values to the same places there and reads the same address. -/
theorem descriptions_determine_writes {step : MicroStep} {p : Profile} {s s' : Storage}
    {e e' : Effect} (hlayout : s.registers.layout = s'.registers.layout)
    (he : step.effect p s = .ok e) (he' : step.effect p s' = .ok e')
    (h : e.description = e'.description) : e.ActsLike e' := by
  obtain ⟨action, hop, he⟩ := exists_of_bind_eq_ok he
  obtain ⟨action', hop', he'⟩ := exists_of_bind_eq_ok he'
  obtain rfl := Except.ok.inj he
  obtain rfl := Except.ok.inj he'
  have hwidth : s.registers.width? = s'.registers.width? := by
    funext r
    rw [RegisterFile.width?_eq_layout, RegisterFile.width?_eq_layout, hlayout]
  have halike : Context.Alike ⟨p, step.phase, s⟩ ⟨p, step.phase, s'⟩ := ⟨rfl, rfl, hwidth⟩
  have hacts := MicroOp.actsLike_of_description halike hop hop' ((String.append_right_inj _).mp h)
  exact ⟨hacts.registerWrites, hacts.memoryWrite, hacts.location⟩

/-- Reads a word into a register that is too narrow for it. -/
def MicroStep.readNarrow : MicroStep := .fetch (.readMemory .mar .ir)

/-- Memory of the IAS machine with one word. -/
def Storage.holding (word : Nat) : Storage := (Storage.zero .ias).putWord 0 word

/-- The words differ, which the description does not tell, and what is kept of them does not. -/
theorem descriptions_of_readNarrow :
    ∃ e e', MicroStep.readNarrow.effect .ias (.holding 5) = .ok e ∧
      MicroStep.readNarrow.effect .ias (.holding (2 ^ 20 + 5)) = .ok e' ∧
      e.description = e'.description ∧ e ≠ e' ∧ e.ActsLike e' := by
  have hread : ∀ word ∈ [5, 2 ^ 20 + 5],
      MicroStep.readNarrow.effect .ias (.holding word) = .ok ⟨[(.ir, 5)], some (0, word), none,
        "Fetch cycle - Read instruction word from memory (0) into IR: 0x00005"⟩ := by
    decide +kernel
  have he := hread 5 (by decide)
  have he' := hread (2 ^ 20 + 5) (by decide)
  have hlayout : ∀ word, (Storage.holding word).registers.layout = Profile.ias.registers := by
    intro word
    rw [Storage.holding, Storage.registers_putWord]
    exact RegisterFile.layout_zero .ias
  refine ⟨_, _, he, he', rfl, by decide, ?_⟩
  exact descriptions_determine_writes ((hlayout 5).trans (hlayout _).symm) he he' rfl

end FetchExecute
