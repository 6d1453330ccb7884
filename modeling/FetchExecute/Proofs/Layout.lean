import FetchExecute.Proofs.Profile

/-!
# Instructions and their fields

A word holds one instruction, or two of them side by side, and an instruction is an
opcode beside an address.  They are taken apart by shifting and masking.  Nothing
gets lost in that, and nothing in putting them together again, whatever the widths,
if only the fields make up an instruction and the instructions fit into a cell
(`Layout.Regular`):

| put together | taken apart |
|---|---|
| `Word.join l.instructionBits left right` | `l.instruction word .left`, `l.instruction word .right` |
| `Word.join l.addressBits opcode address` | `l.opcode instruction`, `l.address instruction` |

Both rows are division with remainder by a power of two (`Word.join_div`,
`Word.join_mod`, `Word.join_div_mod`).
-/

namespace FetchExecute

/-! ## Numbers side by side -/

namespace Word

/-- One number above the low bits that hold another one. -/
def join (bits high low : Nat) : Nat := high <<< bits ||| low

section

variable {bits high low : Nat} (h : low < 2 ^ bits)
include h

theorem join_eq : join bits high low = 2 ^ bits * high + low := by
  rw [join, ← Nat.shiftLeft_add_eq_or_of_lt h, Nat.shiftLeft_eq, Nat.mul_comm]

/-- The high part is read back. -/
theorem join_div : join bits high low / 2 ^ bits = high := by
  rw [join_eq h, Nat.mul_add_div (Nat.two_pow_pos bits), Nat.div_eq_of_lt h, Nat.add_zero]

theorem join_mod : join bits high low % 2 ^ bits = low := by
  rw [join_eq h, Nat.mul_add_mod, Nat.mod_eq_of_lt h]

/-- A joined number needs no more bits than its parts. -/
theorem join_lt {highBits : Nat} (hhigh : high < 2 ^ highBits) :
    join bits high low < 2 ^ (highBits + bits) := by
  rw [Nat.pow_add, ← Nat.div_lt_iff_lt_mul (Nat.two_pow_pos bits), join_div h]
  exact hhigh

end

theorem join_div_mod (bits n : Nat) : join bits (n / 2 ^ bits) (n % 2 ^ bits) = n := by
  rw [join_eq (Nat.mod_lt n (Nat.two_pow_pos bits)), Nat.div_add_mod]

end Word

/-! ## Layouts -/

namespace Layout

/-- The fields make up an instruction, the opcode is told apart, and one or two instructions fit
into a cell. -/
structure Regular (l : Layout) : Prop where
  fields : l.opcodeBits + l.addressBits = l.instructionBits
  opcodeBits_le : l.opcodeBits ≤ maxOpcodeBits
  perWord : l.perWord = 1 ∨ l.perWord = 2
  fits : l.perWord * l.instructionBits ≤ Word.maxWidth
  narrow : l.instructionBits < Word.maxWidth

/-- Words of two instructions come apart into what they were put together from, and words are what
comes of their two instructions.  Anything above is left out of account. -/
structure PacksInstructions (l : Layout) : Prop where
  join_lt : ∀ left < 2 ^ l.instructionBits, ∀ right < 2 ^ l.instructionBits,
    Word.join l.instructionBits left right < 2 ^ (2 * l.instructionBits)
  instruction_join : ∀ left < 2 ^ l.instructionBits, ∀ right < 2 ^ l.instructionBits,
    l.instruction (Word.join l.instructionBits left right) .left = left ∧
      l.instruction (Word.join l.instructionBits left right) .right = right
  join_instruction : ∀ word < 2 ^ (2 * l.instructionBits),
    Word.join l.instructionBits (l.instruction word .left) (l.instruction word .right) = word
  instruction_mod : ∀ word half,
    l.instruction (word % 2 ^ (2 * l.instructionBits)) half = l.instruction word half

/-- Instructions come apart into the fields they were put together from, and instructions are what
comes of their fields. -/
structure PacksFields (l : Layout) : Prop where
  join_lt : ∀ opcode < 2 ^ l.opcodeBits, ∀ address < 2 ^ l.addressBits,
    Word.join l.addressBits opcode address < 2 ^ l.instructionBits
  fields_join : ∀ opcode < 2 ^ l.opcodeBits, ∀ address < 2 ^ l.addressBits,
    l.opcode (Word.join l.addressBits opcode address) = opcode ∧
      l.address (Word.join l.addressBits opcode address) = address
  join_fields : ∀ instruction < 2 ^ l.instructionBits,
    Word.join l.addressBits (l.opcode instruction) (l.address instruction) = instruction

/-- An encoded word holds the opcode and the low bits of the address in its first instruction, and
nothing in its second. -/
structure Encodes (l : Layout) (opcode address : Nat) : Prop where
  opcode_eq : l.opcode (l.instruction (l.encode opcode address) .left) = opcode
  address_eq :
    l.address (l.instruction (l.encode opcode address) .left) = address % 2 ^ l.addressBits
  right_eq : l.instruction (l.encode opcode address) .right = 0

variable {l : Layout}

/-! ### Taking apart -/

section

variable (h : l.Regular)
include h

theorem Regular.addressBits_le : l.addressBits ≤ Word.maxWidth := by
  have hfields := h.fields
  have hnarrow := h.narrow
  omega

/-- The opcode is made of the bits above the address. -/
theorem Regular.opcode_eq (instruction : Nat) :
    l.opcode instruction = instruction / 2 ^ l.addressBits % 2 ^ l.opcodeBits := by
  have hwide : l.opcodeBits ≤ Word.maxWidth := Nat.le_trans h.opcodeBits_le (by decide)
  have hfits : instruction / 2 ^ l.addressBits % 2 ^ l.opcodeBits < 2 ^ maxOpcodeBits :=
    Nat.lt_of_lt_of_le (Nat.mod_lt _ (Nat.two_pow_pos _))
      (Nat.pow_le_pow_right (by decide) h.opcodeBits_le)
  rw [opcode, Word.truncate_eq_mod hwide, Nat.shiftRight_eq_div_pow,
    Word.truncate_of_lt_two_pow (by decide) hfits]

theorem Regular.address_eq (instruction : Nat) :
    l.address instruction = instruction % 2 ^ l.addressBits :=
  Word.truncate_eq_mod h.addressBits_le instruction

/-- Where words hold two instructions, the left one is made of the high bits. -/
theorem Regular.left_of_two (htwo : l.perWord = 2) (word : Nat) :
    l.instruction word .left = word / 2 ^ l.instructionBits % 2 ^ l.instructionBits := by
  rw [instruction, if_pos htwo, Word.truncate_eq_mod (Nat.le_of_lt h.narrow),
    Nat.shiftRight_eq_div_pow]

theorem Regular.right_of_two (htwo : l.perWord = 2) (word : Nat) :
    l.instruction word .right = word % 2 ^ l.instructionBits := by
  rw [instruction, if_pos htwo, Word.truncate_eq_mod (Nat.le_of_lt h.narrow)]

theorem Regular.left_of_one (hone : l.perWord = 1) (word : Nat) :
    l.instruction word .left = word % 2 ^ l.instructionBits := by
  rw [instruction, if_neg (by omega), Word.truncate_eq_mod (Nat.le_of_lt h.narrow)]

end

/-- Where they hold one, the right one is zero. -/
theorem right_of_ne_two (hone : l.perWord ≠ 2) (word : Nat) : l.instruction word .right = 0 := by
  rw [instruction, if_neg hone]

theorem instruction_lt (l : Layout) (word : Nat) (half : Half) :
    l.instruction word half < 2 ^ l.instructionBits := by
  cases half <;> rw [instruction] <;> split
  · exact Word.truncate_lt_two_pow _ _
  · exact Word.truncate_lt_two_pow _ _
  · exact Word.truncate_lt_two_pow _ _
  · exact Nat.two_pow_pos _

theorem address_lt (l : Layout) (instruction : Nat) :
    l.address instruction < 2 ^ l.addressBits :=
  Word.truncate_lt_two_pow _ _

/-! ### Putting together -/

namespace Regular

variable (h : l.Regular)
include h

/-- Words of two instructions are packed and taken apart. -/
theorem packsInstructions (htwo : l.perWord = 2) : l.PacksInstructions where
  join_lt := by
    intro left hleft right hright
    rw [Nat.two_mul]
    exact Word.join_lt hright hleft
  instruction_join := by
    intro left hleft right hright
    rw [h.left_of_two htwo, h.right_of_two htwo, Word.join_div hright, Word.join_mod hright,
      Nat.mod_eq_of_lt hleft]
    exact ⟨rfl, rfl⟩
  join_instruction := by
    intro word hword
    have hhigh : word / 2 ^ l.instructionBits < 2 ^ l.instructionBits := by
      rw [Nat.two_mul, Nat.pow_add] at hword
      exact Nat.div_lt_of_lt_mul hword
    rw [h.left_of_two htwo, h.right_of_two htwo, Nat.mod_eq_of_lt hhigh, Word.join_div_mod]
  instruction_mod := by
    intro word half
    have hpow : 2 ^ (2 * l.instructionBits) = 2 ^ l.instructionBits * 2 ^ l.instructionBits := by
      rw [Nat.two_mul, Nat.pow_add]
    cases half with
    | left =>
      rw [h.left_of_two htwo, h.left_of_two htwo, hpow, Nat.mod_mul_right_div_self, Nat.mod_mod]
    | right =>
      rw [h.right_of_two htwo, h.right_of_two htwo, hpow, Nat.mod_mul_right_mod]

/-- Instructions are packed from their fields and taken apart. -/
theorem packsFields : l.PacksFields where
  join_lt := by
    intro opcode hopcode address haddress
    rw [← h.fields]
    exact Word.join_lt haddress hopcode
  fields_join := by
    intro opcode hopcode address haddress
    rw [h.opcode_eq, h.address_eq, Word.join_div haddress, Word.join_mod haddress,
      Nat.mod_eq_of_lt hopcode]
    exact ⟨rfl, rfl⟩
  join_fields := by
    intro instruction hinstruction
    have hhigh : instruction / 2 ^ l.addressBits < 2 ^ l.opcodeBits := by
      rw [← h.fields, Nat.add_comm, Nat.pow_add] at hinstruction
      exact Nat.div_lt_of_lt_mul hinstruction
    rw [h.opcode_eq, h.address_eq, Nat.mod_eq_of_lt hhigh, Word.join_div_mod]

/-- The first instruction of an encoded word. -/
theorem instruction_encode {opcode : Nat} (hopcode : opcode < 2 ^ l.opcodeBits) (address : Nat) :
    l.instruction (l.encode opcode address) .left =
        Word.join l.addressBits opcode (l.address address) ∧
      l.instruction (l.encode opcode address) .right = 0 := by
  have hlt := h.packsFields.join_lt opcode hopcode _ (l.address_lt address)
  rcases h.perWord with hone | htwo
  · have hencode : l.encode opcode address =
        Word.join l.addressBits opcode (l.address address) := if_neg (by omega)
    rw [h.left_of_one hone, right_of_ne_two (by omega), hencode, Nat.mod_eq_of_lt hlt]
    exact ⟨rfl, rfl⟩
  · have hencode : l.encode opcode address =
        Word.join l.instructionBits (Word.join l.addressBits opcode (l.address address)) 0 := by
      rw [Word.join, Nat.or_zero]
      exact if_pos (by omega)
    rw [hencode]
    exact (h.packsInstructions htwo).instruction_join _ hlt 0 (Nat.two_pow_pos _)

/-- What is encoded can be read back. -/
theorem encodes {opcode : Nat} (hopcode : opcode < 2 ^ l.opcodeBits) (address : Nat) :
    l.Encodes opcode address := by
  obtain ⟨hleft, hright⟩ := h.instruction_encode hopcode address
  have hfields := h.packsFields.fields_join opcode hopcode _ (l.address_lt address)
  exact {
    opcode_eq := by rw [hleft, hfields.1]
    address_eq := by rw [hleft, hfields.2, h.address_eq]
    right_eq := hright }

/-- The instructions of a word are its bits, and no more than these. -/
theorem mod_eq_iff {word word' : Nat} :
    word % 2 ^ (l.perWord * l.instructionBits) = word' % 2 ^ (l.perWord * l.instructionBits) ↔
      ∀ half, l.instruction word half = l.instruction word' half := by
  rcases h.perWord with hone | htwo
  · rw [hone, Nat.one_mul]
    constructor
    · intro hmod half
      cases half with
      | left => rw [h.left_of_one hone, h.left_of_one hone, hmod]
      | right => rw [right_of_ne_two (by omega), right_of_ne_two (by omega)]
    · intro heq
      rw [← h.left_of_one hone, heq .left, h.left_of_one hone]
  · have hpacks := h.packsInstructions htwo
    have hpos := Nat.two_pow_pos (2 * l.instructionBits)
    rw [htwo]
    constructor
    · intro hmod half
      rw [← hpacks.instruction_mod word, hmod, hpacks.instruction_mod]
    · intro heq
      rw [← hpacks.join_instruction _ (Nat.mod_lt word hpos),
        ← hpacks.join_instruction _ (Nat.mod_lt word' hpos)]
      simp only [hpacks.instruction_mod, heq]

end Regular

end Layout

/-! ## The machines -/

namespace Profile.Registered

variable {p : Profile} (hp : p.Registered)
include hp

theorem regular_layout : p.layout.Regular := by
  obtain ⟨a, policy, rfl⟩ := hp
  show (ofArchitecture a).layout.Regular
  cases a with
  | hypothetical => exact ⟨rfl, by decide, .inl rfl, by decide, by decide⟩
  | ias => exact ⟨rfl, by decide, .inr rfl, by decide, by decide⟩

/-- The instructions of a word take up all of it. -/
theorem instructions_fill_word : p.layout.perWord * p.layout.instructionBits = p.wordBits := by
  obtain ⟨a, policy, rfl⟩ := hp
  cases a <;> rfl

end Profile.Registered

/-- In every regular layout two instructions and their word determine each other, and so do the two
fields of an instruction and the instruction; a word of a single instruction is that instruction.
What either machine encodes is unpacked to the same opcode and to as much of the address as its
field holds. -/
theorem packing_inverts_unpacking :
    (∀ {l : Layout}, l.Regular →
      (l.perWord = 2 → l.PacksInstructions) ∧
      (l.perWord = 1 → ∀ word, l.instruction word .left = word % 2 ^ l.instructionBits ∧
        l.instruction word .right = 0) ∧
      l.PacksFields) ∧
    ∀ {p : Profile} {opcode : Nat}, p.Registered → opcode < 2 ^ p.layout.opcodeBits →
      ∀ address, p.layout.Encodes opcode address := by
  constructor
  · intro l h
    refine ⟨h.packsInstructions, ?_, h.packsFields⟩
    intro hone word
    exact ⟨h.left_of_one hone word, Layout.right_of_ne_two (by omega) word⟩
  · intro p opcode hp hopcode address
    exact hp.regular_layout.encodes hopcode address

/-- Two instructions of 32 bits, which leave no bit of a cell over. -/
def Layout.full : Layout :=
  { instructionBits := 32, opcodeBits := 8, addressBits := 24, perWord := 2 }

/-- A word of ones comes apart and together again, and an address that is too long is cut. -/
theorem packing_of_full_words :
    Word.join 32 (Layout.full.instruction (2 ^ 64 - 1) .left)
        (Layout.full.instruction (2 ^ 64 - 1) .right) = 2 ^ 64 - 1 ∧
      Layout.full.opcode (Word.join 24 255 (2 ^ 24 - 1)) = 255 ∧
      Profile.ias.layout.address
        (Profile.ias.layout.instruction (Profile.ias.layout.encode 0x12 (2 ^ 64 - 1)) .left) =
          2 ^ 12 - 1 := by
  have hfull : Layout.full.Regular := ⟨rfl, by decide, .inr rfl, by decide, by decide⟩
  have hp : Profile.ias.Registered := ⟨.ias, .simplified, rfl⟩
  obtain ⟨hwords, -, hfields⟩ := packing_inverts_unpacking.1 hfull
  have hencodes : Profile.ias.layout.Encodes 0x12 (2 ^ 64 - 1) :=
    packing_inverts_unpacking.2 hp (by decide) (2 ^ 64 - 1)
  exact ⟨(hwords rfl).join_instruction (2 ^ 64 - 1) (by decide),
    (hfields.fields_join 255 (by decide) (2 ^ 24 - 1) (by decide)).1, hencodes.address_eq⟩

end FetchExecute
