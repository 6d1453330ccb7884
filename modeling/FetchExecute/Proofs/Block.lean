import FetchExecute.Proofs.Course
import FetchExecute.Proofs.Interpreter

/-!
# Blocks of micro-steps

What the blocks that make up an instruction do, on storage that fits a
registered profile.  Each is computed step by step and then seen from the
instruction level, where only the counter, the accumulator, the quotient and the
cells of memory are left (`Processor.ofCourse`):

* `Storage.Fits.follow_fetch` brings the instruction under the counter into the
  instruction register and counts up;
* `Instruction.truncate_address` says that its address field is then what it was
  when the instruction was placed in memory;
* `Storage.Fits.follow_block` does what the operation asks for, faults included.

Together they are `Storage.Fits.follow_instruction`.
-/

namespace FetchExecute

open Register

/-! ## Arithmetic -/

/-- A difference that wraps at the bits of a result wraps as well at fewer bits. -/
theorem Word.truncate_difference {width : Nat} (h : width ≤ maxWidth) (l r : Nat) :
    truncate width ((l - r : Int) % Nat.pow 2 Alu.resultBits).toNat =
      ((l - r : Int) % (2 ^ width : Nat)).toNat := by
  have hdvd : ((2 ^ width : Nat) : Int) ∣ (Nat.pow 2 Alu.resultBits : Nat) :=
    Int.natCast_dvd_natCast.mpr (Nat.pow_dvd_pow 2 (Nat.le_trans h (by decide)))
  have hpos : (0 : Int) < (Nat.pow 2 Alu.resultBits : Nat) :=
    Int.natCast_pos.mpr (Nat.two_pow_pos _)
  rw [truncate_eq_mod h, ← Int.emod_emod_of_dvd _ hdvd]
  obtain ⟨n, hn⟩ := Int.eq_ofNat_of_zero_le (Int.emod_nonneg (l - r : Int) (Int.ne_of_gt hpos))
  rw [hn]
  rfl

/-- The upper half of a product of two words is a word. -/
theorem Word.truncate_mul_div {width l r : Nat} (h : width ≤ maxWidth) (hl : l < 2 ^ width)
    (hr : r < 2 ^ width) : truncate width (l * r / 2 ^ width) = l * r / 2 ^ width := by
  have hlt : l * r < 2 ^ width * 2 ^ width := Nat.mul_lt_mul'' hl hr
  exact truncate_of_lt_two_pow h (Nat.div_lt_of_lt_mul hlt)

namespace MicroOp

variable {p : Profile} {s : Storage} {left right target low : Register}

theorem transfers_add : (combine .add left right target none).transfers p s =
    [(target, Word.truncate (s.width target) (s.value left + s.value right))] := rfl

theorem transfers_sub : (combine .sub left right target none).transfers p s =
    [(target, Word.truncate (s.width target)
      ((s.value left - s.value right : Int) % Nat.pow 2 Alu.resultBits).toNat)] := rfl

theorem transfers_mul : (combine .mul left right target (some low)).transfers p s =
    match p.splitPolicy with
    | .simplified =>
      [(target, Word.truncate (s.width target) (s.value left * s.value right)), (low, 0)]
    | .faithful =>
      [(target, Word.truncate (s.width target) (s.value left * s.value right / 2 ^ s.width low)),
        (low, Word.truncate (s.width low) (s.value left * s.value right))] := by
  cases hp : p.splitPolicy with
  | simplified =>
    simp only [transfers, hp]
    rfl
  | faithful =>
    rw [← Nat.shiftRight_eq_div_pow]
    simp only [transfers, hp]
    rfl

theorem transfers_div : (combine .div left right target (some low)).transfers p s =
    (target, Word.truncate (s.width target) (s.value left / s.value right)) ::
      match p.splitPolicy with
      | .simplified => [(low, 0)]
      | .faithful => [(low, Word.truncate (s.width low) (s.value left % s.value right))] := by
  cases hp : p.splitPolicy with
  | simplified =>
    simp only [transfers, hp]
    rfl
  | faithful =>
    simp only [transfers, hp]
    rfl

end MicroOp

/-! ## Operations -/

section

variable {p : Profile} {s : Storage} {rest : List MicroStep} (h : s.Fits p) (hp : p.Registered)
include h hp

/-- A word is kept whole when it is moved. -/
theorem Storage.Fits.truncate_word (a : Nat) :
    Word.truncate p.wordBits (s.word a) = s.word a :=
  Word.truncate_of_lt_two_pow hp.wordBits_le (h.word_lt_bits a)

theorem Storage.Fits.accumulator_lt : s.value ac < 2 ^ p.wordBits := by
  rw [← h.width_accumulator hp]
  exact h.value_lt_width ac

/-- Reading the operand puts it into the buffer register. -/
theorem Storage.Fits.follow_readOperand (hin : s.value mar < p.memoryWords) :
    s.follow p (Block.readOperand :: rest) =
      (s.put mbr (s.word (s.value mar))).follow p rest := by
  rw [Block.readOperand, MicroStep.execute, Storage.follow_readMemory, h.size,
    if_neg (Nat.not_le_of_lt hin), h.width_buffer hp, h.truncate_word hp]

omit hp in
/-- An operand outside memory stops any block before it has changed anything. -/
theorem Storage.Fits.follow_readOperand_of_le (hout : p.memoryWords ≤ s.value mar) :
    s.follow p (Block.readOperand :: rest) =
      (s, some (.addressOutOfRange (s.value mar) p.memoryWords)) := by
  rw [Block.readOperand, MicroStep.execute, Storage.follow_readMemory, h.size, if_pos hout]

/-- The arithmetic unit works on the accumulator and the operand that has been read. -/
theorem Storage.Fits.follow_unit (op : AluOp) {target : Register} {second : Option Register}
    (hin : s.value mar < p.memoryWords) (hdiv : op = .div → s.word (s.value mar) ≠ 0) :
    s.follow p [Block.readOperand, .execute (.signal op),
        .execute (.combine op ac mbr target second)] =
      ((s.put mbr (s.word (s.value mar))).putAll
        ((MicroOp.combine op ac mbr target second).transfers p
          (s.put mbr (s.word (s.value mar)))), none) := by
  have hoperand : (s.put mbr (s.word (s.value mar))).value mbr = s.word (s.value mar) := by
    rw [Storage.value_put_self, h.width_buffer hp, h.truncate_word hp]
  rw [h.follow_readOperand hp hin, MicroStep.execute, Storage.follow_signal, MicroStep.execute,
    Storage.follow_combine _ op (by rwa [hoperand]), Storage.follow_nil]

/-- The block of a load does what the processor does. -/
theorem Storage.Fits.follow_load (hin : s.value mar < p.memoryWords) :
    Processor.ofCourse (s.follow p Operation.load.block) =
      Operation.load.execute p (s.value mar) (.ofStorage s) := by
  have hword := h.truncate_word hp (s.value mar)
  rw [Operation.block, Block.loadAccumulator, h.follow_readOperand hp hin, MicroStep.execute,
    Storage.follow_copy, Storage.follow_nil, Operation.execute, if_neg (Nat.not_le_of_lt hin)]
  simp [Processor.ofCourse, h.width_buffer hp, h.width_accumulator hp, hword]

theorem Storage.Fits.follow_add (hin : s.value mar < p.memoryWords) :
    Processor.ofCourse (s.follow p Operation.add.block) =
      Operation.add.execute p (s.value mar) (.ofStorage s) := by
  have hword := h.truncate_word hp (s.value mar)
  have hsum := Word.truncate_eq_mod hp.wordBits_le (s.value ac + s.word (s.value mar))
  rw [Operation.block, Block.accumulate, h.follow_unit hp .add hin nofun, MicroOp.transfers_add,
    Operation.execute, if_neg (Nat.not_le_of_lt hin)]
  simp [Processor.ofCourse, h.width_buffer hp, h.width_accumulator hp, hword, ← hsum]

theorem Storage.Fits.follow_sub (hin : s.value mar < p.memoryWords) :
    Processor.ofCourse (s.follow p Operation.sub.block) =
      Operation.sub.execute p (s.value mar) (.ofStorage s) := by
  have hword := h.truncate_word hp (s.value mar)
  have hdifference := Word.truncate_difference hp.wordBits_le (s.value ac) (s.word (s.value mar))
  rw [Operation.block, Block.accumulate, h.follow_unit hp .sub hin nofun, MicroOp.transfers_sub,
    Operation.execute, if_neg (Nat.not_le_of_lt hin)]
  -- a full simp would rewrite the powers of two that the difference is cut to
  simp only [Processor.ofCourse, Storage.putAll_cons, Storage.putAll_nil, Storage.width_put,
    Storage.value_put, reduceCtorEq, reduceIte, Processor.ofStorage_put, Processor.put,
    h.width_buffer hp, h.width_accumulator hp, hword, Word.truncate_truncate, ← hdifference,
    Processor.accumulator_ofStorage, Processor.cells_ofStorage]

/-- The block of a multiplication does what the processor does, under either policy. -/
theorem Storage.Fits.follow_multiply (hin : s.value mar < p.memoryWords)
    (hmq : p.hasRegister mq = true) :
    Processor.ofCourse (s.follow p Operation.multiply.block) =
      Operation.multiply.execute p (s.value mar) (.ofStorage s) := by
  have hwidth := h.width_data hp (r := mq) rfl hmq
  have hword := h.truncate_word hp (s.value mar)
  have hlow := Word.truncate_eq_mod hp.wordBits_le (s.value ac * s.word (s.value mar))
  have hhigh := Word.truncate_mul_div hp.wordBits_le (h.accumulator_lt hp)
    (h.word_lt_bits (s.value mar))
  rw [Operation.block, Block.multiply, h.follow_unit hp .mul hin nofun, MicroOp.transfers_mul,
    Operation.execute, if_neg (Nat.not_le_of_lt hin)]
  cases hpolicy : p.splitPolicy with
  | simplified =>
    simp [Processor.ofCourse, h.width_buffer hp, h.width_accumulator hp, hwidth, hword, ← hlow]
  | faithful =>
    simp [Processor.ofCourse, h.width_buffer hp, h.width_accumulator hp, hwidth, hword, ← hlow,
      hhigh]

theorem Storage.Fits.follow_divide_of_zero (hin : s.value mar < p.memoryWords)
    (hzero : s.word (s.value mar) = 0) :
    Processor.ofCourse (s.follow p Operation.divide.block) =
      (.ofStorage s, some (.divisionByZero mbr)) := by
  have hbuffer : (s.put mbr (s.word (s.value mar))).value mbr = 0 := by
    rw [Storage.value_put_self, h.width_buffer hp, h.truncate_word hp, hzero]
  have hhazard : (MicroOp.combine .div ac mbr mq (some ac)).hazard?
      (s.put mbr (s.word (s.value mar))) = some (.divisionByZero mbr) := if_pos hbuffer
  rw [Operation.block, Block.divide, h.follow_readOperand hp hin, MicroStep.execute,
    Storage.follow_signal, MicroStep.execute, Storage.follow_cons_of_hazard hhazard]
  simp [Processor.ofCourse]

/-- The block of a division does what the processor does, also if the divisor is zero. -/
theorem Storage.Fits.follow_divide (hin : s.value mar < p.memoryWords)
    (hmq : p.hasRegister mq = true) :
    Processor.ofCourse (s.follow p Operation.divide.block) =
      Operation.divide.execute p (s.value mar) (.ofStorage s) := by
  rw [Operation.execute, if_neg (Nat.not_le_of_lt hin)]
  by_cases hzero : s.word (s.value mar) = 0
  · rw [h.follow_divide_of_zero hp hin hzero]
    exact (if_pos hzero).symm
  · have hwidth := h.width_data hp (r := mq) rfl hmq
    have hword := h.truncate_word hp (s.value mar)
    -- neither quotient nor remainder is larger than the accumulator was
    have hquotient : Word.truncate p.wordBits (s.value ac / s.word (s.value mar)) =
        s.value ac / s.word (s.value mar) :=
      Word.truncate_of_lt_two_pow hp.wordBits_le
        (Nat.lt_of_le_of_lt (Nat.div_le_self _ _) (h.accumulator_lt hp))
    have hremainder : Word.truncate p.wordBits (s.value ac % s.word (s.value mar)) =
        s.value ac % s.word (s.value mar) :=
      Word.truncate_of_lt_two_pow hp.wordBits_le
        (Nat.lt_of_le_of_lt (Nat.mod_le _ _) (h.accumulator_lt hp))
    rw [Operation.block, Block.divide, h.follow_unit hp .div hin (fun _ ↦ hzero),
      MicroOp.transfers_div]
    cases hpolicy : p.splitPolicy with
    | simplified =>
      simp [Processor.ofCourse, h.width_buffer hp, h.width_accumulator hp, hwidth, hword, hzero,
        hquotient]
    | faithful =>
      simp [Processor.ofCourse, h.width_buffer hp, h.width_accumulator hp, hwidth, hword, hzero,
        hquotient, hremainder]

/-- The block of a store writes the word, or stops at an address outside memory. -/
theorem Storage.Fits.follow_storeFrom {source : Register} (hsource : s.width source = p.wordBits) :
    Processor.ofCourse (s.follow p (Block.storeFrom source)) =
      if p.memoryWords ≤ s.value mar then
        (.ofStorage s, some (.addressOutOfRange (s.value mar) p.memoryWords))
      else ((Processor.ofStorage s).store (s.value mar) (s.value source), none) := by
  have hvalue : Word.truncate p.wordBits (s.value source) = s.value source := by
    have hlt := h.value_lt_width source
    rw [hsource] at hlt
    exact Word.truncate_of_lt_two_pow hp.wordBits_le hlt
  have hbuffer : (s.put mbr (s.value source)).value mbr = s.value source := by
    rw [Storage.value_put_self, h.width_buffer hp, hvalue]
  have haddress : (s.put mbr (s.value source)).value mar = s.value mar :=
    Storage.value_put_of_ne (by decide) s _
  rw [Block.storeFrom, MicroStep.execute, Storage.follow_copy, h.width_buffer hp, hvalue,
    MicroStep.execute, Storage.follow_writeMemory, Storage.memory_put, h.size, haddress, hbuffer]
  split
  · simp [Processor.ofCourse]
  · have hin : s.value mar < (s.put mbr (s.value source)).memory.size := by
      rw [Storage.memory_put, h.size]
      exact Nat.lt_of_not_le ‹_›
    rw [Storage.follow_nil, Processor.ofCourse, Processor.ofStorage_putWord hin]
    simp [h.wordBits, hvalue]

/-- The work of an operation on an addressed operand. -/
theorem Storage.Fits.follow_block (op : Operation)
    (hquotient : op.usesQuotient = true → p.hasRegister mq = true) :
    Processor.ofCourse (s.follow p op.block) = op.execute p (s.value mar) (.ofStorage s) := by
  by_cases hout : p.memoryWords ≤ s.value mar
  · rw [Operation.execute_of_le hout]
    cases op with
    | store =>
      rw [Operation.block, h.follow_storeFrom hp (h.width_accumulator hp), if_pos hout]
    | storeQuotient =>
      have hwidth := h.width_data hp (r := mq) rfl (hquotient rfl)
      rw [Operation.block, h.follow_storeFrom hp hwidth, if_pos hout]
    | _ => exact congrArg Processor.ofCourse (h.follow_readOperand_of_le hout)
  · have hin : s.value mar < p.memoryWords := Nat.lt_of_not_le hout
    cases op with
    | load => exact h.follow_load hp hin
    | add => exact h.follow_add hp hin
    | sub => exact h.follow_sub hp hin
    | store =>
      rw [Operation.block, h.follow_storeFrom hp (h.width_accumulator hp), Operation.execute,
        if_neg hout, if_neg hout]
      rfl
    | multiply => exact h.follow_multiply hp hin (hquotient rfl)
    | divide => exact h.follow_divide hp hin (hquotient rfl)
    | storeQuotient =>
      have hwidth := h.width_data hp (r := mq) rfl (hquotient rfl)
      rw [Operation.block, h.follow_storeFrom hp hwidth, Operation.execute, if_neg hout,
        if_neg hout]
      rfl

end

/-! ## Fetching and decoding -/

/-- The address field of an instruction survives its way from memory through the instruction
register. -/
theorem Instruction.truncate_address (a : Architecture) (i : Instruction)
    (hi : i.address < 2 ^ 12) :
    Word.truncate 12 ((Profile.ofArchitecture a).layout.instruction (i.word a) .left &&&
      (Profile.ofArchitecture a).layout.addressMask) = i.address := by
  have hpack (code : Nat) : Word.truncate 12 (code <<< 12 ||| Word.truncate 12 i.address) =
      i.address := by
    have hfield : Word.truncate 12 i.address = i.address :=
      Word.truncate_of_lt_two_pow Word.twelve_le_maxWidth hi
    rw [hfield, ← Nat.shiftLeft_add_eq_or_of_lt hi, Nat.shiftLeft_eq,
      Word.truncate_eq_mod Word.twelve_le_maxWidth, Nat.mul_add_mod_self_right, Nat.mod_eq_of_lt hi]
  rw [Layout.addressMask, Word.and_mask]
  cases a with
  | hypothetical =>
    show Word.truncate 12 (Word.truncate 12 (Word.truncate 16 _)) = _
    rw [Word.truncate_truncate, Word.truncate_truncate_of_le (by decide)]
    exact hpack _
  | ias =>
    show Word.truncate 12 (Word.truncate 12 (Word.truncate 20 ((_ <<< 20) >>> 20))) = _
    rw [Word.truncate_truncate, Word.truncate_truncate_of_le (by decide),
      Nat.shiftLeft_shiftRight]
    exact hpack _

/-- An instruction on the left of a word leaves no bit over. -/
theorem Instruction.word_lt {p : Profile} (hp : p.Registered) (i : Instruction) :
    i.word p.architecture < 2 ^ p.wordBits := by
  have haddress : Word.truncate 12 i.address < 2 ^ 12 := Word.truncate_lt_two_pow 12 _
  obtain ⟨a, policy, rfl⟩ := hp
  cases a with
  | hypothetical =>
    have hcode : i.operation.code .hypothetical <<< 12 < 2 ^ 16 := by
      cases i.operation <;> decide
    show i.operation.code .hypothetical <<< 12 ||| Word.truncate 12 i.address < 2 ^ 16
    exact Nat.or_lt_two_pow hcode (Nat.lt_of_lt_of_le haddress (by decide))
  | ias =>
    have hcode : i.operation.code .ias <<< 12 < 2 ^ 20 := by
      cases i.operation <;> decide
    show (i.operation.code .ias <<< 12 ||| Word.truncate 12 i.address) <<< 20 < 2 ^ 40
    rw [Nat.shiftLeft_eq]
    exact Nat.mul_lt_mul_of_pos_right
      (Nat.or_lt_two_pow hcode (Nat.lt_of_lt_of_le haddress (by decide)))
      (Nat.two_pow_pos 20)

section

variable {p : Profile} {s : Storage} {rest : List MicroStep} (h : s.Fits p) (hp : p.Registered)
include h hp

/-- The word under the counter reaches the buffer register, and the counter moves on. -/
theorem Storage.Fits.follow_fetchWord (hin : s.value pc < p.memoryWords) :
    ∃ s', s.follow p [.fetch (.copy pc mar), .fetch (.readMemory mar mbr), .fetch (.increment pc)] =
        (s', none) ∧
      Processor.ofStorage s' = (Processor.ofStorage s).countUp ∧
      s'.value mbr = s.word (s.value pc) := by
  have hwidth {r : Register} (hr : r.holdsAddress = true) := h.width_address hp hr
  have hword := h.truncate_word hp (s.value pc)
  have hpc : Word.truncate 12 (s.value pc) = s.value pc :=
    Word.truncate_of_lt_two_pow Word.twelve_le_maxWidth (Nat.lt_of_lt_of_le hin hp.memoryWords_le)
  have hcount := Word.truncate_eq_mod Word.twelve_le_maxWidth (s.value pc + 1)
  have hmar : (s.put mar (s.value pc)).value mar = s.value pc := by
    rw [Storage.value_put_self, hwidth rfl, hpc]
  refine ⟨((s.put mar (s.value pc)).put mbr (s.word (s.value pc))).put pc
    (Word.truncate 12 (s.value pc + 1)), ?_, ?_, ?_⟩
  · rw [MicroStep.fetch, Storage.follow_copy, hwidth rfl, hpc, MicroStep.fetch,
      Storage.follow_readMemory, hmar, Storage.memory_put, h.size, if_neg (Nat.not_le_of_lt hin),
      Storage.width_put, h.width_buffer hp, Storage.word_put, hword, MicroStep.fetch,
      Storage.follow_increment, Storage.follow_nil, Storage.width_put, Storage.width_put,
      hwidth rfl]
    simp
  · rw [Processor.ofStorage_put, Processor.ofStorage_put, Processor.ofStorage_put,
      Storage.width_put, Storage.width_put, Storage.width_put, hwidth (r := pc) rfl,
      Word.truncate_truncate, hcount]
    rfl
  · simp [h.width_buffer hp, hword]

/-- The instruction register receives the instruction on the left of the word. -/
theorem Storage.Fits.follow_fetch (hin : s.value pc < p.memoryWords) :
    ∃ s', s.follow p (Block.fetch p.architecture) = (s', none) ∧
      Processor.ofStorage s' = (Processor.ofStorage s).countUp ∧
      s'.value ir = p.layout.instruction (s.word (s.value pc)) .left := by
  obtain ⟨s', hfollow, hview, hbuffer⟩ := h.follow_fetchWord hp hin
  have hwidth : s'.width ir = (p.width? ir).getD 0 := (h.of_follow hfollow).width_eq ir
  obtain ⟨a, policy, rfl⟩ := id hp
  cases a with
  | hypothetical =>
    refine ⟨_, (Storage.follow_append hfollow).trans (Storage.follow_copy _ _ _), ?_, ?_⟩
    · rw [Processor.ofStorage_put, hview]
      rfl
    · rw [Storage.value_put_self, hwidth, Word.truncate_truncate, hbuffer]
      rfl
  | ias =>
    refine ⟨_, (Storage.follow_append hfollow).trans
      ((Storage.follow_loadHalf _ _ _ _).trans (Storage.follow_loadHalf _ _ _ _)), ?_, ?_⟩
    · rw [Processor.ofStorage_put, Processor.ofStorage_put, hview]
      rfl
    · rw [Storage.value_put_of_ne (by decide), Storage.value_put_self, hwidth,
        Word.truncate_truncate, hbuffer]
      exact Word.truncate_truncate _ _

/-- The steps of an instruction do to the storage what the instruction does to the processor. -/
theorem Storage.Fits.follow_instruction {i : Instruction} (hin : s.value pc < p.memoryWords)
    (hword : s.word (s.value pc) = i.word p.architecture) (hi : i.address < 2 ^ 12)
    (hquotient : i.operation.usesQuotient = true → p.hasRegister mq = true) :
    Processor.ofCourse (s.follow p (i.steps p.architecture)) = i.interpret p (.ofStorage s) := by
  obtain ⟨s₁, hfetch, hview, hinstruction⟩ := h.follow_fetch hp hin
  have hs₁ : s₁.Fits p := h.of_follow hfetch
  let s₂ := s₁.put mar (Word.truncate 12 (s₁.value ir &&& p.layout.addressMask))
  have hdecode : s₁.follow p (Block.decodeOperand p.layout.addressMask) = (s₂, none) := by
    rw [Block.decodeOperand, MicroStep.execute, Storage.follow_decode, MicroStep.execute,
      Storage.follow_extractAddress, Storage.follow_nil, hs₁.width_address hp rfl]
  have haddress : s₂.value mar = i.address := by
    have hfield := i.truncate_address p.architecture hi
    rw [hp.layout_eq, ← hword, ← hinstruction] at hfield
    rw [Storage.value_put_self, hs₁.width_address hp rfl, Word.truncate_truncate, hfield]
  rw [Instruction.steps, hp.layout_eq, Storage.follow_append
    ((Storage.follow_append hfetch).trans hdecode), (hs₁.put mar _).follow_block hp _ hquotient,
    haddress, Processor.ofStorage_put, hview]
  rfl

end

end FetchExecute
