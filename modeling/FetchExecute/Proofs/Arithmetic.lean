import FetchExecute.Proofs.Effect
import Mathlib.Data.Int.ModEq

/-!
# The arithmetic unit and the integers

The unit computes in numbers of 128 bits and cuts what it has computed to the
widths of its destinations.  `Alu.Task.exact` is the result as an integer, so that
a difference may be negative, and `Alu.Task.Answers` says what is left of it:

* nothing overflows on the way (`Alu.intermediates_lt`), so the full result is the
  exact one, a difference apart, which wraps around;
* a first destination keeps it modulo its width (`Alu.primary_modEq`), unless a
  product goes to two destinations;
* the two parts of a product are its digits to the base of the second destination
  (`Alu.recombined_product`), and those of a quotient make up the dividend
  (`Alu.recombined_quotient`).

That results stay within their destinations (`Alu.truncate_primary`,
`Alu.truncate_secondary`) holds of any task at all, also of widths that no cell has.
-/

namespace FetchExecute.Alu

/-! ## What a task asks for -/

namespace Task

/-- The result as an integer, before anything is cut off. -/
def exact (t : Task) : Int :=
  match t.op with
  | .add => t.left + t.right
  | .sub => t.left - t.right
  | .mul => t.left * t.right
  | .div => t.left / t.right

/-- The numbers that the unit computes without cutting them, a difference apart. -/
def intermediates (t : Task) : List Nat :=
  match t.op with
  | .add => [t.left + t.right]
  | .sub => []
  | .mul => t.left * t.right :: t.secondaryWidth.toList.map fun low => (t.left * t.right) >>> low
  | .div => [t.left / t.right, t.left % t.right]

/-- A second destination receives its part of the result. -/
def Shares (t : Task) (low : Nat) : Prop := t.policy = .faithful ∧ t.secondaryWidth = some low

/-- Operands and widths are those of cells. -/
structure Fits (t : Task) : Prop where
  left : t.left < 2 ^ Word.maxWidth
  right : t.right < 2 ^ Word.maxWidth
  primary : t.primaryWidth ≤ Word.maxWidth
  secondary : ∀ low ∈ t.secondaryWidth, low ≤ Word.maxWidth

/-- What a result tells of the exact one. -/
structure Answers (t : Task) (r : Result) : Prop where
  intermediates_lt : ∀ n ∈ t.intermediates, n < 2 ^ resultBits
  full : (r.full : Int) = if t.op = .sub then t.exact % 2 ^ resultBits else t.exact
  primary_lt : r.primary < 2 ^ t.primaryWidth
  isSome_secondary : r.secondary.isSome = (t.op.splits && t.secondaryWidth.isSome)
  secondary_lt : ∀ low ∈ t.secondaryWidth, ∀ v ∈ r.secondary, v < 2 ^ low
  primary : (t.op = .mul → ∀ low, ¬ t.Shares low) →
    (r.primary : Int) ≡ t.exact [ZMOD 2 ^ t.primaryWidth]
  cleared : t.policy = .simplified → ∀ v ∈ r.secondary, v = 0
  product : t.op = .mul → ∀ low, t.Shares low → ∃ v, r.secondary = some v ∧
    r.primary * 2 ^ low + v ≡ t.left * t.right [MOD 2 ^ (t.primaryWidth + low)] ∧
    (t.left * t.right < 2 ^ (t.primaryWidth + low) → r.primary * 2 ^ low + v = t.left * t.right)
  quotient : t.op = .div → ∀ low, t.Shares low → ∃ v, r.secondary = some v ∧
    r.primary = t.left / t.right % 2 ^ t.primaryWidth ∧ v = t.left % t.right % 2 ^ low ∧
    (t.left < 2 ^ t.primaryWidth → t.right ≤ 2 ^ low → r.primary * t.right + v = t.left)

end Task

/-! ## Results within their destinations -/

variable {t : Task} {low : Nat}

/-- The first result is within the width of its register. -/
@[simp] theorem truncate_primary (t : Task) :
    Word.truncate t.primaryWidth (outcome t).primary = (outcome t).primary := by
  cases hop : t.op with
  | add => simp [outcome, hop, Result.single]
  | sub => simp [outcome, hop, Result.single]
  | mul =>
    cases hw : t.secondaryWidth <;> cases hp : t.policy <;>
      simp [outcome, hop, product, Result.single, hw, hp]
  | div => simp [outcome, hop, quotient, Result.single]

theorem truncate_secondary {v : Nat} (hlow : t.secondaryWidth = some low)
    (hv : (outcome t).secondary = some v) : Word.truncate low v = v := by
  cases hop : t.op with
  | add => simp [outcome, hop, Result.single] at hv
  | sub => simp [outcome, hop, Result.single] at hv
  | mul =>
    cases hp : t.policy <;> simp [outcome, hop, product, hlow, hp] at hv <;> simp [← hv]
  | div =>
    cases hp : t.policy <;> simp [outcome, hop, quotient, hlow, hp] at hv <;> simp [← hv]

theorem isSome_secondary (t : Task) :
    (outcome t).secondary.isSome = (t.op.splits && t.secondaryWidth.isSome) := by
  cases hsplits : t.op.splits with
  | true => rw [isSome_secondary_outcome hsplits, Bool.true_and]
  | false => cases hop : t.op <;> simp_all [outcome, Result.single, AluOp.splits]

/-- Under the simplified policy the second result is zero. -/
theorem secondary_of_simplified (h : t.policy = .simplified) :
    ∀ v ∈ (outcome t).secondary, v = 0 := by
  cases hop : t.op with
  | add => simp [outcome, hop, Result.single]
  | sub => simp [outcome, hop, Result.single]
  | mul => cases hw : t.secondaryWidth <;> simp [outcome, hop, product, Result.single, hw, h]
  | div => cases hw : t.secondaryWidth <;> simp [outcome, hop, quotient, hw, h]

/-! ## The full result -/

/-- Two operands of 64 bits leave room for their product in the unit. -/
theorem intermediates_lt (h : t.Fits) : ∀ n ∈ t.intermediates, n < 2 ^ resultBits := by
  have hleft := h.left
  have hright := h.right
  have hproduct : t.left * t.right < 2 ^ resultBits :=
    calc t.left * t.right < 2 ^ Word.maxWidth * 2 ^ Word.maxWidth := Nat.mul_lt_mul'' hleft hright
      _ = 2 ^ resultBits := (Nat.pow_add 2 Word.maxWidth Word.maxWidth).symm
  have hroom : 2 ^ Word.maxWidth + 2 ^ Word.maxWidth ≤ 2 ^ resultBits := by decide
  intro n hn
  cases hop : t.op with
  | add =>
    obtain rfl : n = t.left + t.right := by simpa [Task.intermediates, hop] using hn
    exact Nat.lt_of_lt_of_le (Nat.add_lt_add hleft hright) hroom
  | sub => simp [Task.intermediates, hop] at hn
  | mul =>
    have hle : n ≤ t.left * t.right := by
      simp only [Task.intermediates, hop, List.mem_cons, List.mem_map] at hn
      rcases hn with rfl | ⟨low, -, rfl⟩
      · exact Nat.le_refl _
      · exact Nat.shiftRight_eq_div_pow _ _ ▸ Nat.div_le_self _ _
    exact Nat.lt_of_le_of_lt hle hproduct
  | div =>
    have hle : n ≤ t.left := by
      simp only [Task.intermediates, hop, List.mem_cons, List.not_mem_nil, or_false] at hn
      rcases hn with rfl | rfl
      · exact Nat.div_le_self _ _
      · exact Nat.mod_le _ _
    exact Nat.lt_of_le_of_lt hle (Nat.lt_of_lt_of_le hleft (by decide))

/-- The full result is the exact one, but for a difference, which wraps around. -/
theorem full_outcome (t : Task) :
    ((outcome t).full : Int) = if t.op = .sub then t.exact % 2 ^ resultBits else t.exact := by
  cases hop : t.op with
  | add => simp [outcome, Task.exact, hop, Result.single]
  | sub =>
    have hnonneg : (0 : Int) ≤ (t.left - t.right : Int) % (Nat.pow 2 resultBits : Nat) :=
      Int.emod_nonneg _ (by decide)
    simp only [outcome, Task.exact, hop, Result.single, if_true]
    exact Int.toNat_of_nonneg hnonneg
  | mul =>
    cases hw : t.secondaryWidth <;> cases hp : t.policy <;>
      simp [outcome, Task.exact, hop, product, Result.single, hw, hp]
  | div => simp [outcome, Task.exact, hop, quotient, Result.single]

/-! ## The first destination -/

/-- Unless a product is shared out, the first destination keeps the low bits of the result. -/
theorem primary_eq (h : t.op = .mul → ∀ low, ¬ t.Shares low) :
    (outcome t).primary = Word.truncate t.primaryWidth (outcome t).full := by
  cases hop : t.op with
  | add => simp [outcome, hop, Result.single]
  | sub => simp [outcome, hop, Result.single]
  | mul =>
    cases hw : t.secondaryWidth with
    | none => simp [outcome, hop, product, Result.single, hw]
    | some low =>
      cases hp : t.policy with
      | simplified => simp [outcome, hop, product, Result.single, hw, hp]
      | faithful => exact absurd ⟨hp, hw⟩ (h hop low)
  | div => simp [outcome, hop, quotient, Result.single]

/-- In full, a result is the exact one modulo the width. -/
theorem full_modEq (h : t.primaryWidth ≤ Word.maxWidth) :
    ((outcome t).full : Int) ≡ t.exact [ZMOD 2 ^ t.primaryWidth] := by
  have hdvd : (2 : Int) ^ t.primaryWidth ∣ 2 ^ resultBits :=
    pow_dvd_pow 2 (Nat.le_trans h (by decide))
  rw [full_outcome]
  split
  · exact (Int.mod_modEq _ _).of_dvd hdvd
  · rfl

theorem primary_modEq (h : t.primaryWidth ≤ Word.maxWidth)
    (hwhole : t.op = .mul → ∀ low, ¬ t.Shares low) :
    ((outcome t).primary : Int) ≡ t.exact [ZMOD 2 ^ t.primaryWidth] := by
  rw [primary_eq hwhole, Word.truncate_eq_mod h, Int.natCast_mod, Nat.cast_pow]
  exact (Int.mod_modEq _ _).trans (full_modEq h)

/-! ## Two destinations -/

section

variable (h : t.Fits) (hshares : t.Shares low)
include h hshares

/-- The two parts of a product that is split. -/
theorem parts_of_product (hop : t.op = .mul) :
    (outcome t).primary = t.left * t.right / 2 ^ low % 2 ^ t.primaryWidth ∧
      (outcome t).secondary = some (t.left * t.right % 2 ^ low) := by
  obtain ⟨hp, hw⟩ := hshares
  rw [← Nat.shiftRight_eq_div_pow, ← Word.truncate_eq_mod h.primary,
    ← Word.truncate_eq_mod (h.secondary low hw)]
  simp [outcome, hop, product, hw, hp]

/-- The two parts of a product are its digits, as far as there is room for them. -/
theorem recombined_product (hop : t.op = .mul) :
    ∃ v, (outcome t).secondary = some v ∧
      (outcome t).primary * 2 ^ low + v = t.left * t.right % 2 ^ (t.primaryWidth + low) := by
  obtain ⟨hprimary, hsecondary⟩ := parts_of_product h hshares hop
  refine ⟨_, hsecondary, ?_⟩
  calc (outcome t).primary * 2 ^ low + t.left * t.right % 2 ^ low
      = t.left * t.right % 2 ^ low +
          2 ^ low * (t.left * t.right / 2 ^ low % 2 ^ t.primaryWidth) := by
        rw [hprimary, Nat.add_comm, Nat.mul_comm (2 ^ low)]
    _ = t.left * t.right % 2 ^ (t.primaryWidth + low) := by
        rw [← Nat.mod_mul, ← Nat.pow_add, Nat.add_comm low]

/-- The two parts of a quotient that is split. -/
theorem parts_of_quotient (hop : t.op = .div) :
    (outcome t).primary = t.left / t.right % 2 ^ t.primaryWidth ∧
      (outcome t).secondary = some (t.left % t.right % 2 ^ low) := by
  obtain ⟨hp, hw⟩ := hshares
  rw [← Word.truncate_eq_mod h.primary, ← Word.truncate_eq_mod (h.secondary low hw)]
  simp [outcome, hop, quotient, Result.single, hw, hp]

omit h hshares in
/-- Quotient and remainder make up the dividend where both have room. -/
theorem recombined_quotient {left right width : Nat} (hright : right ≠ 0) (hl : left < 2 ^ width)
    (hr : right ≤ 2 ^ low) :
    left / right % 2 ^ width * right + left % right % 2 ^ low = left := by
  have hquotient : left / right < 2 ^ width := Nat.lt_of_le_of_lt (Nat.div_le_self _ _) hl
  have hremainder : left % right < 2 ^ low :=
    Nat.lt_of_lt_of_le (Nat.mod_lt _ (Nat.pos_of_ne_zero hright)) hr
  rw [Nat.mod_eq_of_lt hquotient, Nat.mod_eq_of_lt hremainder, Nat.div_add_mod']

end

/-- Where the unit has a result, it answers the task. -/
theorem answers_outcome (h : t.Fits) (hdiv : t.op = .div → t.right ≠ 0) :
    t.Answers (outcome t) where
  intermediates_lt := intermediates_lt h
  full := full_outcome t
  primary_lt := truncate_primary t ▸ Word.truncate_lt_two_pow _ _
  isSome_secondary := isSome_secondary t
  secondary_lt := by
    intro low hlow v hv
    exact truncate_secondary hlow hv ▸ Word.truncate_lt_two_pow low v
  primary := primary_modEq h.primary
  cleared := secondary_of_simplified
  product := by
    intro hop low hshares
    obtain ⟨v, hv, hsum⟩ := recombined_product h hshares hop
    refine ⟨v, hv, ?_, ?_⟩
    · rw [hsum]
      exact Nat.mod_modEq _ _
    · intro hlt
      rw [hsum, Nat.mod_eq_of_lt hlt]
  quotient := by
    intro hop low hshares
    obtain ⟨hprimary, hsecondary⟩ := parts_of_quotient h hshares hop
    refine ⟨_, hsecondary, hprimary, rfl, ?_⟩
    intro hl hr
    rw [hprimary, recombined_quotient (hdiv hop) hl hr]

/-- Dividing by zero is the one thing that the unit refuses, naming the register of the divisor.  To
every other task it has a result that agrees with integer arithmetic. -/
theorem combine_agrees_with_integers {t : Task} (h : t.Fits) :
    (∀ fault, combine t = .error fault ↔
      (t.op = .div ∧ t.right = 0) ∧ fault = .divisionByZero t.rightRegister) ∧
    (¬ (t.op = .div ∧ t.right = 0) → ∃ r, combine t = .ok r ∧ t.Answers r) := by
  by_cases hzero : t.op = .div ∧ t.right = 0
  · rw [combine_eq_error hzero.1 hzero.2]
    exact ⟨fun fault ↦ by simp [hzero, eq_comm], fun hnot ↦ absurd hzero hnot⟩
  · have hdiv : t.op = .div → t.right ≠ 0 := fun hop hright ↦ hzero ⟨hop, hright⟩
    rw [combine_eq_ok hdiv]
    exact ⟨fun fault ↦ by simp [hzero], fun _ ↦ ⟨_, rfl, answers_outcome h hdiv⟩⟩

/-- The largest product that there is, for two registers that together are too narrow for it. -/
def Task.largestProduct : Task where
  op := .mul
  left := 2 ^ 64 - 1
  right := 2 ^ 64 - 1
  rightRegister := .mbr
  primaryWidth := 40
  secondaryWidth := some 40
  policy := .faithful

theorem combine_largestProduct :
    ∃ r, combine .largestProduct = .ok r ∧ Task.largestProduct.Answers r ∧
      r = ⟨(2 ^ 64 - 1) * (2 ^ 64 - 1), 2 ^ 40 - 2 ^ 25, some 1⟩ := by
  have h : Task.largestProduct.Fits :=
    ⟨by decide, by decide, by decide, by simp [Task.largestProduct, Word.maxWidth]⟩
  obtain ⟨-, hok⟩ := combine_agrees_with_integers h
  obtain ⟨r, hr, hanswers⟩ := hok (by decide)
  have hrun : combine .largestProduct =
      .ok ⟨(2 ^ 64 - 1) * (2 ^ 64 - 1), 2 ^ 40 - 2 ^ 25, some 1⟩ := by decide
  exact ⟨r, hr, hanswers, Except.ok.inj (hr.symm.trans hrun)⟩

end FetchExecute.Alu
