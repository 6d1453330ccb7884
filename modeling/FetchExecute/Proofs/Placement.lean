import FetchExecute.Proofs.Assignment
import Mathlib.Data.Nat.GCD.Basic
import Mathlib.Data.Nat.ModEq

/-!
# Where a split result goes

A multiplication or division with a second register is announced by a label that
says which part of the result goes where.  The label is made from the step alone,
while the result is split as the policy of the profile says:

| policy | `mul` | `div` |
|---|---|---|
| `faithful` | high part, low part | quotient, remainder |
| `simplified` | low bits of the product, zero | quotient, zero |

So every label holds under the one policy, and under the other one it holds only
where the two rows happen to agree.  `split_label_holds_iff` says where that
is: the remainder has to be zero, and so do all the bits of the product that the
two registers have room for.
-/

namespace FetchExecute

/-- The low bits of a number are those of its high part only if all of them are zero. -/
theorem two_pow_add_dvd_iff {a b n : Nat} (ha : 0 < a) :
    2 ^ (a + b) ∣ n ↔ n % 2 ^ a = 0 ∧ n / 2 ^ a % 2 ^ b = n % 2 ^ b := by
  constructor
  · rintro ⟨k, rfl⟩
    rw [Nat.pow_add, Nat.mul_assoc, Nat.mul_mod_right,
      Nat.mul_div_cancel_left _ (Nat.two_pow_pos a), Nat.mul_left_comm, Nat.mul_mod_right,
      Nat.mul_mod_right]
    exact ⟨rfl, rfl⟩
  · rintro ⟨hlow, hhigh⟩
    obtain ⟨m, rfl⟩ := Nat.dvd_of_mod_eq_zero hlow
    rw [Nat.mul_div_cancel_left _ (Nat.two_pow_pos a)] at hhigh
    have hdvd : 2 ^ b ∣ m * (2 ^ a - 1) := by
      rw [Nat.mul_sub_one, Nat.mul_comm m]
      exact (Nat.modEq_iff_dvd' (Nat.le_mul_of_pos_left m (Nat.two_pow_pos a))).mp hhigh
    have hcoprime : Nat.Coprime (2 ^ a) (2 ^ a - 1) :=
      (Nat.coprime_self_sub_right (Nat.two_pow_pos a)).mpr (Nat.coprime_one_right _)
    have hcoprime' : Nat.Coprime (2 ^ b) (2 ^ a - 1) :=
      (hcoprime.coprime_dvd_left (dvd_pow_self 2 ha.ne')).pow_left b
    rw [Nat.pow_add]
    exact Nat.mul_dvd_mul_left _ (hcoprime'.dvd_of_dvd_mul_right hdvd)

/-! ## Labels -/

/-- The label of the step ends in this text. -/
def MicroStep.Announces (step : MicroStep) (text : String) : Prop :=
  ∃ front, step.label = front ++ text

/-- A combining step that splits its result between two registers. -/
structure SplitStep where
  phase : Phase
  op : AluOp
  left : Register
  right : Register
  target : Register
  low : Register
  splits : op.splits = true
  low_ne : low ≠ target

namespace SplitStep

def step (c : SplitStep) : MicroStep :=
  ⟨c.phase, .combine c.op c.left c.right c.target (some c.low)⟩

/-- The announcement of the two halves of a product. -/
def halvesText (c : SplitStep) : String :=
  "; high part to " ++ c.target.name ++ ", low part to " ++ c.low.name

/-- The announcement of the two results of a division. -/
def quotientText (c : SplitStep) : String :=
  "; quotient to " ++ c.target.name ++ ", remainder to " ++ c.low.name

/-- What the label promises is so: it starts from the storage `s` and leaves `s'`. -/
structure LabelHolds (c : SplitStep) (s s' : Storage) : Prop where
  halves : c.step.Announces c.halvesText →
    s'.value c.low = s.value c.left * s.value c.right % 2 ^ s.width c.low ∧
      s'.value c.target =
        s.value c.left * s.value c.right / 2 ^ s.width c.low % 2 ^ s.width c.target
  quotient : c.step.Announces c.quotientText →
    s'.value c.target = s.value c.left / s.value c.right % 2 ^ s.width c.target ∧
      s'.value c.low = s.value c.left % s.value c.right % 2 ^ s.width c.low

variable {c : SplitStep}

theorem op_eq (c : SplitStep) : c.op = .mul ∨ c.op = .div := by
  have hsplits := c.splits
  cases hop : c.op with
  | add => simp [hop, AluOp.splits] at hsplits
  | sub => simp [hop, AluOp.splits] at hsplits
  | mul => exact .inl rfl
  | div => exact .inr rfl

/-- The action of a multiplication announces the two halves at its end. -/
theorem action_of_mul (hop : c.op = .mul) :
    MicroOp.combineAction c.op c.left c.right c.target (some c.low) =
      AluOp.phrase .mul c.left.name c.right.name ++ c.halvesText := by
  rw [hop]
  unfold halvesText
  simp only [MicroOp.combineAction, String.append_assoc]

theorem action_of_div (hop : c.op = .div) :
    MicroOp.combineAction c.op c.left c.right c.target (some c.low) =
      AluOp.phrase .div c.left.name c.right.name ++ c.quotientText := by
  rw [hop]
  unfold quotientText
  simp only [MicroOp.combineAction, String.append_assoc]

/-- What the action ends in, the label ends in. -/
theorem announces_of_action {text front : String}
    (h : MicroOp.combineAction c.op c.left c.right c.target (some c.low) = front ++ text) :
    c.step.Announces text := by
  refine ⟨c.phase.label ++ " - " ++ front, ?_⟩
  rw [String.append_assoc, ← h]
  rfl

theorem append_ne_append {front front' text text' : String} (hlength : text.length = text'.length)
    (hne : text ≠ text') : front ++ text ≠ front' ++ text' := by
  intro h
  have hchars : front.toList ++ text.toList = front'.toList ++ text'.toList := by
    rw [← String.toList_append, h, String.toList_append]
  exact hne (String.toList_inj.mp (List.append_inj_right' hchars hlength))

/-- The two announcements differ in the last word before the register at their end. -/
theorem append_quotientText_ne (c : SplitStep) (front front' : String) :
    front ++ c.quotientText ≠ front' ++ c.halvesText := by
  have hremainder : ", remainder to " = ", remainde" ++ "r to " := by decide
  have hlow : ", low part to " = ", low par" ++ "t to " := by decide
  have hne : "r to " ≠ "t to " := by decide
  intro h
  unfold quotientText halvesText at h
  rw [hremainder, hlow] at h
  simp only [← String.append_assoc, String.append_left_inj] at h
  exact append_ne_append (by decide) hne h

/-- The halves are announced for a multiplication, and for nothing else. -/
theorem announces_halves_iff : c.step.Announces c.halvesText ↔ c.op = .mul := by
  constructor
  · rintro ⟨front, hfront⟩
    refine c.op_eq.resolve_right fun hdiv ↦ ?_
    obtain ⟨front', hfront'⟩ := announces_of_action (action_of_div hdiv)
    exact c.append_quotientText_ne front' front (hfront'.symm.trans hfront)
  · intro hmul
    exact announces_of_action (action_of_mul hmul)

theorem announces_quotient_iff : c.step.Announces c.quotientText ↔ c.op = .div := by
  constructor
  · rintro ⟨front, hfront⟩
    refine c.op_eq.resolve_left fun hmul ↦ ?_
    obtain ⟨front', hfront'⟩ := announces_of_action (action_of_mul hmul)
    exact c.append_quotientText_ne front front' (hfront.symm.trans hfront')
  · intro hdiv
    exact announces_of_action (action_of_div hdiv)

/-! ## Results -/

/-- What the arithmetic unit is given by the step. -/
def task (c : SplitStep) (p : Profile) (s : Storage) : Alu.Task :=
  s.task p.splitPolicy c.op c.left c.right c.target (some c.low)

theorem secondaryWidth_task (c : SplitStep) (p : Profile) (s : Storage) :
    (c.task p s).secondaryWidth = some (s.width c.low) := by
  simp [task, Storage.task, AluOp.secondTarget, c.splits]

/-- The operands of the step are within the bits that the arithmetic unit is made for. -/
theorem fits_task {p : Profile} {s : Storage} (hs : s.registers.Bounded) :
    (c.task p s).Fits where
  left := hs.value_lt_maxWidth c.left
  right := hs.value_lt_maxWidth c.right
  primary := hs.width_le_maxWidth c.target
  secondary := by
    intro low hlow
    rw [secondaryWidth_task] at hlow
    exact Option.mem_some.mp hlow ▸ hs.width_le_maxWidth c.low

/-- The first result goes to the target, and the second one, if any, to the other register. -/
theorem transfers_eq (c : SplitStep) (p : Profile) (s : Storage) :
    c.step.op.transfers p s = [(c.target, (Alu.outcome (c.task p s)).primary),
      (c.low, (Alu.outcome (c.task p s)).secondary.getD 0)] := by
  simp [step, MicroOp.transfers, AluOp.secondTarget, c.splits, task]

/-- The two registers are different, so both parts of the result stay. -/
theorem values_perform (c : SplitStep) (p : Profile) (s : Storage) :
    (c.step.op.perform p s).value c.target = (Alu.outcome (c.task p s)).primary ∧
      (c.step.op.perform p s).value c.low = (Alu.outcome (c.task p s)).secondary.getD 0 := by
  have hfirst : c.step.op.transfers p s =
      [] ++ (c.target, (Alu.outcome (c.task p s)).primary) ::
        [(c.low, (Alu.outcome (c.task p s)).secondary.getD 0)] := c.transfers_eq p s
  have hlast : c.step.op.transfers p s =
      [(c.target, (Alu.outcome (c.task p s)).primary)] ++
        (c.low, (Alu.outcome (c.task p s)).secondary.getD 0) :: [] := c.transfers_eq p s
  constructor
  · refine MicroOp.value_perform_of_transfers hfirst ?_
    intro entry hentry
    rw [List.mem_singleton.mp hentry]
    exact c.low_ne
  · exact MicroOp.value_perform_of_transfers hlast nofun

theorem full_of_mul {p : Profile} {s : Storage} (hop : c.op = .mul) :
    (Alu.outcome (c.task p s)).full = s.value c.left * s.value c.right := by
  have hfull := Alu.full_outcome (c.task p s)
  have htask : (c.task p s).op = .mul := hop
  simp only [Alu.Task.exact, htask, reduceCtorEq, if_false] at hfull
  exact_mod_cast hfull

theorem full_of_div {p : Profile} {s : Storage} (hop : c.op = .div) :
    (Alu.outcome (c.task p s)).full = s.value c.left / s.value c.right := by
  have hfull := Alu.full_outcome (c.task p s)
  have htask : (c.task p s).op = .div := hop
  simp only [Alu.Task.exact, htask, reduceCtorEq, if_false] at hfull
  exact_mod_cast hfull

/-! ## Where labels hold -/

section

variable {p : Profile} {s : Storage} (hs : s.registers.Bounded)
include hs

/-- Under the faithful policy the halves of a product are where the label says. -/
theorem values_of_faithful_mul (hpolicy : p.splitPolicy = .faithful) (hop : c.op = .mul) :
    (c.step.op.perform p s).value c.low =
        s.value c.left * s.value c.right % 2 ^ s.width c.low ∧
      (c.step.op.perform p s).value c.target =
        s.value c.left * s.value c.right / 2 ^ s.width c.low % 2 ^ s.width c.target := by
  obtain ⟨hprimary, hsecondary⟩ :=
    Alu.parts_of_product (fits_task (c := c) hs) ⟨hpolicy, c.secondaryWidth_task p s⟩ hop
  obtain ⟨htarget, hlow⟩ := c.values_perform p s
  rw [htarget, hlow, hprimary, hsecondary]
  exact ⟨rfl, rfl⟩

/-- Under the faithful policy quotient and remainder are where the label says. -/
theorem values_of_faithful_div (hpolicy : p.splitPolicy = .faithful) (hop : c.op = .div) :
    (c.step.op.perform p s).value c.target =
        s.value c.left / s.value c.right % 2 ^ s.width c.target ∧
      (c.step.op.perform p s).value c.low =
        s.value c.left % s.value c.right % 2 ^ s.width c.low := by
  obtain ⟨hprimary, hsecondary⟩ :=
    Alu.parts_of_quotient (fits_task (c := c) hs) ⟨hpolicy, c.secondaryWidth_task p s⟩ hop
  obtain ⟨htarget, hlow⟩ := c.values_perform p s
  rw [htarget, hlow, hprimary, hsecondary]
  exact ⟨rfl, rfl⟩

/-- The simplified policy keeps the low bits of the result, and clears the second register. -/
theorem values_of_simplified (hpolicy : p.splitPolicy = .simplified) :
    (c.step.op.perform p s).value c.target =
        (Alu.outcome (c.task p s)).full % 2 ^ s.width c.target ∧
      (c.step.op.perform p s).value c.low = 0 := by
  obtain ⟨htarget, hlow⟩ := c.values_perform p s
  constructor
  · rw [htarget, Alu.primary_eq, Word.truncate_eq_mod (fits_task hs).primary]
    · rfl
    · rintro - low ⟨hfaithful, -⟩
      exact nomatch hpolicy.symm.trans hfaithful
  · rw [hlow]
    cases hsecondary : (Alu.outcome (c.task p s)).secondary with
    | none => rfl
    | some v => exact Alu.secondary_of_simplified hpolicy v hsecondary

/-- Under the other policy the label of a multiplication is right only if there is nothing but zeros
to place. -/
theorem labelHolds_of_simplified_mul (hpolicy : p.splitPolicy = .simplified) (hop : c.op = .mul)
    (hpos : 0 < s.width c.low) :
    c.LabelHolds s (c.step.op.perform p s) ↔
      2 ^ (s.width c.low + s.width c.target) ∣ s.value c.left * s.value c.right := by
  obtain ⟨htarget, hlow⟩ := values_of_simplified (c := c) hs hpolicy
  rw [two_pow_add_dvd_iff hpos]
  constructor
  · intro hholds
    obtain ⟨hlow', htarget'⟩ := hholds.halves (announces_halves_iff.mpr hop)
    rw [← hlow', ← htarget', ← full_of_mul hop]
    exact ⟨hlow, htarget⟩
  · rintro ⟨hzero, hhigh⟩
    constructor
    · intro _
      rw [hlow, htarget, hzero, hhigh, full_of_mul hop]
      exact ⟨rfl, rfl⟩
    · intro hdiv
      exact nomatch hop.symm.trans (announces_quotient_iff.mp hdiv)

/-- The label of a division is right only if the remainder is zero to its register. -/
theorem labelHolds_of_simplified_div (hpolicy : p.splitPolicy = .simplified) (hop : c.op = .div) :
    c.LabelHolds s (c.step.op.perform p s) ↔
      2 ^ s.width c.low ∣ s.value c.left % s.value c.right := by
  obtain ⟨htarget, hlow⟩ := values_of_simplified (c := c) hs hpolicy
  rw [Nat.dvd_iff_mod_eq_zero]
  constructor
  · intro hholds
    obtain ⟨-, hlow'⟩ := hholds.quotient (announces_quotient_iff.mpr hop)
    rw [← hlow', hlow]
  · intro hzero
    constructor
    · intro hmul
      exact nomatch hop.symm.trans (announces_halves_iff.mp hmul)
    · intro _
      rw [hlow, htarget, hzero, full_of_div hop]
      exact ⟨rfl, rfl⟩

/-- The exact condition under which the label of a step is right. -/
theorem labelHolds_perform_iff (hpos : 0 < s.width c.low) :
    c.LabelHolds s (c.step.op.perform p s) ↔
      p.splitPolicy = .faithful ∨
        c.op = .mul ∧
          2 ^ (s.width c.low + s.width c.target) ∣ s.value c.left * s.value c.right ∨
        c.op = .div ∧ 2 ^ s.width c.low ∣ s.value c.left % s.value c.right := by
  cases hpolicy : p.splitPolicy with
  | faithful =>
    refine ⟨fun _ ↦ .inl rfl, fun _ ↦ ⟨?_, ?_⟩⟩
    · intro hmul
      exact values_of_faithful_mul hs hpolicy (announces_halves_iff.mp hmul)
    · intro hdiv
      exact values_of_faithful_div hs hpolicy (announces_quotient_iff.mp hdiv)
  | simplified =>
    rcases c.op_eq with hop | hop
    · rw [labelHolds_of_simplified_mul hs hpolicy hop hpos]
      simp [hop]
    · rw [labelHolds_of_simplified_div hs hpolicy hop]
      simp [hop]

end

end SplitStep

/-- No register of a machine has width zero. -/
theorem Storage.Fits.width_pos {p : Profile} {s : Storage} (h : s.Fits p) (hp : p.Registered)
    {r : Register} (hr : s.registers.contains r = true) : 0 < s.width r := by
  have hwidth := Storage.width?_of_contains hr
  rw [h.width?_eq, Profile.width?, Option.map_eq_some_iff] at hwidth
  obtain ⟨declared, hfind, hdeclared⟩ := hwidth
  exact hdeclared ▸ hp.width_pos declared (List.mem_of_find?_eq_some hfind)

/-- Wherever a step that splits its result succeeds, its label tells the truth about the result if
and only if the policy is the faithful one, or all the bits of the product that the two registers
have room for are zero, or the remainder is, as far as its register can tell. -/
theorem split_label_holds_iff {p : Profile} {s : Storage} {c : SplitStep} {e : Effect}
    (hp : p.Registered) (hs : s.Fits p) (he : c.step.effect p s = .ok e) (owner : Architecture) :
    ∃ s', e.commit owner s = (s', .ok ()) ∧
      (c.LabelHolds s s' ↔
        p.splitPolicy = .faithful ∨
          c.op = .mul ∧
            2 ^ (s.width c.low + s.width c.target) ∣ s.value c.left * s.value c.right ∨
          c.op = .div ∧ 2 ^ s.width c.low ∣ s.value c.left % s.value c.right) := by
  obtain ⟨-, -, -, hcommit⟩ := MicroStep.effect_spec he
  have hlow : s.registers.contains c.low = true := by
    refine (MicroStep.exists_effect_iff.mp ⟨e, he⟩).present c.low (List.mem_append_right _ ?_)
    simp [SplitStep.step, MicroStep.writes, MicroOp.writes_combine, AluOp.secondTarget, c.splits]
  exact ⟨_, hcommit owner, SplitStep.labelHolds_perform_iff (hs.bounded hp) (hs.width_pos hp hlow)⟩

/-- The step of the catalog that divides. -/
def SplitStep.divide : SplitStep := ⟨.execute, .div, .ac, .mbr, .mq, .ac, rfl, by decide⟩

/-- The step of the catalog that multiplies. -/
def SplitStep.multiply : SplitStep := ⟨.execute, .mul, .ac, .mbr, .ac, .mq, rfl, by decide⟩

/-- Two operands of the IAS machine. -/
def Storage.operands (ac mbr : Nat) : Storage := ((Storage.zero .ias).put .ac ac).put .mbr mbr

theorem Storage.fits_operands (ac mbr : Nat) (policy : SplitPolicy) :
    (Storage.operands ac mbr).Fits (Profile.ias.withSplit policy) := by
  have hp : (Profile.ias.withSplit policy).Registered := ⟨.ias, policy, rfl⟩
  exact ((Storage.Fits.zero hp.nodup).put .ac ac).put .mbr mbr

/-- With a remainder, and the policy that keeps it. -/
theorem label_of_divide_holds :
    ∃ e s, SplitStep.divide.step.effect (Profile.ias.withSplit .faithful) (.operands 22 4) = .ok e ∧
      e.commit .ias (.operands 22 4) = (s, .ok ()) ∧
      SplitStep.divide.LabelHolds (.operands 22 4) s ∧ s.value .mq = 5 ∧ s.value .ac = 2 := by
  have hexecutable : SplitStep.divide.step.Executable (.operands 22 4) :=
    ⟨by decide, nofun, by rintro r ⟨rfl⟩; decide⟩
  obtain ⟨e, he⟩ := (MicroStep.exists_effect_iff
    (p := Profile.ias.withSplit .faithful)).mpr hexecutable
  obtain ⟨s, hs, hiff⟩ :=
    split_label_holds_iff ⟨.ias, .faithful, rfl⟩ (Storage.fits_operands 22 4 .faithful) he .ias
  have hholds := hiff.mpr (.inl rfl)
  obtain ⟨hquotient, hremainder⟩ :=
    hholds.quotient (SplitStep.announces_quotient_iff.mpr rfl)
  refine ⟨e, s, he, hs, hholds, hquotient.trans ?_, hremainder.trans ?_⟩
  · decide +kernel
  · decide +kernel

/-- As the catalog is run, the label of its multiplication announces a high part and a low part,
and the whole product goes where the high part should, with nothing where the low part should. -/
theorem label_of_multiply_fails :
    ¬ ∀ {p : Profile} {s : Storage} {c : SplitStep} {e : Effect}, p.Registered → s.Fits p →
      c.step.effect p s = .ok e → ∀ owner, ∃ s', e.commit owner s = (s', .ok ()) ∧
        c.LabelHolds s s' := by
  intro hall
  have hexecutable : SplitStep.multiply.step.Executable (.operands 20 4) :=
    ⟨by decide, nofun, nofun⟩
  have hp : (Profile.ias.withSplit .simplified).Registered := ⟨.ias, .simplified, rfl⟩
  have hfits := Storage.fits_operands 20 4 .simplified
  obtain ⟨e, he⟩ := (MicroStep.exists_effect_iff
    (p := Profile.ias.withSplit .simplified)).mpr hexecutable
  obtain ⟨-, -, -, hcommit⟩ := MicroStep.effect_spec he
  obtain ⟨s, hs, hholds⟩ := hall hp hfits he .ias
  obtain rfl := (Prod.mk.inj ((hcommit .ias).symm.trans hs)).1
  rcases (SplitStep.labelHolds_perform_iff (hfits.bounded hp) (by decide)).mp hholds with
    hpolicy | ⟨-, hdvd⟩ | ⟨hop, -⟩
  · cases hpolicy
  · exact absurd hdvd (by decide +kernel)
  · cases hop

end FetchExecute
