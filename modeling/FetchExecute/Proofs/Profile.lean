import FetchExecute.Proofs.Storage

/-!
# Registered profiles

The profiles that programs are loaded for are the two machines, each under
either split policy.  What later proofs need to know of them is collected here:
a counter that reaches every word of memory, data registers as wide as a word,
and words that fit a cell.
-/

namespace FetchExecute

open Register

/-- One of the machines, under either split policy. -/
def Profile.Registered (p : Profile) : Prop :=
  ∃ a policy, p = (ofArchitecture a).withSplit policy

/-- Each machine has a profile under the policy it comes with. -/
theorem Profile.registered_ofArchitecture (a : Architecture) : (ofArchitecture a).Registered :=
  ⟨a, .simplified, by cases a <;> rfl⟩

/-- Whether the register holds a word of data. -/
def Register.holdsData : Register → Bool
  | .mbr | .ac | .mq => true
  | _ => false

theorem Word.twelve_le_maxWidth : 12 ≤ maxWidth := by decide

namespace Profile.Registered

variable {p : Profile} (hp : p.Registered)
include hp

/-- No machine has a register twice. -/
theorem nodup : (p.registers.map (·.1)).Nodup := by
  obtain ⟨a, policy, rfl⟩ := hp
  cases a <;> cases policy <;> decide

/-- Words are within the sixty-four bits of a value. -/
theorem wordBits_le : p.wordBits ≤ Word.maxWidth := by
  obtain ⟨a, policy, rfl⟩ := hp
  cases a
  · exact (by decide : 16 ≤ 64)
  · exact (by decide : 40 ≤ 64)

theorem wordBits_pos : 0 < p.wordBits := by
  obtain ⟨a, policy, rfl⟩ := hp
  cases a
  · exact (by decide : 0 < 16)
  · exact (by decide : 0 < 40)

/-- Registers are within the sixty-four bits of a value. -/
theorem width_le : ∀ declared ∈ p.registers, declared.2 ≤ Word.maxWidth := by
  obtain ⟨a, policy, rfl⟩ := hp
  cases a <;> cases policy <;> decide

theorem width_pos : ∀ declared ∈ p.registers, 0 < declared.2 := by
  obtain ⟨a, policy, rfl⟩ := hp
  cases a <;> cases policy <;> decide

/-- Twelve bits address all of memory. -/
theorem memoryWords_le : p.memoryWords ≤ 2 ^ 12 := by
  obtain ⟨a, policy, rfl⟩ := hp
  cases a
  · exact Nat.le_refl 4096
  · exact (by decide : 1000 ≤ 4096)

theorem memoryWords_eq (h : p.architecture = .hypothetical) : p.memoryWords = 2 ^ 12 := by
  obtain ⟨a, policy, rfl⟩ := hp
  obtain rfl : a = .hypothetical := (architecture_ofArchitecture a).symm.trans h
  rfl

/-- The policy has no part in the layout of instructions. -/
theorem layout_eq : (ofArchitecture p.architecture).layout = p.layout := by
  obtain ⟨a, policy, rfl⟩ := hp
  cases a <;> rfl

/-- The counter and the address register are as wide as an address. -/
theorem width?_address {r : Register} (h : r.holdsAddress = true) : p.width? r = some 12 := by
  obtain ⟨a, policy, rfl⟩ := hp
  cases r with
  | pc => cases a <;> rfl
  | mar => cases a <;> rfl
  | _ => cases h

/-- The registers that hold data are as wide as a word, if they are there. -/
theorem width?_data {r : Register} (h : r.holdsData = true) (hpresent : p.hasRegister r = true) :
    p.width? r = some p.wordBits := by
  obtain ⟨a, policy, rfl⟩ := hp
  cases r with
  | mbr => cases a <;> rfl
  | ac => cases a <;> rfl
  | mq =>
    cases a with
    | hypothetical => cases hpresent
    | ias => rfl
  | _ => cases h

theorem hasRegister_buffer : p.hasRegister mbr = true := by
  obtain ⟨a, policy, rfl⟩ := hp
  cases a <;> rfl

theorem hasRegister_accumulator : p.hasRegister ac = true := by
  obtain ⟨a, policy, rfl⟩ := hp
  cases a <;> rfl

end Profile.Registered

namespace Storage.Fits

variable {p : Profile} {s : Storage} (h : s.Fits p) (hp : p.Registered)
include h hp

/-- Registers for addresses have twelve bits on either machine. -/
theorem width_address {r : Register} (hr : r.holdsAddress = true) : s.width r = 12 := by
  rw [h.width_eq, hp.width?_address hr]
  rfl

/-- Registers for data are as wide as words, where a machine has them. -/
theorem width_data {r : Register} (hr : r.holdsData = true) (hpresent : p.hasRegister r = true) :
    s.width r = p.wordBits := by
  rw [h.width_eq, hp.width?_data hr hpresent]
  rfl

theorem width_buffer : s.width mbr = p.wordBits := h.width_data hp rfl hp.hasRegister_buffer

theorem width_accumulator : s.width ac = p.wordBits :=
  h.width_data hp rfl hp.hasRegister_accumulator

end Storage.Fits

end FetchExecute
