import FetchExecute.Proofs.Commit
import FetchExecute.Proofs.Profile
import Mathlib.Data.List.DropRight

/-!
# What memory and registers recall

Memory and register files are read here as what they are after any calls at all,
failing ones among them.  A cell recalls the last of the writes to it since memory was
cleared (`Memory.Call.written`), a register the last value it was set to, each cut to
its width, and a place that has not been written recalls zero.

| call | memory | register file |
|---|---|---|
| for a place that is there | reads, keeps or checks | keeps what the register holds of the value |
| for any other place | fails and changes nothing | fails and changes nothing |
| `clear` | every place is zero | |

What one call does to a place (`Memory.get?_store`, `RegisterFile.get?_call`) is
followed through all of them by induction from the last one (`Memory.get?_after`,
`RegisterFile.get?_after`), and `stores_recall_last_writes` puts together what this
says of the next call.
-/

namespace FetchExecute

/-- A later entry is the last one at its place, and no entry elsewhere. -/
theorem lastValue?_concat {α : Type} [DecidableEq α] (place : α) (entries : List (α × Nat))
    (entry : α × Nat) :
    lastValue? place (entries ++ [entry]) =
      if entry.1 = place then some entry.2 else lastValue? place entries := by
  by_cases h : entry.1 = place
  · simp [lastValue?, List.filter_append, h]
  · simp [lastValue?, List.filter_append, h]

/-! ## Memory -/

namespace Memory

/-- What can be called on a memory. -/
inductive Call where
  | read (address : Nat)
  | write (address value : Nat)
  | check (address : Nat)
  | clear
deriving DecidableEq, Repr

namespace Call

/-- The address that a call names. -/
def address? : Call → Option Nat
  | .read address | .write address _ | .check address => some address
  | .clear => none

def entry? : Call → Option (Nat × Nat)
  | .write address value => some (address, value)
  | _ => none

/-- The writes since memory was last cleared, in order. Those that failed are for addresses that
cannot be read either. -/
def written (calls : List Call) : List (Nat × Nat) :=
  (calls.rtakeWhile (· ≠ .clear)).filterMap entry?

/-- After one more call: nothing if it clears, otherwise its entry is added at the end. -/
theorem written_concat (calls : List Call) (c : Call) :
    written (calls ++ [c]) = if c = .clear then [] else written calls ++ c.entry?.toList := by
  rw [written, List.rtakeWhile_concat]
  by_cases h : c = .clear
  · simp [h]
  · cases hentry : c.entry? <;> simp [h, written, hentry]

end Call

/-- The memory after a call, and the word that the call answers with, if it answers with one. -/
def call (m : Memory) : Call → Memory × Except Fault (Option Nat)
  | .read address => (m, (m.read address).map some)
  | .write address value => ((m.store address value).1, (m.store address value).2.map some)
  | .check address => (m, (m.check address).map fun _ ↦ none)
  | .clear => (m.clear, .ok none)

/-- The memory after a sequence of calls. -/
def after (m : Memory) (calls : List Call) : Memory := calls.foldl (fun m c ↦ (m.call c).1) m

/-- A history is opened at its last call. -/
theorem after_concat (m : Memory) (calls : List Call) (c : Call) :
    m.after (calls ++ [c]) = ((m.after calls).call c).1 := by
  rw [after, List.foldl_append]
  rfl

/-! ### One call -/

section

variable {m : Memory} {address value : Nat}

theorem store_of_lt (h : address < m.size) :
    m.store address value =
      ({ m with words := m.words.setIfInBounds address (Word.truncate m.wordBits value) },
        .ok (Word.truncate m.wordBits value)) := by
  simp only [store, write, if_pos h]

/-- A write outside memory fails with the address and the size, and changes nothing. -/
theorem store_of_le (h : m.size ≤ address) :
    m.store address value = (m, .error (.addressOutOfRange address m.size)) := by
  simp only [store, write, if_neg (Nat.not_lt_of_le h)]

theorem exists_get?_of_lt (h : address < m.size) : ∃ word, m.get? address = some word := by
  rw [← Option.ne_none_iff_exists', Ne, get?_eq_none_iff]
  exact Nat.not_le_of_lt h

/-- The equation of a write, inside memory or not: only the cell at the address changes. -/
theorem get?_store (m : Memory) (address value other : Nat) :
    (m.store address value).1.get? other =
      if other = address then (m.get? other).map fun _ ↦ Word.truncate m.wordBits value
      else m.get? other := by
  rcases Nat.lt_or_ge address m.size with hin | hout
  · have hwrite : m.write address value = .ok (m.store address value).1 :=
      write_eq_ok_iff.mpr ⟨hin, by rw [store_of_lt hin]⟩
    rw [get?_write hwrite]
    split
    · subst other
      obtain ⟨word, hword⟩ := exists_get?_of_lt hin
      rw [hword, Option.map_some]
    · rfl
  · rw [store_of_le hout]
    split
    · subst other
      rw [get?_eq_none_iff.mpr hout, Option.map_none]
    · rfl

@[simp] theorem size_call (m : Memory) (c : Call) : (m.call c).1.size = m.size := by
  cases c with
  | read address => rfl
  | check address => rfl
  | clear => exact size_zero _ _
  | write address value =>
    rcases Nat.lt_or_ge address m.size with hin | hout
    · simp [call, store_of_lt hin, size]
    · simp [call, store_of_le hout]

@[simp] theorem wordBits_call (m : Memory) (c : Call) : (m.call c).1.wordBits = m.wordBits := by
  cases c with
  | read address => rfl
  | check address => rfl
  | clear => rfl
  | write address value =>
    rcases Nat.lt_or_ge address m.size with hin | hout
    · simp [call, store_of_lt hin]
    · simp [call, store_of_le hout]

/-- A read and a write outside memory fail alike, and change nothing. -/
theorem call_of_le {c : Call} (hc : c.address? = some address) (h : m.size ≤ address) :
    m.call c = (m, .error (.addressOutOfRange address m.size)) := by
  cases c with
  | read a =>
    obtain rfl : a = address := Option.some.inj hc
    rw [call, read_of_le h, Except.map]
  | write a value =>
    obtain rfl : a = address := Option.some.inj hc
    rw [call, store_of_le h, Except.map]
  | check a =>
    obtain rfl : a = address := Option.some.inj hc
    rw [call, check_of_le h, Except.map]
  | clear => cases hc

theorem exists_call_eq_ok {c : Call} (h : ∀ address, c.address? = some address → address < m.size) :
    ∃ word, (m.call c).2 = .ok word := by
  cases c with
  | read address =>
    obtain ⟨word, hword⟩ := exists_get?_of_lt (h address rfl)
    exact ⟨some word, by rw [call, read_eq_ok_iff.mpr hword, Except.map]⟩
  | write address value => exact ⟨_, by rw [call, store_of_lt (h address rfl), Except.map]⟩
  | check address => exact ⟨none, by rw [call, check_of_lt (h address rfl), Except.map]⟩
  | clear => exact ⟨none, rfl⟩

/-- A call fails where it names an address outside memory, and nowhere else. -/
theorem call_eq_error_iff {c : Call} {fault : Fault} :
    (m.call c).2 = .error fault ↔
      ∃ address, c.address? = some address ∧ m.size ≤ address ∧
        fault = .addressOutOfRange address m.size := by
  constructor
  · intro hfault
    by_contra hnone
    obtain ⟨word, hok⟩ : ∃ word, (m.call c).2 = .ok word := by
      apply exists_call_eq_ok
      intro address hc
      by_contra hout
      have hle := Nat.le_of_not_lt hout
      rw [call_of_le hc hle] at hfault
      exact hnone ⟨address, hc, hle, (Except.error.inj hfault).symm⟩
    rw [hok] at hfault
    cases hfault
  · rintro ⟨address, hc, hle, rfl⟩
    rw [call_of_le hc hle]

end

/-! ### All calls -/

variable {size wordBits : Nat}

@[simp] theorem size_after (m : Memory) (calls : List Call) : (m.after calls).size = m.size := by
  induction calls using List.reverseRecOn with
  | nil => rfl
  | append_singleton calls c ih => rw [after_concat, size_call, ih]

@[simp] theorem wordBits_after (m : Memory) (calls : List Call) :
    (m.after calls).wordBits = m.wordBits := by
  induction calls using List.reverseRecOn with
  | nil => rfl
  | append_singleton calls c ih => rw [after_concat, wordBits_call, ih]

/-- After any calls a cell holds the last value written to it since it was cleared, cut to a word.
-/
theorem get?_after (hbits : wordBits ≤ Word.maxWidth) {address : Nat} (h : address < size)
    (calls : List Call) :
    ((zero size wordBits).after calls).get? address =
      some ((lastValue? address (Call.written calls)).getD 0 % 2 ^ wordBits) := by
  induction calls using List.reverseRecOn with
  | nil => exact (get?_zero h).trans (congrArg some (Nat.zero_mod _).symm)
  | append_singleton calls c ih =>
    rw [after_concat, Call.written_concat]
    cases c with
    | read a => simpa [call, Call.entry?] using ih
    | check a => simpa [call, Call.entry?] using ih
    | clear =>
      rw [if_pos rfl]
      show ((zero size wordBits).after calls).clear.get? address = _
      rw [clear, size_after, get?_zero (by rwa [size_zero])]
      exact congrArg some (Nat.zero_mod _).symm
    | write a value =>
      rw [if_neg (by simp)]
      show (((zero size wordBits).after calls).store a value).1.get? address = _
      rw [get?_store, ih, wordBits_after]
      show _ =
        some ((lastValue? address (Call.written calls ++ [(a, value)])).getD 0 % 2 ^ wordBits)
      rw [lastValue?_concat]
      by_cases ha : address = a
      · rw [if_pos ha, if_pos ha.symm]
        exact congrArg some (Word.truncate_eq_mod hbits value)
      · rw [if_neg ha, if_neg (Ne.symm ha)]

/-- What is recalled of these calls by a memory of `size` words of `wordBits` bits, and what it
answers to the next call. -/
structure Recalls (size wordBits : Nat) (calls : List Call) (m : Memory) : Prop where
  size_eq : m.size = size
  wordBits_eq : m.wordBits = wordBits
  fails_iff : ∀ {c : Call} {fault : Fault}, (m.call c).2 = .error fault ↔
    ∃ address, c.address? = some address ∧ size ≤ address ∧
      fault = .addressOutOfRange address size
  unchanged : ∀ {c : Call} {fault : Fault}, (m.call c).2 = .error fault → (m.call c).1 = m
  read : ∀ {address : Nat}, address < size → m.call (.read address) =
    (m, .ok (some ((lastValue? address (Call.written calls)).getD 0 % 2 ^ wordBits)))
  write : ∀ {address value : Nat}, address < size → ∃ m' word,
    m.call (.write address value) = (m', .ok (some word)) ∧
      m'.call (.read address) = (m', .ok (some word))

/-- A cleared memory recalls what any calls have written to it. -/
theorem recalls_after (hbits : wordBits ≤ Word.maxWidth) (calls : List Call) :
    ((zero size wordBits).after calls).Recalls size wordBits calls where
  size_eq := by rw [size_after, size_zero]
  wordBits_eq := wordBits_after _ calls
  fails_iff := by
    intro c fault
    rw [call_eq_error_iff, size_after, size_zero]
  unchanged := by
    intro c fault hfault
    obtain ⟨address, hc, hle, -⟩ := call_eq_error_iff.mp hfault
    rw [call_of_le hc hle]
  read := by
    intro address h
    rw [call, read_eq_ok_iff.mpr (get?_after hbits h calls), Except.map]
  write := by
    intro address value h
    have hin : address < ((zero size wordBits).after calls).size := by rwa [size_after, size_zero]
    have hget := get?_store ((zero size wordBits).after calls) address value address
    rw [if_pos rfl, get?_after hbits h, Option.map_some] at hget
    refine ⟨_, _, by rw [call, store_of_lt hin, Except.map], ?_⟩
    rw [store_of_lt hin] at hget
    rw [call, read_eq_ok_iff.mpr hget, Except.map]

end Memory

/-! ## Register files -/

namespace RegisterFile

/-- Sets a register on behalf of a machine. -/
structure Call where
  owner : Architecture
  register : Register
  value : Nat
deriving DecidableEq, Repr

def Call.entry (c : Call) : Register × Nat := (c.register, c.value)

/-- The file after a call, and the value that the register keeps. -/
def call (file : RegisterFile) (c : Call) : RegisterFile × Except Fault Nat :=
  file.store c.owner c.register c.value

def after (file : RegisterFile) (calls : List Call) : RegisterFile :=
  calls.foldl (fun file c ↦ (file.call c).1) file

/-- A history is opened at its last call. -/
theorem after_concat (file : RegisterFile) (calls : List Call) (c : Call) :
    file.after (calls ++ [c]) = ((file.after calls).call c).1 := by
  rw [after, List.foldl_append]
  rfl

/-! ### One call -/

section

variable {file : RegisterFile} {owner : Architecture} {r : Register} {value width : Nat}

theorem contains_of_width? (h : file.width? r = some width) : file.contains r = true := by
  rw [contains_eq_isSome_width?, h, Option.isSome_some]

theorem contains_eq_false_iff : file.contains r = false ↔ file.width? r = none := by
  rw [contains_eq_isSome_width?, Option.isSome_eq_false_iff, Option.isNone_iff_eq_none]

theorem get?_eq_none_iff : file.get? r = none ↔ file.width? r = none := by
  rw [get?, width?, Option.map_eq_none_iff, Option.map_eq_none_iff]

/-- A write to a register that is there returns the value that is kept. -/
theorem store_of_width? (h : file.width? r = some width) :
    file.store owner r value = (file.set r value, .ok (Word.truncate width value)) := by
  simp only [store, write, if_pos (contains_of_width? h), widthOf, h, Except.map]

/-- A write to an absent register fails with its name, and changes nothing. -/
theorem store_of_absent (h : file.contains r = false) :
    file.store owner r value = (file, .error (.registerAbsent r owner)) := by
  simp [store, write, h]

/-- There is no other fault than that a register is absent. -/
theorem call_eq_error_iff {c : Call} {fault : Fault} :
    (file.call c).2 = .error fault ↔
      file.contains c.register = false ∧ fault = .registerAbsent c.register c.owner := by
  cases hwidth : file.width? c.register with
  | none =>
    have habsent := contains_eq_false_iff.mpr hwidth
    simp [call, store_of_absent habsent, habsent, eq_comm]
  | some width => simp [call, store_of_width? hwidth, contains_of_width? hwidth]

/-- The equation of a call: only the register that it names changes. -/
theorem get?_call (file : RegisterFile) (c : Call) (r : Register) :
    (file.call c).1.get? r =
      if r = c.register then (file.width? r).map (Word.truncate · c.value) else file.get? r := by
  cases hwidth : file.width? c.register with
  | none =>
    rw [call, store_of_absent (contains_eq_false_iff.mpr hwidth)]
    split
    · subst r
      rw [hwidth, Option.map_none, get?_eq_none_iff, hwidth]
    · rfl
  | some width =>
    rw [call, store_of_width? hwidth, get?_set]
    split
    · subst r
      rfl
    · rfl

@[simp] theorem layout_call (file : RegisterFile) (c : Call) :
    (file.call c).1.layout = file.layout := by
  cases hwidth : file.width? c.register with
  | none => rw [call, store_of_absent (contains_eq_false_iff.mpr hwidth)]
  | some width => rw [call, store_of_width? hwidth, layout_set]

end

/-! ### All calls -/

variable {p : Profile} {r : Register} {width : Nat}

theorem layout_after (file : RegisterFile) (calls : List Call) :
    (file.after calls).layout = file.layout := by
  induction calls using List.reverseRecOn with
  | nil => rfl
  | append_singleton calls c ih => rw [after_concat, layout_call, ih]

theorem width?_after (p : Profile) (calls : List Call) (r : Register) :
    ((zero p).after calls).width? r = p.width? r := by
  rw [width?_eq_layout, layout_after, ← width?_eq_layout, width?_zero]

/-- After any calls a register holds the last value written to it, cut to its width. -/
theorem get?_after (hp : p.Registered) (h : p.width? r = some width) (calls : List Call) :
    ((zero p).after calls).get? r =
      some ((lastValue? r (calls.map Call.entry)).getD 0 % 2 ^ width) := by
  have hle : width ≤ Word.maxWidth := by
    obtain ⟨declared, hfind, rfl⟩ := Option.map_eq_some_iff.mp h
    exact hp.width_le declared (List.mem_of_find?_eq_some hfind)
  induction calls using List.reverseRecOn with
  | nil => exact (get?_zero h).trans (congrArg some (Nat.zero_mod _).symm)
  | append_singleton calls c ih =>
    rw [after_concat, get?_call, width?_after, h, ih, List.map_append, List.map_singleton,
      lastValue?_concat]
    by_cases hr : r = c.register
    · have hentry : c.entry.1 = r := hr.symm
      rw [if_pos hr, if_pos hentry]
      exact congrArg some (Word.truncate_eq_mod hle c.value)
    · have hentry : c.entry.1 ≠ r := Ne.symm hr
      rw [if_neg hr, if_neg hentry]

/-- The registers of the profile are there after any calls, and no others. -/
theorem contains_after (p : Profile) (calls : List Call) (r : Register) :
    ((zero p).after calls).contains r = p.hasRegister r := by
  rw [contains_eq_isSome_width?, width?_after, Profile.hasRegister_eq_isSome_width?]

/-- What is recalled of these calls by the register file of a profile, and what it answers to the
next call. -/
structure Recalls (p : Profile) (calls : List Call) (file : RegisterFile) : Prop where
  layout_eq : file.layout = p.registers
  get : ∀ r : Register, file.get? r =
    (p.width? r).map ((lastValue? r (calls.map Call.entry)).getD 0 % 2 ^ ·)
  fails_iff : ∀ {c : Call} {fault : Fault}, (file.call c).2 = .error fault ↔
    p.hasRegister c.register = false ∧ fault = .registerAbsent c.register c.owner
  unchanged : ∀ {c : Call} {fault : Fault}, (file.call c).2 = .error fault → (file.call c).1 = file
  set : ∀ {c : Call}, p.hasRegister c.register = true → ∃ file' value,
    file.call c = (file', .ok value) ∧ file'.get? c.register = some value

/-- A cleared file recalls what any calls have written to it. -/
theorem recalls_after (hp : p.Registered) (calls : List Call) :
    ((zero p).after calls).Recalls p calls where
  layout_eq := by rw [layout_after, layout_zero]
  get := by
    intro r
    cases hwidth : p.width? r with
    | none => exact get?_eq_none_iff.mpr ((width?_after p calls r).trans hwidth)
    | some width => exact get?_after hp hwidth calls
  fails_iff := by
    intro c fault
    rw [call_eq_error_iff, contains_after]
  unchanged := by
    intro c fault hfault
    rw [call, store_of_absent (call_eq_error_iff.mp hfault).1]
  set := by
    intro c hc
    obtain ⟨width, hwidth⟩ : ∃ width, p.width? c.register = some width :=
      Option.isSome_iff_exists.mp (p.hasRegister_eq_isSome_width? c.register ▸ hc)
    have hwidth' := (width?_after p calls c.register).trans hwidth
    have hget := get?_call ((zero p).after calls) c c.register
    rw [if_pos rfl, hwidth', Option.map_some] at hget
    exact ⟨_, _, store_of_width? hwidth', by rwa [call, store_of_width? hwidth'] at hget⟩

end RegisterFile

/-- Memory and register files are maps that cut what they are given.  After any calls, failing ones
included, a cell holds the last value written to it since memory was cleared, and a register the
last value it was set to, each modulo its width; a place that was not written holds zero.  A call
fails for a place that is not there and for no other, and then it changes nothing. -/
theorem stores_recall_last_writes :
    (∀ {size wordBits : Nat}, wordBits ≤ Word.maxWidth → ∀ calls,
      ((Memory.zero size wordBits).after calls).Recalls size wordBits calls) ∧
    ∀ {p : Profile}, p.Registered → ∀ calls, ((RegisterFile.zero p).after calls).Recalls p calls :=
  ⟨Memory.recalls_after, RegisterFile.recalls_after⟩

/-- Calls on a memory of three words, two of them out of range and one that clears it. -/
def Memory.clearedOnce : List Memory.Call :=
  [.write 1 33, .write 3 1, .clear, .check 7, .write 2 40, .write 2 69]

/-- Calls on a register file, one for a register that it lacks and one with a value too wide. -/
def RegisterFile.setTwice : List RegisterFile.Call :=
  [⟨.hypothetical, .ac, 1⟩, ⟨.ias, .mq, 2⟩, ⟨.ias, .ac, 2 ^ 16 + 3⟩]

theorem stores_recall_clearedOnce_setTwice :
    ∃ m file, (Memory.zero 3 5).after Memory.clearedOnce = m ∧
      (RegisterFile.zero .hypothetical).after RegisterFile.setTwice = file ∧
      m.call (.read 2) = (m, .ok (some 5)) ∧ m.call (.read 1) = (m, .ok (some 0)) ∧
      m.call (.write 3 1) = (m, .error (.addressOutOfRange 3 3)) ∧
      (∃ m' word, m.call (.write 0 37) = (m', .ok (some word)) ∧
        m'.call (.read 0) = (m', .ok (some word))) ∧
      file.get? .ac = some 3 ∧ file.get? .pc = some 0 ∧
      file.call ⟨.ias, .mq, 2⟩ = (file, .error (.registerAbsent .mq .ias)) ∧
      ∃ file' value, file.call ⟨.ias, .pc, 5⟩ = (file', .ok value) ∧
        file'.get? .pc = some value := by
  have hp : Profile.hypothetical.Registered := ⟨.hypothetical, .simplified, rfl⟩
  have hbits : 5 ≤ Word.maxWidth := by decide
  obtain ⟨hmemory, hregisters⟩ := stores_recall_last_writes
  have hm : ((Memory.zero 3 5).after Memory.clearedOnce).Recalls 3 5 Memory.clearedOnce :=
    hmemory hbits Memory.clearedOnce
  have hr := hregisters hp RegisterFile.setTwice
  have hout := hm.fails_iff (c := .write 3 1).mpr ⟨3, rfl, by decide, rfl⟩
  have habsent := hr.fails_iff (c := ⟨.ias, .mq, 2⟩).mpr ⟨by decide, rfl⟩
  exact ⟨_, _, rfl, rfl, hm.read (by decide), hm.read (by decide),
    Prod.ext (hm.unchanged hout) hout, hm.write (by decide), hr.get .ac, hr.get .pc,
    Prod.ext (hr.unchanged habsent) habsent, hr.set (by decide)⟩

end FetchExecute
