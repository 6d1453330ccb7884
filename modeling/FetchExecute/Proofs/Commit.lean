import FetchExecute.Proofs.Assignment

/-!
# Writes in order

Committing an effect writes one place after the other, first the word and then the
registers.  Of several writes to a place the last one counts (`lastValue?`), so all
of them together are one assignment (`Storage.putAll_eq_assign`,
`Storage.putWords_eq_assign`), and making them once more changes nothing
(`Storage.putAll_putAll`, `Storage.putWords_putWords`).

A commit breaks off where a place is not there, and what was written before stands.
`Storage.Overwritten` says what storage has become when it was given a word and some
values for registers, and `commit_applies_longest_prefix` which of those that an
effect lists it is given: nothing, if the address lies outside memory, and else the
word and all values before the first one for a register that the file lacks.
-/

namespace FetchExecute

open Assignment

/-! ## The last entry of a place -/

section

variable {α : Type} [DecidableEq α]

/-- What the last entry of a place gives it, if it has any. -/
def lastValue? (place : α) (entries : List (α × Nat)) : Option Nat :=
  (entries.filter fun entry => entry.1 = place).getLast?.map (·.2)

theorem lastValue?_cons (place : α) (entry : α × Nat) (rest : List (α × Nat)) :
    lastValue? place (entry :: rest) =
      (lastValue? place rest).or (only entry.1 entry.2 place) := by
  by_cases h : entry.1 = place
  · rw [lastValue?, lastValue?, List.filter_cons_of_pos (by simpa using h), List.getLast?_cons,
      only, if_pos h.symm]
    cases (rest.filter fun entry => entry.1 = place).getLast? <;> rfl
  · rw [lastValue?, lastValue?, List.filter_cons_of_neg (by simpa using h), only,
      if_neg (Ne.symm h), Option.or_none]

/-- Each place may cut the values that it is given in its own way. -/
theorem map_lastValue?_cons (cut : α → Nat → Nat) (place : α) (entry : α × Nat)
    (rest : List (α × Nat)) :
    (lastValue? place (entry :: rest)).map (cut place) =
      ((lastValue? place rest).map (cut place)).or (only entry.1 (cut entry.1 entry.2) place) := by
  rw [lastValue?_cons, Option.map_or]
  by_cases h : place = entry.1
  · simp [only, h]
  · simp [only, h]

end

/-! ## Writes in order as one assignment -/

theorem Word.getD_map_truncate {width : Nat} (h : width ≤ maxWidth) (value : Option Nat) :
    (value.map (truncate width)).getD 0 = value.getD 0 % 2 ^ width := by
  cases value with
  | none => exact (Nat.zero_mod _).symm
  | some v => exact truncate_eq_mod h v

theorem RegisterFile.get?_zero {p : Profile} {r : Register} {width : Nat}
    (h : p.width? r = some width) : (zero p).get? r = some 0 := by
  obtain ⟨declared, hfind, -⟩ := Option.map_eq_some_iff.mp h
  have hslot : (zero p).slot? r = some ⟨declared.1, declared.2, 0⟩ := by
    rw [slot?, zero, List.find?_map]
    exact congrArg (Option.map _) hfind
  rw [get?, hslot, Option.map_some]

/-- Of two assignments in a row, the second one comes first at each cell. -/
theorem Memory.assign_assign (m : Memory) (f g : Nat → Option Nat) :
    (m.assign f).assign g = m.assign fun address => (g address).or (f address) := by
  simp only [assign, Array.mapIdx_mapIdx]
  congr 2
  funext address word
  cases g address <;> rfl

namespace Storage

variable {s : Storage}

/-- Register writes in a row are one assignment: each register gets the last value listed for it. -/
theorem putAll_eq_assign (h : (s.registers.slots.map (·.register)).Nodup)
    (writes : List (Register × Nat)) :
    s.putAll writes = s.assign {
      register := fun r => (lastValue? r writes).map (Word.truncate (s.width r)) } := by
  induction writes generalizing s with
  | nil => exact s.assign_nothing.symm
  | cons entry rest ih =>
    have hnodup : ((s.put entry.1 entry.2).registers.slots.map (·.register)).Nodup := by
      rw [put, RegisterFile.map_register_set]
      exact h
    rw [putAll_cons, ih hnodup]
    simp only [width_put]
    rw [put_eq_assign h]
    simp only [assign, RegisterFile.assign_assign, Memory.assign_none]
    congr 2
    funext r
    exact (map_lastValue?_cons (fun r ↦ Word.truncate (s.width r)) r entry rest).symm

theorem putWords_eq_assign (s : Storage) (words : List (Nat × Nat)) :
    s.putWords words = s.assign {
      word := fun address => (lastValue? address words).map (Word.truncate s.memory.wordBits) } := by
  induction words generalizing s with
  | nil => exact s.assign_nothing.symm
  | cons entry rest ih =>
    rw [putWords_cons, ih, wordBits_putWord, putWord_eq_assign]
    simp only [assign, RegisterFile.assign_none, Memory.assign_assign]
    congr 2
    funext address
    exact (map_lastValue?_cons (fun _ ↦ Word.truncate s.memory.wordBits) address entry rest).symm

@[simp] theorem wordBits_putWords (s : Storage) (words : List (Nat × Nat)) :
    (s.putWords words).memory.wordBits = s.memory.wordBits := by
  rw [putWords_eq_assign]
  rfl

@[simp] theorem size_putWords (s : Storage) (words : List (Nat × Nat)) :
    (s.putWords words).memory.size = s.memory.size := by
  rw [putWords_eq_assign]
  simp [assign, Memory.assign, Memory.size]

/-! ### Writing a second time -/

/-- Of two writes to a register the second one counts. -/
theorem put_put (s : Storage) (r : Register) (v w : Nat) : (s.put r v).put r w = s.put r w := by
  rw [put, put, put, RegisterFile.set_set]

/-- Writes to different registers may be exchanged. -/
theorem put_comm (s : Storage) {r r' : Register} (h : r ≠ r') (v w : Nat) :
    (s.put r v).put r' w = (s.put r' w).put r v := by
  rw [put, put, put, put, RegisterFile.set_comm _ h]

/-- A write leaves no trace behind writes that have one to the same register. -/
theorem putAll_put {r : Register} {writes : List (Register × Nat)} (h : r ∈ writes.map (·.1))
    (s : Storage) (v : Nat) : (s.put r v).putAll writes = s.putAll writes := by
  induction writes generalizing s with
  | nil => cases h
  | cons entry rest ih =>
    rw [putAll_cons, putAll_cons]
    by_cases hr : r = entry.1
    · rw [hr, put_put]
    · have hrest : r ∈ rest.map (·.1) := (List.mem_cons.mp h).resolve_left hr
      rw [put_comm s hr, ih hrest]

/-- Writes leave no trace behind others that have one to each of the same registers. -/
theorem putAll_putAll_of_subset {before writes : List (Register × Nat)}
    (h : before.map (·.1) ⊆ writes.map (·.1)) (s : Storage) :
    (s.putAll before).putAll writes = s.putAll writes := by
  induction before generalizing s with
  | nil => rfl
  | cons entry rest ih =>
    obtain ⟨hfirst, hrest⟩ := List.cons_subset.mp h
    rw [putAll_cons, ih hrest, putAll_put hfirst]

theorem putAll_putAll (s : Storage) (writes : List (Register × Nat)) :
    (s.putAll writes).putAll writes = s.putAll writes :=
  putAll_putAll_of_subset (List.Subset.refl _) s

theorem putWords_putWords (s : Storage) (words : List (Nat × Nat)) :
    (s.putWords words).putWords words = s.putWords words := by
  rw [putWords_eq_assign (s.putWords words), wordBits_putWords, putWords_eq_assign]
  simp only [assign, RegisterFile.assign_none, Memory.assign_assign, Option.or_self]

/-- Registers and memory are written independently. -/
theorem putWords_putAll (s : Storage) (words : List (Nat × Nat))
    (values : List (Register × Nat)) :
    (s.putAll values).putWords words = (s.putWords words).putAll values := by
  induction values generalizing s with
  | nil => rfl
  | cons entry rest ih =>
    have hfirst : (s.put entry.1 entry.2).putWords words =
        (s.putWords words).put entry.1 entry.2 := by
      simp only [putWords_eq_assign, put, assign, RegisterFile.assign_none]
    rw [putAll_cons, ih, hfirst, putAll_cons]

end Storage

/-! ## Committing an effect -/

/-- The storage has been given this word and these values: of several values for one register the
last, and each cut to its place. All else is as it was. -/
structure Storage.Overwritten (s : Storage) (write : Option (Nat × Nat))
    (values : List (Register × Nat)) (s' : Storage) : Prop where
  layout : s'.registers.layout = s.registers.layout
  register : ∀ {before after : List (Register × Nat)} {r : Register} {v width : Nat},
    values = before ++ (r, v) :: after → (∀ entry ∈ after, entry.1 ≠ r) →
      s.registers.width? r = some width → s'.registers.get? r = some (Word.truncate width v)
  otherRegister : ∀ {r : Register}, (∀ entry ∈ values, entry.1 ≠ r) →
    s'.registers.get? r = s.registers.get? r
  size : s'.memory.size = s.memory.size
  wordBits : s'.memory.wordBits = s.memory.wordBits
  word : ∀ {address v : Nat}, write = some (address, v) →
    s'.memory.get? address = some (Word.truncate s.memory.wordBits v)
  otherWord : ∀ {address : Nat}, (∀ v, write ≠ some (address, v)) →
    s'.memory.get? address = s.memory.get? address

namespace Storage

variable {s : Storage} {owner : Architecture}

theorem layout_putAll (s : Storage) (writes : List (Register × Nat)) :
    (s.putAll writes).registers.layout = s.registers.layout := by
  induction writes generalizing s with
  | nil => rfl
  | cons entry rest ih => rw [putAll_cons, ih, put, RegisterFile.layout_set]

/-- A register holds the last value listed for it, cut to its width. -/
theorem get?_putAll_of_last {before after : List (Register × Nat)} {r : Register} {v width : Nat}
    (hlast : ∀ entry ∈ after, entry.1 ≠ r) (hwidth : s.registers.width? r = some width) :
    (s.putAll (before ++ (r, v) :: after)).registers.get? r = some (Word.truncate width v) := by
  have hcontains : (s.putAll (before ++ (r, v) :: after)).registers.contains r = true := by
    rw [contains_putAll, RegisterFile.contains_eq_isSome_width?, hwidth]
    rfl
  rw [get?_of_contains hcontains, value_putAll_append s before v hlast, Storage.width, hwidth]
  rfl

theorem get?_putAll_of_forall_ne {writes : List (Register × Nat)} {r : Register}
    (h : ∀ entry ∈ writes, entry.1 ≠ r) :
    (s.putAll writes).registers.get? r = s.registers.get? r := by
  induction writes generalizing s with
  | nil => rfl
  | cons entry rest ih =>
    rw [putAll_cons, ih fun e he ↦ h e (.tail _ he), put, RegisterFile.get?_set,
      if_neg (h entry List.mem_cons_self).symm]

/-- Writing a word and then values in order overwrites storage with them. -/
theorem overwritten_putAll {write : Option (Nat × Nat)}
    (hin : ∀ {address v : Nat}, write = some (address, v) → address < s.memory.size)
    (values : List (Register × Nat)) :
    s.Overwritten write values ((s.putWords write.toList).putAll values) where
  layout := by rw [layout_putAll, registers_putWords]
  register := by
    rintro before after r v width rfl hlast hwidth
    exact get?_putAll_of_last hlast (by rwa [registers_putWords])
  otherRegister := by
    intro r hother
    rw [get?_putAll_of_forall_ne hother, registers_putWords]
  size := by rw [memory_putAll, size_putWords]
  wordBits := by rw [memory_putAll, wordBits_putWords]
  word := by
    rintro address v rfl
    have hword : s.memory.write address v = .ok (s.putWord address v).memory :=
      Memory.write_eq_ok_iff.mpr ⟨hin rfl, rfl⟩
    rw [memory_putAll]
    exact (Memory.get?_write hword address).trans (if_pos rfl)
  otherWord := by
    intro address hother
    rw [memory_putAll]
    cases write with
    | none => rfl
    | some entry =>
      have hne : address ≠ entry.1 := by
        rintro rfl
        exact hother entry.2 rfl
      have hword : s.memory.write entry.1 entry.2 = .ok (s.putWord entry.1 entry.2).memory :=
        Memory.write_eq_ok_iff.mpr ⟨hin rfl, rfl⟩
      exact (Memory.get?_write hword address).trans (if_neg hne)

/-- To write a word and then values a second time changes nothing. -/
theorem putAll_putWords_twice (s : Storage) (words : List (Nat × Nat))
    (values : List (Register × Nat)) :
    (((s.putWords words).putAll values).putWords words).putAll values =
      (s.putWords words).putAll values := by
  rw [putWords_putAll, putAll_putAll, putWords_putWords]

/-- Values are written up to the first one for a register that the file lacks. -/
theorem writeRegisters_of_absent {before after : List (Register × Nat)} {r : Register} {v : Nat}
    (hbefore : ∀ entry ∈ before, s.registers.contains entry.1 = true)
    (hr : s.registers.contains r = false) :
    s.writeRegisters owner (before ++ (r, v) :: after) =
      (s.putAll before, .error (.registerAbsent r owner)) := by
  induction before generalizing s with
  | nil => simp [writeRegisters, RegisterFile.write, hr]
  | cons entry rest ih =>
    have hwrite : s.registers.write owner entry.1 entry.2 = .ok (s.put entry.1 entry.2).registers :=
      RegisterFile.write_eq_ok_iff.mpr ⟨hbefore entry List.mem_cons_self, rfl⟩
    have hrest : ∀ e ∈ rest, (s.put entry.1 entry.2).registers.contains e.1 = true := by
      intro e he
      rw [contains_put]
      exact hbefore e (.tail _ he)
    simp only [List.cons_append, writeRegisters, hwrite, putAll_cons]
    exact ih hrest (by rwa [contains_put])

end Storage

namespace Effect

variable {e : Effect} {s s' : Storage} {owner : Architecture}

/-- The address that the effect writes to, if any, lies in memory. -/
def InRange (e : Effect) (s : Storage) : Prop :=
  ∀ {address v : Nat}, e.memoryWrite = some (address, v) → address < s.memory.size

/-- A write outside memory is refused first, before anything has changed. -/
theorem commit_of_le {address v : Nat} (hwrite : e.memoryWrite = some (address, v))
    (hout : s.memory.size ≤ address) :
    e.commit owner s = (s, .error (.addressOutOfRange address s.memory.size)) := by
  simp only [commit, hwrite, Memory.write, if_neg (Nat.not_lt_of_le hout)]

/-- Within memory the word is written first, and the registers follow. -/
theorem commit_of_inRange (hin : e.InRange s) :
    e.commit owner s = (s.putWords e.memoryWrite.toList).writeRegisters owner e.registerWrites := by
  cases hwrite : e.memoryWrite with
  | none => simp [commit, hwrite]
  | some entry =>
    obtain ⟨address, v⟩ := entry
    have hword : s.memory.write address v = .ok (s.putWord address v).memory :=
      Memory.write_eq_ok_iff.mpr ⟨hin hwrite, rfl⟩
    simp only [commit, hwrite, hword]
    rfl

/-- With an absent register among the listed ones, the memory write and the values listed before it
stay in place. -/
theorem commit_of_absent (hin : e.InRange s) {before after : List (Register × Nat)} {r : Register}
    {v : Nat} (hvalues : e.registerWrites = before ++ (r, v) :: after)
    (hbefore : ∀ entry ∈ before, s.registers.contains entry.1 = true)
    (hr : s.registers.contains r = false) :
    e.commit owner s =
      ((s.putWords e.memoryWrite.toList).putAll before, .error (.registerAbsent r owner)) := by
  rw [commit_of_inRange hin, hvalues]
  apply Storage.writeRegisters_of_absent
  · rwa [Storage.registers_putWords]
  · rwa [Storage.registers_putWords]

theorem commit_of_contains (hin : e.InRange s)
    (hall : ∀ entry ∈ e.registerWrites, s.registers.contains entry.1 = true) :
    e.commit owner s =
      ((s.putWords e.memoryWrite.toList).putAll e.registerWrites, .ok ()) := by
  rw [commit_of_inRange hin]
  apply Storage.writeRegisters_of_contains
  rwa [Storage.registers_putWords]

/-- If a register is missing, there is a first one. -/
theorem exists_absent (h : ¬ ∀ entry ∈ e.registerWrites, s.registers.contains entry.1 = true) :
    ∃ before r v after, e.registerWrites = before ++ (r, v) :: after ∧
      (∀ entry ∈ before, s.registers.contains entry.1 = true) ∧ s.registers.contains r = false := by
  have hsome : (e.registerWrites.find? fun entry ↦ !s.registers.contains entry.1).isSome := by
    simpa using h
  obtain ⟨⟨r, v⟩, hfind⟩ := Option.isSome_iff_exists.mp hsome
  obtain ⟨hr, before, after, hvalues, hbefore⟩ := List.find?_eq_some_iff_append.mp hfind
  exact ⟨before, r, v, after, hvalues, by simpa using hbefore, by simpa using hr⟩

/-- A commit succeeds exactly if nothing is missing. -/
theorem commit_eq_ok_iff :
    (e.commit owner s).2 = .ok () ↔
      e.InRange s ∧ ∀ entry ∈ e.registerWrites, s.registers.contains entry.1 = true := by
  constructor
  · intro hok
    have hin : e.InRange s := by
      intro address v hwrite
      by_contra hout
      rw [commit_of_le hwrite (Nat.le_of_not_lt hout)] at hok
      cases hok
    refine ⟨hin, ?_⟩
    by_contra habsent
    obtain ⟨before, r, v, after, hvalues, hbefore, hr⟩ := exists_absent habsent
    rw [commit_of_absent hin hvalues hbefore hr] at hok
    cases hok
  · rintro ⟨hin, hall⟩
    rw [commit_of_contains hin hall]

/-- What a commit that succeeds leaves is known in closed form. -/
theorem commit_eq_iff :
    e.commit owner s = (s', .ok ()) ↔
      (e.InRange s ∧ ∀ entry ∈ e.registerWrites, s.registers.contains entry.1 = true) ∧
        s' = (s.putWords e.memoryWrite.toList).putAll e.registerWrites := by
  constructor
  · intro h
    obtain ⟨hin, hall⟩ := commit_eq_ok_iff.mp (congrArg Prod.snd h)
    exact ⟨⟨hin, hall⟩, congrArg Prod.fst (h.symm.trans (commit_of_contains hin hall))⟩
  · rintro ⟨⟨hin, hall⟩, rfl⟩
    exact commit_of_contains hin hall

/-- What could be committed still can be, and is there already. -/
theorem commit_of_committed (h : e.commit owner s = (s', .ok ())) (owner' : Architecture) :
    e.commit owner' s' = (s', .ok ()) := by
  obtain ⟨⟨hin, hall⟩, rfl⟩ := commit_eq_iff.mp h
  refine commit_eq_iff.mpr ⟨⟨?_, ?_⟩, (Storage.putAll_putWords_twice s _ _).symm⟩
  · intro address v hwrite
    rw [Storage.memory_putAll, Storage.size_putWords]
    exact hin hwrite
  · intro entry hentry
    rw [Storage.contains_putAll, Storage.registers_putWords]
    exact hall entry hentry

end Effect

/-- A commit takes the longest part of an effect that it can, from the front.  Where the address
lies outside memory, nothing is written.  Elsewhere the word is written and then the values for
registers, up to the first register that the file lacks; the fault names it, and the machine that
was passed.  A commit succeeds if the address and all registers are there, and to repeat it changes
nothing. -/
theorem commit_applies_longest_prefix (e : Effect) (owner : Architecture) (s : Storage) :
    (∀ {address v : Nat}, e.memoryWrite = some (address, v) → s.memory.size ≤ address →
      e.commit owner s = (s, .error (.addressOutOfRange address s.memory.size))) ∧
    (∀ {before after : List (Register × Nat)} {r : Register} {v : Nat}, e.InRange s →
      e.registerWrites = before ++ (r, v) :: after →
      (∀ entry ∈ before, s.registers.contains entry.1 = true) → s.registers.contains r = false →
      ∃ s', e.commit owner s = (s', .error (.registerAbsent r owner)) ∧
        s.Overwritten e.memoryWrite before s') ∧
    ((e.commit owner s).2 = .ok () ↔
      e.InRange s ∧ ∀ entry ∈ e.registerWrites, s.registers.contains entry.1 = true) ∧
    ∀ {s'}, e.commit owner s = (s', .ok ()) → s.Overwritten e.memoryWrite e.registerWrites s' ∧
      ∀ owner', e.commit owner' s' = (s', .ok ()) := by
  refine ⟨Effect.commit_of_le, ?_, Effect.commit_eq_ok_iff, ?_⟩
  · intro before after r v hin hvalues hbefore hr
    exact ⟨_, Effect.commit_of_absent hin hvalues hbefore hr, Storage.overwritten_putAll hin before⟩
  · intro s' h
    obtain ⟨⟨hin, -⟩, rfl⟩ := Effect.commit_eq_iff.mp h
    exact ⟨Storage.overwritten_putAll hin _, Effect.commit_of_committed h⟩

/-- Lists a word and values that are too wide, one of them for a register of one machine only. -/
def Effect.overwide : Effect where
  registerWrites := [(.ac, 1), (.mq, 2 ^ 40 + 5), (.ac, 2 ^ 40 + 6)]
  memoryWrite := some (2, 2 ^ 40 + 7)

/-- Committed to a memory that is too small, to a file that is too small, and to storage that has
room for all of it. -/
theorem commit_of_overwide :
    Effect.overwide.commit .ias ⟨.zero .ias, .zero 2 40⟩ =
      (⟨.zero .ias, .zero 2 40⟩, .error (.addressOutOfRange 2 2)) ∧
    (∃ s, Effect.overwide.commit .ias (.zero .hypothetical) =
        (s, .error (.registerAbsent .mq .ias)) ∧
      s.registers.get? .ac = some 1 ∧ s.memory.get? 2 = some 7) ∧
    ∃ s, Effect.overwide.commit .hypothetical (.zero .ias) = (s, .ok ()) ∧
      s.registers.get? .ac = some 6 ∧ s.registers.get? .mq = some 5 ∧ s.memory.get? 2 = some 7 ∧
      s.registers.get? .pc = some 0 ∧ Effect.overwide.commit .ias s = (s, .ok ()) := by
  have hwrite : Effect.overwide.memoryWrite = some (2, 2 ^ 40 + 7) := rfl
  refine ⟨?_, ?_, ?_⟩
  · obtain ⟨hout, -⟩ := commit_applies_longest_prefix .overwide .ias ⟨.zero .ias, .zero 2 40⟩
    exact hout hwrite (by decide)
  · have hin : Effect.overwide.InRange (.zero .hypothetical) := by
      rintro address v ⟨⟩
      exact Nat.lt_of_lt_of_eq (by decide : 2 < 4096) (Memory.size_zero 4096 16).symm
    have hvalues : Effect.overwide.registerWrites =
        [(.ac, 1)] ++ (.mq, 2 ^ 40 + 5) :: [(.ac, 2 ^ 40 + 6)] := rfl
    obtain ⟨-, habsent, -⟩ :=
      commit_applies_longest_prefix .overwide .ias (.zero .hypothetical)
    obtain ⟨s, hs, hgiven⟩ := habsent hin hvalues (by decide) (by decide)
    have hac : (RegisterFile.zero .hypothetical).width? .ac = some 16 := rfl
    have hlast : [(Register.ac, 1)] = [] ++ (.ac, 1) :: [] := rfl
    exact ⟨s, hs, hgiven.register hlast nofun hac, hgiven.word hwrite⟩
  · have hin : Effect.overwide.InRange (.zero .ias) := by
      rintro address v ⟨⟩
      exact Nat.lt_of_lt_of_eq (by decide : 2 < 1000) (Memory.size_zero 1000 40).symm
    obtain ⟨-, -, hiff, hok⟩ := commit_applies_longest_prefix .overwide .hypothetical (.zero .ias)
    have hsecond := hiff.mpr ⟨hin, by decide⟩
    cases hs : Effect.overwide.commit .hypothetical (.zero .ias) with | mk s outcome
    rw [hs] at hsecond
    obtain rfl : outcome = .ok () := hsecond
    obtain ⟨hgiven, hagain⟩ := hok hs
    have hac : (RegisterFile.zero .ias).width? .ac = some 40 := rfl
    have hmq : (RegisterFile.zero .ias).width? .mq = some 40 := rfl
    have hlast : Effect.overwide.registerWrites =
        [(.ac, 1), (.mq, 2 ^ 40 + 5)] ++ (.ac, 2 ^ 40 + 6) :: [] := rfl
    have hmiddle : Effect.overwide.registerWrites =
        [(.ac, 1)] ++ (.mq, 2 ^ 40 + 5) :: [(.ac, 2 ^ 40 + 6)] := rfl
    exact ⟨s, rfl, hgiven.register hlast nofun hac, hgiven.register hmiddle (by decide) hmq,
      hgiven.word hwrite, hgiven.otherRegister (by decide), hagain .ias⟩

end FetchExecute
