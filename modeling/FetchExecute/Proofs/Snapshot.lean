import FetchExecute.Proofs.Numeral
import FetchExecute.Proofs.Reachability

/-!
# Snapshots show the machine

A snapshot tells all there is to tell of the registers, of the units, and of the
words in the windows of the profile, and every text in it is read back as the number
that it stands for (`Snapshot.Shows`).  Texts are as long as the cells they are for,
because the values in a reachable machine fit their cells (`Storage.Fits`).

The windows are two, one of instructions and one of data, and both lie inside memory
(`Profile.Windowed`).  So no address of a window is ever passed over, and the rows of
a snapshot are the words of the windows, all of them or those other than zero
(`Snapshot.windowRows_eq`).
-/

namespace FetchExecute

/-! ## Windows -/

/-- The windows of a profile, of instructions first and of data behind it, both inside memory. -/
structure Profile.Windowed (p : Profile) : Prop where
  kinds : p.windows.map (·.kind) = [.instruction, .data]
  /-- Ascending within a window and from one to the other, so no address comes twice. -/
  ascending : (p.windows.flatMap Window.addresses).Pairwise (· < ·)
  mem_addresses : ∀ w ∈ p.windows, ∀ a, a ∈ w.addresses ↔ w.first ≤ a ∧ a ≤ w.last
  inside : ∀ w ∈ p.windows, ∀ a ∈ w.addresses, a < p.memoryWords

/-- The windows of either machine lie in memory, and apart. -/
theorem Profile.Registered.windowed {p : Profile} (hp : p.Registered) : p.Windowed where
  kinds := by
    obtain ⟨a, policy, rfl⟩ := hp
    cases a <;> rfl
  ascending := by
    obtain ⟨a, policy, rfl⟩ := hp
    cases a
    · show (hypothetical.windows.flatMap Window.addresses).Pairwise (· < ·)
      decide
    · show (ias.windows.flatMap Window.addresses).Pairwise (· < ·)
      decide
  mem_addresses := by
    intro w _ a
    rw [Window.mem_addresses, Window.contains, decide_eq_true_eq]
  inside := by
    have hlast : ∀ w ∈ p.windows, w.last < p.memoryWords := by
      obtain ⟨a, policy, rfl⟩ := hp
      cases a
      · exact (by decide : ∀ w ∈ hypothetical.windows, w.last < hypothetical.memoryWords)
      · exact (by decide : ∀ w ∈ ias.windows, w.last < ias.memoryWords)
    intro w hw a ha
    rw [Window.mem_addresses, Window.contains, decide_eq_true_eq] at ha
    exact Nat.lt_of_le_of_lt ha.2 (hlast w hw)

/-! ## Addresses -/

/-- Reads an address in the notation of the machine. -/
def Profile.readAddress? (p : Profile) (text : String) : Option Nat :=
  match p.addresses with
  | .hex _ => Numeral.ofHex? text
  | .decimal => Numeral.ofDecimal? text

/-- An address is read back from its notation, on either machine. -/
theorem Profile.readAddress?_formatAddress (p : Profile) {address : Nat}
    (h : address < Numeral.limit) : p.readAddress? (p.formatAddress address) = some address := by
  unfold readAddress? formatAddress
  cases p.addresses with
  | hex least => exact Numeral.ofHex?_hex least address
  | decimal => exact Numeral.ofDecimal?_decimal h

/-! ## Rows -/

/-- A text of `0x` and a digit for every four bits of a cell, which is read back as the value. -/
structure ShowsCell (width value : Nat) (text : String) : Prop where
  read : Numeral.ofHex? text = some value
  length : text.length = 2 + (width + 3) / 4

theorem showsCell_hexOfWidth {width value : Nat} (hwidth : 0 < width) (h : value < 2 ^ width) :
    ShowsCell width value (Numeral.hexOfWidth width value) where
  read := Numeral.ofHex?_hex _ _
  length := Numeral.length_hexOfWidth hwidth h

/-- The row shows a register of this storage. -/
structure RegisterRow.Shows (s : Storage) (row : RegisterRow) : Prop where
  name : row.name = row.register.name
  value : s.registers.get? row.register = some row.value
  text : ShowsCell row.width row.value row.text

/-- The row shows a word of this storage: instructions in hexadecimal and disassembled, data in
decimal. -/
structure MemoryRow.Shows (p : Profile) (s : Storage) (row : MemoryRow) : Prop where
  value : s.memory.get? row.address = some row.value
  address : p.readAddress? row.addressText = some row.address
  instruction : row.kind = .instruction →
    ShowsCell p.wordBits row.value row.valueText ∧ row.content = p.disassembleWord row.value
  data : row.kind = .data →
    Numeral.ofDecimal? row.valueText = some row.value ∧ row.content = row.valueText

namespace Snapshot

/-- Whether there is to be a row for the word at an address. -/
def Listed (s : Storage) (showZeros : Bool) (address : Nat) : Prop :=
  showZeros ∨ s.word address ≠ 0

instance (s : Storage) (showZeros : Bool) : DecidablePred (Listed s showZeros) :=
  fun _ ↦ inferInstanceAs (Decidable (_ ∨ _))

/-- In a window inside memory no address is passed over but for its word. -/
theorem windowRows_eq (p : Profile) {s : Storage} (showZeros : Bool) {w : Window}
    (h : ∀ a ∈ w.addresses, a < s.memory.size) :
    windowRows p s.memory showZeros w =
      (w.addresses.filter fun a ↦ Listed s showZeros a).map fun a ↦
        .ofWord p w.kind a (s.word a) := by
  rw [← List.filterMap_eq_map, List.filterMap_filter, windowRows]
  apply List.filterMap_congr
  intro a ha
  rw [Storage.memory_get?_of_lt (h a ha)]
  by_cases hlisted : Listed s showZeros a
  · rw [if_pos (decide_eq_true hlisted)]
    exact if_pos hlisted
  · rw [if_neg fun hd ↦ hlisted (of_decide_eq_true hd)]
    exact if_neg hlisted

/-- Rows for words other than zero are shown under any configuration. -/
theorem filter_windowRows (p : Profile) (memory : Memory) (showZeros : Bool)
    (w : Window) :
    (windowRows p memory showZeros w).filter (fun row ↦ row.value ≠ 0) =
      windowRows p memory false w := by
  rw [windowRows, windowRows, List.filter_filterMap]
  congr 1
  funext address
  cases memory.get? address with
  | none => rfl
  | some value =>
    by_cases hzero : value = 0
    · cases showZeros <;> simp [hzero, MemoryRow.ofWord]
    · simp [hzero, MemoryRow.ofWord]

/-- What a snapshot tells of a machine. -/
structure Shows (p : Profile) (m : Machine) (showZeros : Bool) (v : Snapshot) : Prop where
  architecture : v.architecture = p.architecture
  title : v.title = p.title
  program : v.program = m.program.name
  registers : v.registers.map (fun row ↦ (row.register, row.width)) = p.registers
  register_row : ∀ row ∈ v.registers, row.Shows m.storage
  units : v.units = [⟨.alu, m.control.alu⟩, ⟨.control, m.control.control⟩]
  memory : v.memory.map (fun row ↦ (row.kind, row.address)) =
    (p.windows.flatMap fun w ↦ w.addresses.map fun a ↦ (w.kind, a)).filter fun cell ↦
      Listed m.storage showZeros cell.2
  memory_row : ∀ row ∈ v.memory, row.Shows p m.storage
  cursor : v.cursor = m.cursor
  total : v.total = m.total
  state : v.state = m.state

end Snapshot

/-- The row of a register shows what the machine holds there. -/
theorem RegisterRow.shows_ofSlot {p : Profile} {s : Storage} (hs : s.Fits p) (hp : p.Registered)
    {slot : Slot} (hslot : slot ∈ s.registers.slots) : (ofSlot slot).Shows s where
  name := rfl
  value := by
    show s.registers.get? slot.register = _
    rw [RegisterFile.get?, RegisterFile.slot?_of_mem hs.nodup hslot]
    rfl
  text := by
    have hdeclared : (slot.register, slot.width) ∈ p.registers :=
      hs.layout ▸ List.mem_map_of_mem hslot
    exact showsCell_hexOfWidth (hp.width_pos _ hdeclared) (hs.value_lt slot hslot)

theorem MemoryRow.shows_ofWord {p : Profile} {s : Storage} (hs : s.Fits p) (hp : p.Registered)
    (kind : CellKind) {a : Nat} (ha : a < p.memoryWords) :
    (ofWord p kind a (s.word a)).Shows p s where
  value := Storage.memory_get?_of_lt (hs.size ▸ ha)
  address := by
    have hlimit : a < Numeral.limit :=
      Nat.lt_of_lt_of_le ha (Nat.le_trans hp.memoryWords_le (by decide))
    exact p.readAddress?_formatAddress hlimit
  instruction := by
    rintro rfl
    exact ⟨showsCell_hexOfWidth hp.wordBits_pos (hs.word_lt_bits a), rfl⟩
  data := by
    rintro rfl
    have hlimit : s.word a < Numeral.limit :=
      Nat.lt_of_lt_of_le (hs.word_lt_bits a) (Nat.pow_le_pow_right (by decide) hp.wordBits_le)
    exact ⟨Numeral.ofDecimal?_decimal hlimit, rfl⟩

/-! ## Machines -/

/-- Without zeros, a snapshot has the other rows of the one with them. -/
theorem Machine.filter_memory_snapshot (m : Machine) (showZeros : Bool) :
    (m.snapshot showZeros).memory.filter (fun row ↦ row.value ≠ 0) =
      (m.snapshot false).memory := by
  rw [snapshot, snapshot, List.filter_flatMap]
  congr 1
  funext w
  exact Snapshot.filter_windowRows _ _ _ _

namespace Machine.Sound

variable {p : Profile} {program : Program} {m : Machine} (h : m.Sound p program)
  (hp : p.Registered) (showZeros : Bool)
include h hp

/-- The rows of memory are made from the listed cells of each window, in order. -/
theorem memory_snapshot_eq : (m.snapshot showZeros).memory =
    p.windows.flatMap fun w ↦
      (w.addresses.filter fun a ↦ Snapshot.Listed m.storage showZeros a).map fun a ↦
        .ofWord p w.kind a (m.storage.word a) := by
  show m.profile.windows.flatMap _ = _
  rw [h.profile_eq]
  apply List.flatMap_congr
  intro w hw
  refine Snapshot.windowRows_eq p showZeros fun a ha ↦ ?_
  rw [h.fits.size]
  exact hp.windowed.inside w hw a ha

/-- A snapshot shows the machine, row by row. -/
theorem shows_snapshot : (m.snapshot showZeros).Shows p m showZeros where
  architecture := congrArg Profile.architecture h.profile_eq
  title := congrArg Profile.title h.profile_eq
  program := rfl
  registers := by
    rw [← h.fits.layout]
    exact List.map_map
  register_row := by
    intro row hrow
    obtain ⟨slot, hslot, rfl⟩ := List.mem_map.mp hrow
    exact RegisterRow.shows_ofSlot h.fits hp hslot
  units := rfl
  memory := by
    rw [h.memory_snapshot_eq hp, List.map_flatMap, List.filter_flatMap]
    congr 1
    funext w
    rw [List.map_map, List.filter_map]
    rfl
  memory_row := by
    intro row hrow
    rw [h.memory_snapshot_eq hp, List.mem_flatMap] at hrow
    obtain ⟨w, hw, hrow⟩ := hrow
    obtain ⟨a, ha, rfl⟩ := List.mem_map.mp hrow
    exact MemoryRow.shows_ofWord h.fits hp w.kind
      (hp.windowed.inside w hw a (List.mem_of_mem_filter ha))
  cursor := rfl
  total := rfl
  state := rfl

end Machine.Sound

/-- A snapshot shows the registers of the profile and the words of its windows, each with the value
that the machine has there and in a text of the right length that is read back as that value.  With
zeros it leaves no address out; without them it leaves out the words of zero and nothing else. -/
theorem snapshot_shows_machine {p : Profile} {program : Program} {m : Machine} (hp : p.Registered)
    (h : Machine.Reachable p program m) :
    p.Windowed ∧
    (∀ showZeros, (m.snapshot showZeros).Shows p m showZeros) ∧
    (m.snapshot true).memory.map (fun row ↦ row.address) = p.windows.flatMap Window.addresses ∧
    m.snapshot false =
      { m.snapshot true with
        memory := (m.snapshot true).memory.filter fun row ↦ row.value ≠ 0 } := by
  have hs := h.sound hp
  refine ⟨hp.windowed, hs.shows_snapshot hp, ?_, ?_⟩
  · rw [hs.memory_snapshot_eq hp, List.map_flatMap]
    congr 1
    funext w
    have hall : (w.addresses.filter fun a ↦ Snapshot.Listed m.storage true a) = w.addresses :=
      List.filter_eq_self.mpr fun a _ ↦ decide_eq_true (.inl rfl)
    rw [hall, List.map_map]
    exact List.map_id _
  · rw [m.filter_memory_snapshot]
    rfl

/-- The first step of the sum leaves three instructions and two operands to show. -/
theorem snapshot_shows_hypotheticalSum :
    ∃ m, Machine.load .hypothetical Catalog.hypotheticalSum = .ok m ∧
      (m.advance.1.snapshot true).Shows .hypothetical m.advance.1 true ∧
      (m.advance.1.snapshot true).memory.length = 72 ∧
      (m.advance.1.snapshot false).memory.map (fun row ↦ row.valueText) =
        ["0x1200", "0x5201", "0x2202", "5", "10"] := by
  have hp : Profile.hypothetical.Registered := ⟨.hypothetical, .simplified, rfl⟩
  have hl := Machine.load_of_validate hp (rfl : Catalog.hypotheticalSum.validate .hypothetical = _)
  obtain ⟨-, hshows, hall, -⟩ := snapshot_shows_machine hp (.advance (.load hl))
  refine ⟨_, hl, hshows true, ?_, by decide +kernel⟩
  have hlength := congrArg List.length hall
  rw [List.length_map] at hlength
  exact hlength.trans (by decide +kernel)

end FetchExecute
