import Nmos6502.Proofs.Disassembly.Decoding

set_option autoImplicit false

namespace Nmos6502.Disassembly

namespace Window

variable (window : Window) (length : Nat)

theorem startAt_eq_elim :
    window.startAt length = window.start.elim window.base.toNat fun address =>
      max window.base.toNat (min address.toNat (window.base.toNat + length)) := by
  unfold startAt bufferEnd
  cases window.start with
  | none => rfl
  | some address =>
    simp only [Option.elim_some]
    omega

theorem stopAt_eq_elim :
    window.stopAt length = window.stop.elim (window.base.toNat + length) fun address =>
      if window.startAt length < address.toNat ∧ address.toNat ≤ window.base.toNat + length then
        address.toNat
      else window.base.toNat + length := by
  unfold stopAt bufferEnd
  cases window.stop <;> rfl

theorem base_le_startAt : window.base.toNat ≤ window.startAt length := by
  unfold startAt bufferEnd
  split <;> omega

theorem startAt_le_bufferEnd : window.startAt length ≤ window.bufferEnd length := by
  unfold startAt bufferEnd
  split <;> omega

theorem startAt_le_stopAt : window.startAt length ≤ window.stopAt length := by
  have hend := window.startAt_le_bufferEnd length
  unfold stopAt
  split
  · exact hend
  · split <;> omega

theorem stopAt_le_bufferEnd : window.stopAt length ≤ window.bufferEnd length := by
  unfold stopAt
  split
  · exact Nat.le_refl _
  · split <;> omega

theorem stopAt_le_startAt_iff :
    window.stopAt length ≤ window.startAt length ↔
      window.startAt length = window.bufferEnd length := by
  have hend := window.startAt_le_bufferEnd length
  unfold stopAt
  split
  · omega
  · split <;> omega

end Window

theorem listing_eq_decodeFrom (bytes : List UInt8) (window : Window) :
    listing bytes window =
      decodeFrom (window.startAt bytes.length) (window.stopAt bytes.length)
        (bytes.drop (window.startAt bytes.length - window.base.toNat)) := by
  rw [listing, decodeOnto_toList, List.nil_append]

theorem decodeFrom_eq_nil_iff {address stop : Nat} {bytes : List UInt8} :
    decodeFrom address stop bytes = [] ↔ stop ≤ address := by
  rw [decodeFrom]
  split <;> simp <;> omega

theorem reached_of_decodeFrom {address stop : Nat} {bytes : List UInt8}
    {before after : List Instruction} {shown : Instruction}
    (h : decodeFrom address stop bytes = before ++ shown :: after) :
    shown.address = UInt16.ofNat (address + (before.flatMap Instruction.bytes).length) ∧
      address + (before.flatMap Instruction.bytes).length < stop ∧
        shown.bytes.length = shown.opcode.mode.instructionSize := by
  induction before generalizing address bytes with
  | nil =>
    rw [decodeFrom] at h
    split at h
    · rename_i hlt
      obtain ⟨rfl, -⟩ := List.cons.inj h
      exact ⟨rfl, hlt, Instruction.decode_bytes_length _ _⟩
    · cases h
  | cons first before ih =>
    rw [decodeFrom] at h
    split at h
    · obtain ⟨rfl, hrest⟩ := List.cons.inj h
      have hlength := Instruction.decode_bytes_length bytes (UInt16.ofNat address)
      rw [List.flatMap_cons, List.length_append, hlength, ← Nat.add_assoc]
      exact ih hrest
    · cases h

/-- What a listing shows of a window: consecutive instructions from its start, all of which start
before its stop, and with them every byte up to the stop and at most two more. -/
theorem listing_covers (bytes : List UInt8) (window : Window) :
    let first := window.base.toNat
    let last := first + bytes.length
    let start := window.start.elim first fun address => max first (min address.toNat last)
    let stop := window.stop.elim last fun address =>
      if start < address.toNat ∧ address.toNat ≤ last then address.toNat else last
    let shown := listing bytes window
    (first ≤ start ∧ start ≤ stop ∧ stop ≤ last) ∧
    (shown = [] ↔ start = last) ∧
    (∀ before instruction after, shown = before ++ instruction :: after →
      instruction.address = UInt16.ofNat (start + (before.flatMap Instruction.bytes).length) ∧
        start + (before.flatMap Instruction.bytes).length < stop ∧
          instruction.bytes.length = instruction.opcode.mode.instructionSize) ∧
    ∃ length, stop - start ≤ length ∧ length ≤ stop - start + 2 ∧
      shown.flatMap Instruction.bytes =
        (bytes.drop (start - first) ++ List.replicate length 0).take length := by
  intro first last start stop shown
  have hstart : start = window.startAt bytes.length := (window.startAt_eq_elim bytes.length).symm
  have hstop : stop = window.stopAt bytes.length := by
    rw [window.stopAt_eq_elim, ← hstart]
  have hshown : shown = decodeFrom start stop (bytes.drop (start - first)) := by
    rw [hstart, hstop]
    exact listing_eq_decodeFrom bytes window
  refine ⟨?_, ?_, ?_, ?_⟩
  · rw [hstart, hstop]
    exact ⟨window.base_le_startAt _, window.startAt_le_stopAt _, window.stopAt_le_bufferEnd _⟩
  · rw [hshown, decodeFrom_eq_nil_iff, hstart, hstop]
    exact window.stopAt_le_startAt_iff bytes.length
  · intro before instruction after h
    exact reached_of_decodeFrom (hshown ▸ h)
  · have hlength := length_flatMap_decodeFrom start stop (bytes.drop (start - first))
    refine ⟨_, hlength.1, hlength.2, ?_⟩
    rw [hshown, ← takePadded_eq_take]
    exact flatMap_bytes_eq_takePadded ..

theorem listing_covers_across_end :
    listing [0xEA, 0xEA, 0x4C] { base := 0xFFFE } =
        [⟨0xFFFE, 0xEA, []⟩, ⟨0xFFFF, 0xEA, []⟩] ++ ⟨0, 0x4C, [0, 0]⟩ :: [] ∧
      (0 : UInt16) = UInt16.ofNat (0xFFFE + 2) ∧
        0xFFFE + 2 < 0xFFFE + 3 := by
  have h : listing [0xEA, 0xEA, 0x4C] { base := 0xFFFE } =
      [⟨0xFFFE, 0xEA, []⟩, ⟨0xFFFF, 0xEA, []⟩] ++ ⟨0, 0x4C, [0, 0]⟩ :: [] := by
    decide +kernel
  obtain ⟨-, -, hplaced, -⟩ := listing_covers [0xEA, 0xEA, 0x4C] { base := 0xFFFE }
  obtain ⟨haddress, hbefore, -⟩ := hplaced _ _ _ h
  exact ⟨h, haddress, hbefore⟩

end Nmos6502.Disassembly
