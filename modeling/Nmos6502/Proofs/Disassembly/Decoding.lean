import Nmos6502.Disassembly.Listing

set_option autoImplicit false

namespace Nmos6502.Disassembly

def decodeFrom (address stop : Nat) (bytes : List UInt8) : List Instruction :=
  if address < stop then
    let instruction := Instruction.decode bytes (UInt16.ofNat address)
    instruction :: decodeFrom (address + instruction.size) stop (bytes.drop instruction.size)
  else []
termination_by stop - address
decreasing_by
  have := (Instruction.decode bytes (UInt16.ofNat address)).size_pos
  omega

theorem decodeOnto_toList (done : Array Instruction) (address stop : Nat) (bytes : List UInt8) :
    (decodeOnto done address stop bytes).toList = done.toList ++ decodeFrom address stop bytes := by
  induction done, address, bytes using decodeOnto.induct stop with
  | case1 done address bytes hlt instruction ih =>
    rw [decodeOnto, decodeFrom, if_pos hlt, if_pos hlt]
    exact ih.trans (by simp [instruction])
  | case2 done address bytes hle =>
    rw [decodeOnto, decodeFrom, if_neg hle, if_neg hle, List.append_nil]

/-- Whether instructions follow one another from an address on, each with the operand bytes that its
opcode asks for. -/
def Consecutive : UInt16 → List Instruction → Prop
  | _, [] => True
  | address, instruction :: rest =>
    instruction.address = address ∧
      instruction.operands.length = instruction.opcode.mode.operandSize ∧
        Consecutive (address + UInt16.ofNat instruction.size) rest

theorem consecutive_decodeFrom (address stop : Nat) (bytes : List UInt8) :
    Consecutive (UInt16.ofNat address) (decodeFrom address stop bytes) := by
  induction address, bytes using decodeFrom.induct stop with
  | case1 address bytes hlt instruction ih =>
    rw [decodeFrom, if_pos hlt]
    refine ⟨rfl, takePadded_length _ _, ?_⟩
    rw [← UInt16.ofNat_add]
    exact ih
  | case2 address bytes hle =>
    rw [decodeFrom, if_neg hle]
    trivial

theorem takePadded_eq (n : Nat) (bytes : List UInt8) :
    takePadded n bytes = bytes.take n ++ List.replicate (n - bytes.length) 0 := by
  induction n generalizing bytes with
  | zero => simp [takePadded]
  | succ n ih => cases bytes <;> simp [takePadded, ih, List.replicate_succ]

theorem takePadded_eq_take (n : Nat) (bytes : List UInt8) :
    takePadded n bytes = (bytes ++ List.replicate n 0).take n := by
  rw [takePadded_eq, List.take_append, List.take_replicate, Nat.min_eq_left (Nat.sub_le ..)]

theorem takePadded_add (m n : Nat) (bytes : List UInt8) :
    takePadded (m + n) bytes = takePadded m bytes ++ takePadded n (bytes.drop m) := by
  induction m generalizing bytes with
  | zero => simp [takePadded]
  | succ m ih => cases bytes <;> simp [Nat.succ_add, takePadded, ih]

theorem Instruction.bytes_decode (bytes : List UInt8) (address : UInt16) :
    (decode bytes address).bytes = takePadded (decode bytes address).size bytes := by
  cases bytes <;> rfl

theorem Instruction.size_le_three (instruction : Instruction) : instruction.size ≤ 3 :=
  instruction.opcode.mode.instructionSize_le_three

theorem flatMap_bytes_eq_takePadded (address stop : Nat) (bytes : List UInt8) :
    (decodeFrom address stop bytes).flatMap Instruction.bytes =
      takePadded ((decodeFrom address stop bytes).flatMap Instruction.bytes).length bytes := by
  induction address, bytes using decodeFrom.induct stop with
  | case1 address bytes hlt instruction ih =>
    have hbytes : instruction.bytes = takePadded instruction.size bytes :=
      Instruction.bytes_decode bytes _
    rw [decodeFrom, if_pos hlt, List.flatMap_cons, List.length_append, hbytes, takePadded_length,
      takePadded_add, ← ih]
  | case2 address bytes hle =>
    rw [decodeFrom, if_neg hle]
    rfl

theorem length_flatMap_decodeFrom (address stop : Nat) (bytes : List UInt8) :
    stop - address ≤ ((decodeFrom address stop bytes).flatMap Instruction.bytes).length ∧
      ((decodeFrom address stop bytes).flatMap Instruction.bytes).length ≤ stop - address + 2 := by
  induction address, bytes using decodeFrom.induct stop with
  | case1 address bytes hlt instruction ih =>
    have hlength : instruction.bytes.length = instruction.size :=
      Instruction.decode_bytes_length bytes _
    have hpos : 1 ≤ instruction.size := instruction.size_pos
    have hsize : instruction.size ≤ 3 := instruction.size_le_three
    have hshown : decodeFrom address stop bytes = instruction ::
        decodeFrom (address + instruction.size) stop (bytes.drop instruction.size) := by
      rw [decodeFrom, if_pos hlt]
    rw [hshown, List.flatMap_cons, List.length_append, hlength]
    -- an instruction that reaches behind the stop leaves nothing to decode
    by_cases hreach : address + instruction.size < stop
    · omega
    · have hlast : decodeFrom (address + instruction.size) stop
          (bytes.drop instruction.size) = [] := by rw [decodeFrom, if_neg hreach]
      rw [hlast, List.flatMap_nil, List.length_nil]
      omega
  | case2 address bytes hle =>
    rw [decodeFrom, if_neg hle, List.flatMap_nil, List.length_nil]
    omega

section
variable (base : UInt16) (bytes : List UInt8)

theorem listing_whole :
    listing bytes { base } = decodeFrom base.toNat (base.toNat + bytes.length) bytes := by
  simp [listing, Window.startAt, Window.stopAt, Window.bufferEnd, decodeOnto_toList]

theorem consecutive_listing : Consecutive base (listing bytes { base }) := by
  have h := consecutive_decodeFrom base.toNat (base.toNat + bytes.length) bytes
  rwa [UInt16.ofNat_toNat, ← listing_whole] at h

theorem flatMap_bytes_listing :
    ∃ missing ≤ 2, (listing bytes { base }).flatMap Instruction.bytes =
      bytes ++ List.replicate missing 0 := by
  have hlength := length_flatMap_decodeFrom base.toNat (base.toNat + bytes.length) bytes
  rw [listing_whole, flatMap_bytes_eq_takePadded, takePadded_eq,
    List.take_of_length_le (by omega)]
  exact ⟨_, by omega, rfl⟩

end
end Nmos6502.Disassembly
