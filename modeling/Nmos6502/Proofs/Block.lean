import Mathlib.Data.List.Nodup
import Nmos6502.Memory

set_option autoImplicit false

namespace Nmos6502.Memory

def block (address : UInt16) (n : Nat) : List UInt16 :=
  (List.range n).map fun i => address + UInt16.ofNat i

theorem readBytes_eq_map (memory : Memory) (address : UInt16) (n : Nat) :
    memory.readBytes address n = (block address n).map memory.read := by
  rw [block, List.map_map]
  rfl

@[simp]
theorem length_block (address : UInt16) (n : Nat) : (block address n).length = n := by
  rw [block, List.length_map, List.length_range]

@[simp]
theorem length_readBytes (memory : Memory) (address : UInt16) (n : Nat) :
    (memory.readBytes address n).length = n := by
  rw [readBytes_eq_map, List.length_map, length_block]

theorem block_add (address : UInt16) (m n : Nat) :
    block address (m + n) = block address m ++ block (address + UInt16.ofNat m) n := by
  rw [block, List.range_add, List.map_append, List.map_map]
  congr 1
  refine List.map_congr_left fun i _ => ?_
  rw [Function.comp, UInt16.ofNat_add, UInt16.add_assoc]

theorem nodup_block (address : UInt16) {n : Nat} (h : n ≤ 65536) : (block address n).Nodup := by
  refine List.Nodup.map_on (fun i hi j hj heq => ?_) List.nodup_range
  have hi := List.mem_range.mp hi
  have hj := List.mem_range.mp hj
  have hplace := congrArg UInt16.toNat ((UInt16.add_right_inj _).mp heq)
  rw [UInt16.toNat_ofNat', UInt16.toNat_ofNat'] at hplace
  omega

theorem mem_block_iff {address other : UInt16} {n : Nat} :
    other ∈ block address n ↔ ∃ i < n, address + UInt16.ofNat i = other := by
  simp [block]

theorem mem_block_iff_of_fits {address other : UInt16} {n : Nat}
    (hfits : address.toNat + n ≤ 65536) :
    other ∈ block address n ↔ address.toNat ≤ other.toNat ∧ other.toNat < address.toNat + n := by
  rw [mem_block_iff]
  constructor
  · rintro ⟨i, hi, rfl⟩
    rw [UInt16.toNat_add, UInt16.toNat_ofNat']
    omega
  · rintro ⟨hlow, hhigh⟩
    refine ⟨other.toNat - address.toNat, by omega, UInt16.toNat_inj.mp ?_⟩
    rw [UInt16.toNat_add, UInt16.toNat_ofNat']
    have hother := other.toNat_lt
    omega

end Nmos6502.Memory
