import Nmos6502.Memory

set_option autoImplicit false

namespace Nmos6502.Memory

variable {memory loaded : Memory} {bytes : List UInt8} {base : UInt16}

theorem exists_load (memory : Memory) (hfits : base.toNat + bytes.length ≤ 65536) :
    ∃ loaded, memory.load bytes base = .ok loaded :=
  ⟨_, by rw [load, tryLoad, dif_pos hfits]; rfl⟩

theorem tryLoad_of_large (memory : Memory) (hlarge : 65536 < base.toNat + bytes.length) :
    memory.tryLoad bytes base = (.error ⟨base, bytes.length⟩, memory) := by
  rw [tryLoad, dif_neg (by omega)]

theorem tryLoad_of_load (h : memory.load bytes base = .ok loaded) :
    memory.tryLoad bytes base = (.ok (), loaded) := by
  unfold load at h
  rcases hresult : memory.tryLoad bytes base with ⟨_ | _, after⟩
  · rw [hresult] at h
    cases h
  · rw [hresult] at h
    cases h
    rfl

theorem read_load (h : memory.load bytes base = .ok loaded) {i : Nat} (hi : i < bytes.length) :
    loaded.read (base + UInt16.ofNat i) = bytes[i] := by
  unfold load tryLoad at h
  dsimp only at h
  split at h
  · rename_i hfits
    have hbase := base.toNat_lt
    have hplace : (base + UInt16.ofNat i).toNat = base.toNat + i := by
      rw [UInt16.toNat_add, UInt16.toNat_ofNat']
      omega
    cases h
    simp only [read, Fin.getElem_fin, UInt16.toFin_val]
    have hfront : (memory.cells.toArray.extract 0 base.toNat).size = base.toNat := by
      rw [Array.size_extract, Vector.size_toArray]
      omega
    simp only [hplace, Vector.getElem_mk]
    rw [Array.getElem_append_left (by rw [Array.size_append, hfront, List.size_toArray]; omega),
      Array.getElem_append_right (by omega)]
    simp [hfront]
  · cases h

theorem read_load_of_outside (h : memory.load bytes base = .ok loaded) {other : UInt16}
    (houtside : other.toNat < base.toNat ∨ base.toNat + bytes.length ≤ other.toNat) :
    loaded.read other = memory.read other := by
  unfold load tryLoad at h
  dsimp only at h
  split at h
  · rename_i hfits
    have hbase := base.toNat_lt
    have hother := other.toNat_lt
    cases h
    simp only [read, Fin.getElem_fin, UInt16.toFin_val]
    have hfront : (memory.cells.toArray.extract 0 base.toNat).size = base.toNat := by
      rw [Array.size_extract, Vector.size_toArray]
      omega
    simp only [Vector.getElem_mk]
    rcases houtside with hbefore | hbehind
    · rw [Array.getElem_append_left (by rw [Array.size_append, hfront]; omega),
        Array.getElem_append_left (by omega)]
      simp
    · rw [Array.getElem_append_right (by rw [Array.size_append, hfront, List.size_toArray]; omega)]
      simp [hfront, hbehind]
  · cases h

theorem read_load_part {before part after : List UInt8}
    (h : memory.load (before ++ (part ++ after)) base = .ok loaded) {i : Nat}
    (hi : i < part.length) :
    loaded.read (base + UInt16.ofNat before.length + UInt16.ofNat i) = part[i] := by
  have hplace : before.length + i < (before ++ (part ++ after)).length := by
    simp only [List.length_append]
    omega
  have hread := read_load h hplace
  rw [UInt16.ofNat_add, ← UInt16.add_assoc] at hread
  rw [hread, List.getElem_append_right (Nat.le_add_right _ _), List.getElem_append_left (by omega)]
  simp

end Nmos6502.Memory
