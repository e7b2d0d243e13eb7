import Nmos6502.Proofs.Block
import Nmos6502.Proofs.Memory.Load

/-!
# Blocks written byte by byte

What changes many cells of memory at once is the same as bytes written one after the other. Main
statements: `load_eq_writeEach` for a block that is loaded, `performAll_eq_writeEach` for all that
is done to a memory, and `bulk_agrees_bytewise`.
-/

set_option autoImplicit false

namespace Nmos6502.Memory

theorem ext_read {memory other : Memory} (h : ∀ address, memory.read address = other.read address) :
    memory = other := by
  have hcells : memory.cells = other.cells := by
    ext i hi
    have hread := h (UInt16.ofNat i)
    have hplace : (UInt16.ofNat i).toNat = i := UInt16.toNat_ofNat_of_lt' hi
    simp only [read, Fin.getElem_fin, UInt16.toFin_val, hplace] at hread
    rw [hread]
  exact congrArg Memory.mk hcells

def writeEach (memory : Memory) (cells : List (UInt16 × UInt8)) : Memory :=
  cells.foldl (fun memory cell => memory.write cell.1 cell.2) memory

def placed (address : UInt16) (bytes : List UInt8) : List (UInt16 × UInt8) :=
  (block address bytes.length).zip bytes

variable {memory : Memory} {cells : List (UInt16 × UInt8)} {address : UInt16} {value : UInt8}
  {bytes : List UInt8}

theorem read_writeEach_of_notMem (h : address ∉ cells.map Prod.fst) :
    (memory.writeEach cells).read address = memory.read address := by
  induction cells generalizing memory with
  | nil => rfl
  | cons cell rest ih =>
    rw [List.map_cons, List.mem_cons, not_or] at h
    rw [writeEach, List.foldl_cons, ← writeEach, ih h.2, read_write_other _ _ h.1]

/-- Where no address comes twice, no byte is overwritten. -/
theorem read_writeEach_of_mem (hnodup : (cells.map Prod.fst).Nodup) (h : (address, value) ∈ cells) :
    (memory.writeEach cells).read address = value := by
  induction cells generalizing memory with
  | nil => cases h
  | cons cell rest ih =>
    obtain ⟨hapart, hnodup⟩ := List.nodup_cons.mp hnodup
    rw [writeEach, List.foldl_cons, ← writeEach]
    rcases List.mem_cons.mp h with rfl | hrest
    · rw [read_writeEach_of_notMem hapart, read_write_self]
    · exact ih hnodup hrest

theorem map_fst_placed (address : UInt16) (bytes : List UInt8) :
    (placed address bytes).map Prod.fst = block address bytes.length :=
  List.map_fst_zip (Nat.le_of_eq (length_block _ _))

theorem mem_placed {i : Nat} (hi : i < bytes.length) :
    (address + UInt16.ofNat i, bytes[i]) ∈ placed address bytes := by
  refine List.mem_iff_getElem.mpr ⟨i, by simp [placed, hi], ?_⟩
  simp [placed, block]

theorem read_placed (hlength : bytes.length ≤ 65536) {i : Nat} (hi : i < bytes.length) :
    (memory.writeEach (placed address bytes)).read (address + UInt16.ofNat i) = bytes[i] := by
  refine read_writeEach_of_mem ?_ (mem_placed hi)
  rw [map_fst_placed]
  exact nodup_block address hlength

theorem read_placed_of_notMem {other : UInt16} (h : other ∉ block address bytes.length) :
    (memory.writeEach (placed address bytes)).read other = memory.read other :=
  read_writeEach_of_notMem (by rwa [map_fst_placed])

theorem read_placed_of_outside (hfits : address.toNat + bytes.length ≤ 65536) {other : UInt16}
    (houtside : other.toNat < address.toNat ∨ address.toNat + bytes.length ≤ other.toNat) :
    (memory.writeEach (placed address bytes)).read other = memory.read other := by
  refine read_placed_of_notMem ?_
  rw [mem_block_iff_of_fits hfits]
  omega

theorem load_eq_writeEach (memory : Memory) (hfits : address.toNat + bytes.length ≤ 65536) :
    memory.load bytes address = .ok (memory.writeEach (placed address bytes)) := by
  obtain ⟨loaded, hload⟩ := exists_load memory hfits
  rw [hload]
  congr 1
  refine ext_read fun other => ?_
  by_cases hmem : other ∈ block address bytes.length
  · obtain ⟨i, hi, rfl⟩ := mem_block_iff.mp hmem
    rw [read_load hload hi, read_placed (by omega) hi]
  · rw [read_placed_of_notMem hmem]
    refine read_load_of_outside hload ?_
    rw [mem_block_iff_of_fits hfits] at hmem
    omega

theorem load_eq_error (memory : Memory) (h : 65536 < address.toNat + bytes.length) :
    memory.load bytes address = .error ⟨address, bytes.length⟩ := by
  rw [load, tryLoad_of_large memory h]
  rfl

theorem readBytes_placed (hlength : bytes.length ≤ 65536) :
    (memory.writeEach (placed address bytes)).readBytes address bytes.length = bytes := by
  refine List.ext_getElem (length_readBytes _ _ _) fun i _ hi => ?_
  simp only [readBytes, List.getElem_map, List.getElem_range]
  exact read_placed hlength hi

theorem getElem?_readBytes (memory : Memory) (address : UInt16) {count i : Nat} (hi : i < count) :
    (memory.readBytes address count)[i]? =
      some (memory.read (UInt16.ofNat ((address.toNat + i) % 65536))) := by
  have hplace : address + UInt16.ofNat i = UInt16.ofNat ((address.toNat + i) % 65536) := by
    apply UInt16.toNat_inj.mp
    rw [UInt16.toNat_add, UInt16.toNat_ofNat', UInt16.toNat_ofNat']
    omega
  rw [readBytes, List.getElem?_map, List.getElem?_range hi, ← hplace]
  rfl

theorem readWord_writeWord (memory : Memory) (address value : UInt16) :
    Bus.readWord (Bus.writeWord memory address value) address = value := by
  let written := (memory.write address (lowByte value)).write (address + 1) (highByte value)
  change word (written.read address) (written.read (address + 1)) = value
  have hapart : address ≠ address + 1 := by simp
  rw [read_write_other _ _ hapart, read_write_self, read_write_self, word_lowByte_highByte]

theorem read_writeWord_other (memory : Memory) {address other : UInt16} (value : UInt16)
    (hlow : other ≠ address) (hhigh : other ≠ address + 1) :
    (Bus.writeWord memory address value).read other = memory.read other :=
  (read_write_other _ _ hhigh).trans (read_write_other _ _ hlow)

theorem restore_eq_writeEach (memory : Memory) {image : List UInt8} (h : image.length ≤ 65536) :
    memory.restore image = .ok (memory.writeEach (placed 0 image)) :=
  load_eq_writeEach memory (by simpa using h)

theorem writeEach_placed_of_full {image : List UInt8} {other : Memory}
    (hlength : image.length = 65536)
    (himage : ∀ (address : UInt16) (hi : address.toNat < image.length),
      image[address.toNat] = other.read address) (memory : Memory) :
    memory.writeEach (placed 0 image) = other := by
  refine ext_read fun address => ?_
  have hi : address.toNat < image.length := hlength ▸ address.toNat_lt
  have hread : (memory.writeEach (placed 0 image)).read (0 + UInt16.ofNat address.toNat) =
      image[address.toNat] :=
    read_placed (Nat.le_of_eq hlength) hi
  rw [UInt16.zero_add, UInt16.ofNat_toNat] at hread
  rw [hread, himage address hi]

theorem restore_snapshot (memory later : Memory) : later.restore memory.snapshot = .ok memory := by
  have hlength : memory.snapshot.length = 65536 := Vector.length_toList
  have himage : ∀ (address : UInt16) (hi : address.toNat < memory.snapshot.length),
      memory.snapshot[address.toNat] = memory.read address := fun _ _ => rfl
  rw [restore_eq_writeEach later (Nat.le_of_eq hlength), writeEach_placed_of_full hlength himage]

theorem writeEach_zeros (memory : Memory) :
    memory.writeEach (placed 0 (List.replicate 65536 0)) = zero := by
  refine writeEach_placed_of_full List.length_replicate (fun address hi => ?_) memory
  rw [List.getElem_replicate, read, zero]
  simp

inductive Edit where
  | write (address : UInt16) (value : UInt8)
  | writeWord (address value : UInt16)
  | load (bytes : List UInt8) (address : UInt16)
  | restore (image : List UInt8)
  | clear

namespace Edit

def perform (edit : Edit) (memory : Memory) : Memory :=
  match edit with
  | write address value => memory.write address value
  | writeWord address value => Bus.writeWord memory address value
  | load bytes address => (memory.tryLoad bytes address).2
  | restore image => (memory.tryRestore image).2
  | clear => zero

/-- The bytes that an edit writes, in order: none if it is refused. -/
def writes : Edit → List (UInt16 × UInt8)
  | write address value => [(address, value)]
  | writeWord address value => placed address [lowByte value, highByte value]
  | load bytes address => if address.toNat + bytes.length ≤ 65536 then placed address bytes else []
  | restore image => if image.length ≤ 65536 then placed 0 image else []
  | clear => placed 0 (List.replicate 65536 0)

theorem perform_load (bytes : List UInt8) (address : UInt16) (memory : Memory) :
    (load bytes address).perform memory = memory.writeEach (load bytes address).writes := by
  rw [perform, writes]
  split
  · rename_i hfits
    rw [tryLoad_of_load (load_eq_writeEach memory hfits)]
  · rename_i hlarge
    rw [tryLoad_of_large memory (by omega)]
    rfl

theorem perform_eq_writeEach (edit : Edit) (memory : Memory) :
    edit.perform memory = memory.writeEach edit.writes := by
  cases edit with
  | write address value => rfl
  | writeWord address value =>
    simp [perform, writes, placed, block, writeEach, Bus.writeWord, Bus.write, List.range_succ]
  | load bytes address => exact perform_load bytes address memory
  | restore image =>
    have hload := perform_load image 0 memory
    simpa [perform, writes, Memory.tryRestore] using hload
  | clear => rw [perform, writes, writeEach_zeros]

end Edit

def performAll (edits : List Edit) (memory : Memory) : Memory :=
  edits.foldl (fun memory edit => edit.perform memory) memory

theorem performAll_eq_writeEach (edits : List Edit) (memory : Memory) :
    performAll edits memory = memory.writeEach (edits.flatMap Edit.writes) := by
  induction edits generalizing memory with
  | nil => rfl
  | cons edit rest ih =>
    rw [performAll, List.foldl_cons, ← performAll, ih, edit.perform_eq_writeEach,
      List.flatMap_cons]
    exact List.foldl_append.symm

/-- A block that fits is loaded as if its bytes were written one by one, and one that does not fit
is refused and changes nothing. Bytes and words are read back as they were written, round the end of
the address space. Whatever is done to a memory is a list of bytes that are written, and an image of
the memory from before undoes all of it, while a short image covers only the first cells. -/
theorem bulk_agrees_bytewise (memory : Memory) :
    (∀ (bytes : List UInt8) (address : UInt16),
      let written := memory.writeEach (placed address bytes)
      (address.toNat + bytes.length ≤ 65536 →
        memory.load bytes address = .ok written ∧
          memory.tryLoad bytes address = (.ok (), written) ∧
          written.readBytes address bytes.length = bytes ∧
          ∀ other : UInt16, other.toNat < address.toNat ∨
            address.toNat + bytes.length ≤ other.toNat →
              written.read other = memory.read other) ∧
      (65536 < address.toNat + bytes.length →
        memory.load bytes address = .error ⟨address, bytes.length⟩ ∧
          memory.tryLoad bytes address = (.error ⟨address, bytes.length⟩, memory) ∧
          (Edit.load bytes address).perform memory = memory)) ∧
    (∀ (address : UInt16) (count : Nat), (memory.readBytes address count).length = count ∧
      ∀ i < count, (memory.readBytes address count)[i]? =
        some (memory.read (UInt16.ofNat ((address.toNat + i) % 65536)))) ∧
    (∀ address value : UInt16,
      let written := Bus.writeWord memory address value
      Bus.readWord written address = value ∧
        ∀ other, other ≠ address → other ≠ address + 1 →
          written.read other = memory.read other) ∧
    (∀ edits : List Edit,
      performAll edits memory = memory.writeEach (edits.flatMap Edit.writes) ∧
        (performAll edits memory).restore memory.snapshot = .ok memory) ∧
    ∀ image : List UInt8, image.length ≤ 65536 →
      ∃ restored, memory.restore image = .ok restored ∧
        restored.readBytes 0 image.length = image ∧
        ∀ other : UInt16, image.length ≤ other.toNat →
          restored.read other = memory.read other := by
  refine ⟨fun bytes address => ⟨fun hfits => ?_, fun hlarge => ?_⟩,
    fun address count => ⟨length_readBytes _ _ _, fun i hi => getElem?_readBytes _ _ hi⟩,
    fun address value => ⟨readWord_writeWord _ _ _, fun other => read_writeWord_other _ _⟩,
    fun edits => ⟨performAll_eq_writeEach _ _, restore_snapshot _ _⟩, fun image hfits => ?_⟩
  · have hload := load_eq_writeEach memory hfits
    exact ⟨hload, tryLoad_of_load hload, readBytes_placed (by omega),
      fun other => read_placed_of_outside hfits⟩
  · have hrefused := tryLoad_of_large memory hlarge
    exact ⟨load_eq_error memory hlarge, hrefused, congrArg Prod.snd hrefused⟩
  · exact ⟨_, restore_eq_writeEach memory hfits, readBytes_placed hfits,
      fun other hother => read_placed_of_outside (by simpa using hfits)
        (.inr (by simpa using hother))⟩

theorem bulk_agrees_bytewise_at_end :
    let memory := zero.write 0 7
    (0xFFFE : UInt16).toNat + 2 ≤ 65536 ∧
    memory.load [1, 2] 0xFFFE = .ok (memory.writeEach [(0xFFFE, 1), (0xFFFF, 2)]) ∧
    65536 < (0xFFFE : UInt16).toNat + 3 ∧
    memory.load [1, 2, 3] 0xFFFE = .error ⟨0xFFFE, 3⟩ ∧
    memory.tryLoad [1, 2, 3] 0xFFFE = (.error ⟨0xFFFE, 3⟩, memory) ∧
    (Edit.load [1, 2, 3] 0xFFFE).perform memory = memory ∧
    65537 < 70000 ∧ (memory.readBytes 0xFFFF 70000)[65537]? = some 7 ∧
    Bus.readWord (Bus.writeWord memory 0xFFFF 0xBEEF) 0xFFFF = 0xBEEF ∧
    (1 : UInt16) ≠ 0xFFFF ∧ (1 : UInt16) ≠ 0xFFFF + 1 ∧
    (Bus.writeWord memory 0xFFFF 0xBEEF).read 1 = memory.read 1 ∧
    (performAll [.load [1, 2] 0xFFFE, .load [1, 2, 3] 0xFFFE, .clear] memory).restore
      memory.snapshot = .ok memory ∧
    [8].length ≤ 65536 ∧ ∃ restored, memory.restore [8] = .ok restored ∧
      restored.readBytes 0 1 = [8] ∧
        ∀ other : UInt16, 1 ≤ other.toNat → restored.read other = memory.read other := by
  intro memory
  obtain ⟨hload, hbytes, hwords, hedits, himages⟩ := bulk_agrees_bytewise memory
  obtain ⟨hfits, -, -⟩ := (hload [1, 2] 0xFFFE).1 (by decide)
  obtain ⟨herror, hrefused, hkept⟩ := (hload [1, 2, 3] 0xFFFE).2 (by decide)
  have hround := (hbytes 0xFFFF 70000).2 65537 (by decide)
  obtain ⟨hword, hother⟩ := hwords 0xFFFF 0xBEEF
  have hplaced : placed 0xFFFE [1, 2] = [(0xFFFE, 1), (0xFFFF, 2)] := by decide
  have hfirst : memory.read (UInt16.ofNat (((0xFFFF : UInt16).toNat + 65537) % 65536)) = 7 :=
    read_write_self zero 0 7
  rw [hplaced] at hfits
  rw [hfirst] at hround
  exact ⟨by decide, hfits, by decide, herror, hrefused, hkept, by decide, hround, hword, by decide, by decide,
    hother 1 (by decide) (by decide), (hedits _).2, by decide, himages [8] (by decide)⟩

end Nmos6502.Memory
