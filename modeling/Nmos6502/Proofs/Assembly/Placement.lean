import Nmos6502.Proofs.Assembly.Records

/-!
# Where code is placed

The code of a program is made of one chunk for each record, and a record stands where the chunks in
front of it end: those from the last origin on, or from the base address on if there is none. Main
statement: `assemble_layout`.
-/

set_option autoImplicit false

namespace Nmos6502.Assembly

open Outcome

namespace Record

def Spans (record : Record) (chunk : List UInt8) : Prop :=
  match record.content with
  | .instruction _ _ => chunk.length = record.size.toNat
  | .data bytes => chunk = bytes ∧ bytes.length % 65536 = record.size.toNat
  | .origin | .label _ | .constant _ _ => chunk = []

theorem operandBytes_length (mode : AddressingMode) (value : UInt16) :
    (operandBytes (UInt16.ofNat mode.instructionSize) value).length = mode.operandSize := by
  cases mode <;> rfl

theorem spans_bytes {record : Record} {symbols : SymbolTable} {chunk : List UInt8}
    (hformed : record.WellFormed) (hbytes : record.bytes symbols = .ok chunk) :
    record.Spans chunk := by
  unfold WellFormed at hformed
  unfold bytes at hbytes
  unfold Spans
  cases hcontent : record.content with
  | instruction opcode argument =>
    simp only [hcontent] at hformed hbytes ⊢
    obtain ⟨value, -, rfl⟩ := map_eq_ok_iff.mp hbytes
    have hsmall := (Opcode.ofByte opcode).mode.instructionSize_le_three
    rw [hformed.2.1, Opcode.size, List.length_cons, operandBytes_length]
    simp only [AddressingMode.instructionSize, UInt16.toNat_ofNat'] at hsmall ⊢
    omega
  | data bytes =>
    simp only [hcontent] at hformed hbytes ⊢
    cases hbytes
    exact ⟨rfl, by simp [hformed]⟩
  | origin | label name | constant name value =>
    simp only [hcontent] at hbytes ⊢
    cases hbytes
    rfl

theorem size_of_spans {record : Record} {chunk : List UInt8} (hformed : record.WellFormed)
    (hspans : record.Spans chunk) : record.size = UInt16.ofNat chunk.length := by
  unfold WellFormed at hformed
  unfold Spans at hspans
  cases hcontent : record.content with
  | instruction opcode argument =>
    simp only [hcontent] at hspans
    rw [hspans, UInt16.ofNat_toNat]
  | data bytes =>
    simp only [hcontent] at hformed hspans
    rw [hspans.1, hformed]
  | origin | label name | constant name value =>
    simp only [hcontent] at hformed hspans
    rw [hspans, hformed]
    rfl

theorem address_of_standsAt {record : Record} {cursor : UInt16} (h : record.StandsAt cursor)
    (hplain : record.content ≠ .origin) : record.address = cursor := by
  unfold StandsAt at h
  cases hcontent : record.content with
  | origin => exact absurd hcontent hplain
  | label name | constant name value | data bytes | instruction opcode argument =>
    simpa only [hcontent] using h

end Record

/-- Between origins, the address moves on by the code that is emitted. -/
theorem leads_plain {start stop : UInt16} {emitted : List (Record × List UInt8)}
    (h : Leads start (emitted.map Prod.fst) stop)
    (hsize : ∀ placed ∈ emitted, placed.1.size = UInt16.ofNat placed.2.length)
    (hplain : ∀ placed ∈ emitted, placed.1.content ≠ .origin) :
    stop = start + UInt16.ofNat (emitted.flatMap Prod.snd).length := by
  induction emitted generalizing start with
  | nil =>
    obtain rfl : start = stop := h
    simp
  | cons placed rest ih =>
    obtain ⟨hat, hrest⟩ := h
    have haddress := Record.address_of_standsAt hat (hplain placed List.mem_cons_self)
    have hstop := ih hrest (fun other hother => hsize other (List.mem_cons_of_mem _ hother))
      fun other hother => hplain other (List.mem_cons_of_mem _ hother)
    rw [hstop, Record.endAddress, haddress, hsize placed List.mem_cons_self, List.flatMap_cons,
      List.length_append, UInt16.ofNat_add, UInt16.add_assoc]

theorem address_of_leads {start stop : UInt16} {before after : List (Record × List UInt8)}
    {placed : Record × List UInt8}
    (h : Leads start ((before ++ placed :: after).map Prod.fst) stop)
    (hsize : ∀ other ∈ before, other.1.size = UInt16.ofNat other.2.length)
    (hplain : ∀ other ∈ before ++ [placed], other.1.content ≠ .origin) :
    placed.1.address = start + UInt16.ofNat (before.flatMap Prod.snd).length := by
  rw [List.map_append, leads_append] at h
  obtain ⟨cursor, hbefore, hat, -⟩ := h
  obtain ⟨hfirst, hlast⟩ := List.forall_mem_append.mp hplain
  rw [Record.address_of_standsAt hat (hlast placed List.mem_cons_self)]
  exact leads_plain hbefore hsize hfirst

/-- How records, the chunks that they emit and the symbols lie in the address space. -/
structure LaidOut (base : UInt16) (emitted : List (Record × List UInt8)) (symbols : SymbolTable) :
    Prop where
  spans : ∀ placed ∈ emitted,
    placed.1.bytes symbols = .ok placed.2 ∧ placed.1.Spans placed.2
  named : ∀ placed ∈ emitted, placed.1.content = .origin →
    Numeral.value? placed.1.operand.toList = some placed.1.address
  /-- In front of the first origin, code is placed from the base address on. -/
  fromBase : ∀ before placed after, emitted = before ++ placed :: after →
    (∀ other ∈ before ++ [placed], other.1.content ≠ .origin) →
      placed.1.address = base + UInt16.ofNat (before.flatMap Prod.snd).length
  /-- Behind an origin, code is placed from the address of the origin on. -/
  fromOrigin : ∀ before origin between placed after,
    emitted = before ++ origin :: (between ++ placed :: after) → origin.1.content = .origin →
      (∀ other ∈ between ++ [placed], other.1.content ≠ .origin) →
        placed.1.address = origin.1.address + UInt16.ofNat (between.flatMap Prod.snd).length
  labels : ∀ name symbol, symbols.lookup? name = some symbol ↔
    symbol.name = name ∧ ∃ placed ∈ emitted, placed.1.content = .label name ∧
      placed.1.address = symbol.address ∧ placed.1.line = symbol.line
  next : ∀ before label name between placed after,
    emitted = before ++ label :: (between ++ placed :: after) → label.1.content = .label name →
      (∀ other ∈ between ++ [placed], other.1.content ≠ .origin) →
        between.flatMap Prod.snd = [] → placed.1.address = label.1.address

theorem leads_behind {base stop : UInt16} {before after : List (Record × List UInt8)}
    {placed : Record × List UInt8}
    (h : Leads base ((before ++ placed :: after).map Prod.fst) stop) (hsize : placed.1.size = 0) :
    Leads placed.1.address (after.map Prod.fst) stop := by
  rw [List.map_append, leads_append] at h
  obtain ⟨cursor, -, -, hafter⟩ := h
  rwa [Record.endAddress, hsize, UInt16.add_zero] at hafter

theorem Sound.laidOut {base stop : UInt16} {emitted : List (Record × List UInt8)}
    {symbols : SymbolTable} (h : Sound base (emitted.map Prod.fst) symbols stop)
    (hbytes : ∀ placed ∈ emitted, placed.1.bytes symbols = .ok placed.2) :
    LaidOut base emitted symbols := by
  have formed : ∀ placed ∈ emitted, placed.1.WellFormed :=
    fun placed hplaced => h.wellFormed placed.1 (List.mem_map_of_mem hplaced)
  have spans : ∀ placed ∈ emitted, placed.1.Spans placed.2 :=
    fun placed hplaced => Record.spans_bytes (formed placed hplaced) (hbytes placed hplaced)
  have sizes : ∀ placed ∈ emitted, placed.1.size = UInt16.ofNat placed.2.length :=
    fun placed hplaced => Record.size_of_spans (formed placed hplaced) (spans placed hplaced)
  refine ⟨fun placed hplaced => ⟨hbytes placed hplaced, spans placed hplaced⟩, ?_, ?_, ?_, ?_, ?_⟩
  · intro placed hplaced horigin
    obtain ⟨before, after, rfl⟩ := List.append_of_mem hplaced
    have hleads := h.leads
    rw [List.map_append, leads_append] at hleads
    obtain ⟨cursor, -, hat, -⟩ := hleads
    simpa only [Record.StandsAt, horigin] using hat
  · rintro before placed after rfl hplain
    exact address_of_leads h.leads (fun other hother => sizes other (by simp [hother])) hplain
  · rintro before origin between placed after rfl horigin hplain
    have hnone : origin.1.size = 0 := by
      simpa only [Record.WellFormed, horigin] using formed origin (by simp)
    exact address_of_leads (leads_behind h.leads hnone)
      (fun other hother => sizes other (by simp [hother])) hplain
  · intro name symbol
    rw [h.lookup?_eq_some_iff]
    simp only [List.mem_map, exists_exists_and_eq_and, Record.symbol?_eq_some_iff]
    refine and_congr_right fun hname => ?_
    rw [hname]
  · rintro before label name between placed after rfl hlabel hplain hempty
    have hnone : label.1.size = 0 := by
      simpa only [Record.WellFormed, hlabel] using formed label (by simp)
    have haddress := address_of_leads (leads_behind h.leads hnone)
      (fun other hother => sizes other (by simp [hother])) hplain
    simpa [hempty] using haddress

theorem exists_emitted {program : Program} {code : List UInt8} (h : program.code = .ok code) :
    ∃ emitted : List (Record × List UInt8), program.records = emitted.map Prod.fst ∧
      code = emitted.flatMap Prod.snd ∧
        ∀ placed ∈ emitted, placed.1.bytes program.symbols = .ok placed.2 := by
  obtain ⟨chunks, hchunks, rfl⟩ := Program.code_eq_ok_iff.mp h
  obtain ⟨hlength, hbytes⟩ := List.forall₂_iff_zip.mp hchunks
  refine ⟨program.records.zip chunks, (List.map_fst_zip (Nat.le_of_eq hlength)).symm, ?_,
    fun placed hplaced => hbytes hplaced⟩
  rw [List.flatMap_def, List.map_snd_zip (Nat.le_of_eq hlength.symm)]

/-- The output is made of one chunk for each record, each at the address of its record. -/
theorem assemble_layout {base : UInt16} {source : String} {output : List UInt8}
    (h : (Assembler.mk base).assemble source = .ok output) :
    ∃ program emitted, (Assembler.mk base).parse source = .ok program ∧
      program.records = emitted.map Prod.fst ∧ output = emitted.flatMap Prod.snd ∧
        LaidOut base emitted program.symbols := by
  obtain ⟨program, hparse, hcode⟩ := bind_eq_ok_iff.mp h
  obtain ⟨emitted, hrecords, houtput, hbytes⟩ := exists_emitted hcode
  obtain ⟨stop, hsound⟩ := sound_of_parse hparse
  exact ⟨program, emitted, hparse, hrecords, houtput, (hrecords ▸ hsound).laidOut hbytes⟩

theorem assemble_layout_across_end :
    (Assembler.mk 0xFFFE).assemble "DCB 1,2\nTOP: NOP\n*=$10\nJMP TOP" =
        .ok [0x01, 0x02, 0xEA, 0x4C, 0x00, 0x00] ∧
      ∃ program emitted,
        (Assembler.mk 0xFFFE).parse "DCB 1,2\nTOP: NOP\n*=$10\nJMP TOP" = .ok program ∧
          program.records = emitted.map Prod.fst ∧
            [0x01, 0x02, 0xEA, 0x4C, 0x00, 0x00] = emitted.flatMap Prod.snd ∧
              LaidOut 0xFFFE emitted program.symbols := by
  have h : (Assembler.mk 0xFFFE).assemble "DCB 1,2\nTOP: NOP\n*=$10\nJMP TOP" =
      .ok [0x01, 0x02, 0xEA, 0x4C, 0x00, 0x00] := by
    decide +kernel
  exact ⟨h, assemble_layout h⟩

end Nmos6502.Assembly
