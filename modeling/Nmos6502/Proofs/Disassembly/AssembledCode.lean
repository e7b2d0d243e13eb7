import Nmos6502.Proofs.Assembly.OperandBytes
import Nmos6502.Proofs.Disassembly.Decoding

set_option autoImplicit false

namespace Nmos6502

namespace Disassembly

theorem takePadded_append {n : Nat} {operands : List UInt8} (h : operands.length = n)
    (rest : List UInt8) : takePadded n (operands ++ rest) = operands := by
  rw [takePadded_eq, List.take_left' h, Nat.sub_eq_zero_of_le, List.replicate_zero,
    List.append_nil]
  rw [List.length_append]
  omega

theorem decodeFrom_append {instruction : Instruction} {address : Nat}
    (haddress : instruction.address = UInt16.ofNat address)
    (hoperands : instruction.operands.length = instruction.opcode.mode.operandSize)
    (rest : List UInt8) :
    decodeFrom address (address + (instruction.bytes ++ rest).length) (instruction.bytes ++ rest) =
      instruction :: decodeFrom (address + instruction.bytes.length)
        (address + instruction.bytes.length + rest.length) rest := by
  have hdecode : Instruction.decode (instruction.bytes ++ rest) (UInt16.ofNat address) =
      instruction := by
    obtain ⟨place, code, operands⟩ := instruction
    obtain rfl : place = UInt16.ofNat address := haddress
    exact congrArg (Instruction.mk _ code) (takePadded_append hoperands rest)
  have hsize : instruction.size = instruction.bytes.length := congrArg (· + 1) hoperands.symm
  have hsome := instruction.size_pos
  rw [decodeFrom, if_pos (by rw [List.length_append]; omega), hdecode]
  simp only [hsize, List.drop_left, List.length_append, Nat.add_assoc]

end Disassembly

namespace Assembly

open Outcome Disassembly

def Record.isInstruction (record : Record) : Bool :=
  match record.content with
  | .instruction _ _ => true
  | _ => false

def Record.isOriginOrData (record : Record) : Bool :=
  match record.content with
  | .origin | .data _ => true
  | _ => false

/-- Whether a disassembled instruction shows what a record stands for. -/
structure Record.ShownAs (symbols : SymbolTable) (record : Record) (shown : Instruction) :
    Prop where
  address : shown.address = record.address
  length : shown.bytes.length = record.size.toNat
  mnemonic : record.operation.toList.map Char.toUpper =
    shown.opcode.mnemonic.toList.map Char.toUpper
  content : ∃ argument, record.content = .instruction shown.code argument ∧
    argument.ComesTo symbols record.endAddress shown.operands

theorem Record.exists_shownAs {record : Record} {symbols : SymbolTable} {chunk : List UInt8}
    (hinstruction : record.isInstruction = true) (hformed : record.WellFormed)
    (hencodes : record.Encodes) (hbytes : record.bytes symbols = .ok chunk) :
    ∃ shown, record.ShownAs symbols shown ∧ shown.bytes = chunk ∧
      shown.operands.length = shown.opcode.mode.operandSize := by
  unfold isInstruction at hinstruction
  cases hcontent : record.content with
  | instruction opcode argument =>
    obtain ⟨operands, rfl, hlength, hcomes⟩ :=
      exists_operands_of_bytes hcontent hformed hencodes hbytes
    have hspans := spans_bytes hformed hbytes
    simp only [Spans, hcontent] at hspans
    simp only [Encodes, hcontent] at hencodes
    refine ⟨⟨record.address, opcode, operands⟩, ⟨rfl, hspans, ?_, argument, hcontent, hcomes⟩, rfl,
      hlength⟩
    rw [Operation.map_toUpper_of_ofMnemonic? hencodes.1]
    exact ((congrArg (List.map Char.toUpper) String.toList_ofList).trans
      (Operation.map_toUpper_letters _)).symm
  | origin | label name | constant name value | data bytes => simp [hcontent] at hinstruction

theorem decodeFrom_emitted {symbols : SymbolTable} {emitted : List (Record × List UInt8)}
    {address : Nat} {stop : UInt16}
    (hleads : Leads (UInt16.ofNat address) (emitted.map Prod.fst) stop)
    (hformed : ∀ placed ∈ emitted, placed.1.WellFormed ∧ placed.1.Encodes)
    (hplain : ∀ placed ∈ emitted, placed.1.isOriginOrData = false)
    (hbytes : ∀ placed ∈ emitted, placed.1.bytes symbols = .ok placed.2) {code : List UInt8}
    (hcode : code = emitted.flatMap Prod.snd) :
    List.Forall₂ (Record.ShownAs symbols)
        ((emitted.map Prod.fst).filter Record.isInstruction)
        (decodeFrom address (address + code.length) code) ∧
      (decodeFrom address (address + code.length) code).flatMap Instruction.bytes = code := by
  induction emitted generalizing address code with
  | nil =>
    obtain rfl : code = [] := hcode
    rw [decodeFrom, if_neg (by simp)]
    exact ⟨.nil, rfl⟩
  | cons placed rest ih =>
    obtain ⟨hat, hrest⟩ := hleads
    obtain ⟨⟨hplacedFormed, hplacedEncodes⟩, hrestFormed⟩ := List.forall_mem_cons.mp hformed
    obtain ⟨hplacedPlain, hrestPlain⟩ := List.forall_mem_cons.mp hplain
    obtain ⟨hplacedBytes, hrestBytes⟩ := List.forall_mem_cons.mp hbytes
    have horigin : placed.1.content ≠ .origin := by
      intro hcontent
      simp [Record.isOriginOrData, hcontent] at hplacedPlain
    have haddress := Record.address_of_standsAt hat horigin
    have hspans := Record.spans_bytes hplacedFormed hplacedBytes
    have hsize := Record.size_of_spans hplacedFormed hspans
    rw [Record.endAddress, haddress, hsize, ← UInt16.ofNat_add] at hrest
    obtain ⟨hshown, hsame⟩ := ih hrest hrestFormed hrestPlain hrestBytes rfl
    rw [List.flatMap_cons] at hcode
    rw [List.map_cons, hcode]
    cases hinstruction : placed.1.isInstruction with
    | true =>
      obtain ⟨shown, hshows, hchunk, hoperands⟩ :=
        Record.exists_shownAs hinstruction hplacedFormed hplacedEncodes hplacedBytes
      rw [← hchunk] at hshown hsame ⊢
      rw [List.filter_cons_of_pos hinstruction,
        decodeFrom_append (hshows.address.trans haddress) hoperands]
      exact ⟨.cons hshows hshown, by rw [List.flatMap_cons, hsame]⟩
    | false =>
      have hnone : placed.2 = [] := by
        unfold Record.isInstruction at hinstruction
        unfold Record.isOriginOrData at hplacedPlain
        unfold Record.Spans at hspans
        cases hcontent : placed.1.content with
        | instruction opcode argument => simp [hcontent] at hinstruction
        | data bytes => simp [hcontent] at hplacedPlain
        | origin | label name | constant name value =>
          simpa only [hcontent] using hspans
      rw [List.filter_cons_of_neg (by simp [hinstruction])]
      simp only [hnone, List.nil_append, List.length_nil, Nat.add_zero] at hshown hsame ⊢
      exact ⟨hshown, hsame⟩

/-- Code assembled without data and origins is listed record by record, and nothing is added to it. -/
theorem listing_assembled {base : UInt16} {source : String} {program : Program}
    {output : List UInt8} (hparse : (Assembler.mk base).parse source = .ok program)
    (hplain : ∀ record ∈ program.records, record.isOriginOrData = false)
    (h : (Assembler.mk base).assemble source = .ok output) :
    List.Forall₂ (Record.ShownAs program.symbols) (program.records.filter Record.isInstruction)
        (listing output { base }) ∧
      (listing output { base }).flatMap Instruction.bytes = output := by
  obtain ⟨parsed, hparsed, hcode⟩ := bind_eq_ok_iff.mp h
  obtain rfl : program = parsed := Except.ok.inj (hparse.symm.trans hparsed)
  obtain ⟨emitted, hrecords, rfl, hbytes⟩ := exists_emitted hcode
  obtain ⟨stop, hsound⟩ := sound_of_parse hparse
  have hencodes := encodes_of_parse hparse
  rw [hrecords] at hsound hencodes hplain ⊢
  have hleads := hsound.leads
  rw [← UInt16.ofNat_toNat (x := base)] at hleads
  rw [listing_whole]
  refine decodeFrom_emitted hleads (fun placed hplaced => ?_) (fun placed hplaced => ?_) hbytes
    rfl
  · have hmem := List.mem_map_of_mem (f := Prod.fst) hplaced
    exact ⟨hsound.wellFormed _ hmem, hencodes _ hmem⟩
  · exact hplain _ (List.mem_map_of_mem hplaced)

theorem listing_assembled_across_end :
    ∃ program,
      (Assembler.mk 0xFFFE).parse "TOP: sta $10,y\nBNE TOP\nLDX #>top" = .ok program ∧
      (∀ record ∈ program.records, record.isOriginOrData = false) ∧
      (Assembler.mk 0xFFFE).assemble "TOP: sta $10,y\nBNE TOP\nLDX #>top" =
        .ok [0x99, 0x10, 0x00, 0xD0, 0xFB, 0xA2, 0xFF] ∧
      List.Forall₂ (Record.ShownAs program.symbols)
        (program.records.filter Record.isInstruction)
        (listing [0x99, 0x10, 0x00, 0xD0, 0xFB, 0xA2, 0xFF] { base := 0xFFFE }) ∧
      (listing [0x99, 0x10, 0x00, 0xD0, 0xFB, 0xA2, 0xFF] { base := 0xFFFE }).flatMap
        Instruction.bytes = [0x99, 0x10, 0x00, 0xD0, 0xFB, 0xA2, 0xFF] := by
  have hpasses : ((Assembler.mk 0xFFFE).parse "TOP: sta $10,y\nBNE TOP\nLDX #>top").map
      (fun program => (program.records.any Record.isOriginOrData, program.code)) =
        .ok (false, .ok [0x99, 0x10, 0x00, 0xD0, 0xFB, 0xA2, 0xFF]) := by
    decide +kernel
  obtain ⟨program, hparse, hpair⟩ := map_eq_ok_iff.mp hpasses
  obtain ⟨hnone, hcode⟩ := Prod.mk.inj hpair
  have hplain : ∀ record ∈ program.records, record.isOriginOrData = false := by
    simpa using hnone
  have h : (Assembler.mk 0xFFFE).assemble "TOP: sta $10,y\nBNE TOP\nLDX #>top" =
      .ok [0x99, 0x10, 0x00, 0xD0, 0xFB, 0xA2, 0xFF] :=
    bind_eq_ok_iff.mpr ⟨program, hparse, hcode⟩
  exact ⟨program, hparse, hplain, h, listing_assembled hparse hplain h⟩

end Assembly
end Nmos6502
