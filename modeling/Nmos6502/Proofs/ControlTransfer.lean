import Nmos6502.Proofs.Assembly.BranchByte
import Nmos6502.Proofs.Assembly.Placement
import Nmos6502.Proofs.Cpu.ProgramCounter
import Nmos6502.Proofs.Memory.Load

set_option autoImplicit false

namespace Nmos6502

open Assembly Outcome

namespace Assembly

def Statement.isOrigin : Statement → Bool
  | origin _ _ => true
  | _ => false

namespace Layout

variable {layout after : Layout} {line : Nat}

def Unmoved (layout : Layout) : Prop := ∀ record ∈ layout.records, record.content ≠ .origin

theorem Unmoved.put {operation operand : List Char} {size : UInt16} {content : Content}
    (h : layout.Unmoved) (hcontent : content ≠ .origin) :
    (layout.put line operation operand size content).Unmoved :=
  forall_mem_put h hcontent

theorem Unmoved.executes {statement : Statement} (h : layout.Unmoved)
    (hplain : statement.isOrigin = false) (hexecutes : layout.Executes line statement after) :
    after.Unmoved := by
  cases hexecutes with
  | empty => exact h
  | origin hnumber => cases hplain
  | data hbytes => exact h.put (by simp)
  | constant hconstant => exact Unmoved.put h (by simp)
  | instruction hword hread hargument hopcode => exact h.put (by simp)

end Layout

theorem content_ne_origin {base : UInt16} {source : String} {program : Program}
    (hsource : ∀ text ∈ Text.lines source.toList,
      (SourceLine.ofText text).statement.isOrigin = false)
    (h : (Assembler.mk base).parse source = .ok program) :
    ∀ record ∈ program.records, record.content ≠ .origin := by
  obtain ⟨layout, hlines, rfl⟩ := Program.ofSource_eq_ok_iff.mp h
  have hstart : Layout.Unmoved { cursor := base } := by simp [Layout.Unmoved]
  have hunmoved : layout.Unmoved := by
    refine Layout.addLines_invariant (fun _ _ _ hbefore _ => Layout.Unmoved.put hbefore (by simp))
      (fun numbered hmem _ _ hbefore hexecutes => hbefore.executes ?_ hexecutes) hstart hlines
    exact hsource _ (List.fst_mem_of_mem_zipIdx hmem)
  exact fun record hrecord => hunmoved record (Array.mem_toList_iff.mp hrecord)

theorem Record.exists_symbol {record : Record} {symbols : SymbolTable} {chunk : List UInt8}
    {opcode : UInt8} {name : String} {use : LabelUse}
    (hcontent : record.content = .instruction opcode (.label name use))
    (hbytes : record.bytes symbols = .ok chunk) :
    ∃ symbol, symbols.lookup? name = some symbol := by
  simp only [Record.bytes, hcontent] at hbytes
  obtain ⟨value, hvalue, -⟩ := map_eq_ok_iff.mp hbytes
  obtain ⟨symbol, hlookup, -⟩ := resolve_label_eq_ok_iff.mp hvalue
  exact ⟨symbol, hlookup⟩

theorem Record.bytes_transfer {record : Record} {symbols : SymbolTable} {chunk : List UInt8}
    {opcode : UInt8} {name : String} {use : LabelUse} {symbol : Symbol} {status : Status}
    (hcontent : record.content = .instruction opcode (.label name use))
    (hformed : record.WellFormed) (hbytes : record.bytes symbols = .ok chunk)
    (hlookup : symbols.lookup? name = some symbol)
    (htransfer : (Opcode.ofByte opcode).operation.effect.transfersIn status = true) :
    ((Opcode.ofByte opcode).mode = .relative ∧ ∃ offset, chunk = [opcode, offset] ∧
        symbol.address = record.address + 2 + signExtend offset) ∨
      ((Opcode.ofByte opcode).mode = .absolute ∧
        chunk = [opcode, lowByte symbol.address, highByte symbol.address]) := by
  simp only [WellFormed, hcontent] at hformed
  obtain ⟨-, hsize, hfits⟩ := hformed
  simp only [Record.bytes, hcontent] at hbytes
  obtain ⟨value, hvalue, rfl⟩ := map_eq_ok_iff.mp hbytes
  simp only [resolve, hlookup] at hvalue
  rcases Effect.isBranch_or_isJump htransfer with hbranch | hjump
  · have hmode := (Opcode.mode_eq_relative_iff opcode).mpr hbranch
    rw [hmode] at hfits
    cases use with
    | branch =>
      obtain ⟨offset, hoffset, rfl⟩ := map_eq_ok_iff.mp hvalue
      have htarget := branchByte_eq_ok_iff.mp hoffset
      have htwo : record.size = 2 := by
        rw [hsize, Opcode.size, hmode]
        rfl
      rw [endAddress, htwo] at htarget
      exact .inl ⟨hmode, offset, by simp [operandBytes, htwo, lowByte], htarget⟩
    | absolute | byte selector => simp [Argument.Fits] at hfits
  · have hmodes := Opcode.mode_of_isJump hjump
    cases use with
    | absolute =>
      have hmode : (Opcode.ofByte opcode).mode = .absolute := by
        refine hmodes.resolve_right fun hindirect => ?_
        simp [Argument.Fits, hindirect] at hfits
      have hthree : record.size = 3 := by
        rw [hsize, Opcode.size, hmode]
        rfl
      cases hvalue
      exact .inr ⟨hmode, by simp [operandBytes, hthree]⟩
    | branch | byte selector =>
      rcases hmodes with hmode | hmode <;> simp [Argument.Fits, hmode] at hfits

end Assembly

theorem step_pc_of_chunk {M : Type} [Bus M] {cpu : Cpu M} {record : Record}
    {symbols : SymbolTable} {chunk : List UInt8} {opcode : UInt8} {name : String} {use : LabelUse}
    {symbol : Symbol} (hcontent : record.content = .instruction opcode (.label name use))
    (hformed : record.WellFormed) (hbytes : record.bytes symbols = .ok chunk)
    (hlookup : symbols.lookup? name = some symbol) (hpc : cpu.registers.pc = record.address)
    (hmemory : ∀ (i : Nat) (hi : i < chunk.length),
      Bus.read cpu.memory (record.address + UInt16.ofNat i) = chunk[i])
    (htransfer : (Opcode.ofByte opcode).operation.effect.transfersIn cpu.registers.status = true) :
    cpu.step.2.registers.pc = symbol.address := by
  rcases Record.bytes_transfer hcontent hformed hbytes hlookup htransfer with
    ⟨hmode, offset, rfl, htarget⟩ | ⟨hmode, rfl⟩
  · have hcode := hmemory 0 (by simp)
    have hoffset := hmemory 1 (by simp)
    simp only [UInt16.reduceOfNat, UInt16.add_zero, List.getElem_cons_zero, List.getElem_cons_succ]
      at hcode hoffset
    rw [Cpu.step_pc_of_transfersIn (hpc ▸ hcode) htransfer, hmode, Cpu.effectiveAddress_relative,
      hpc, hoffset, htarget]
  · have hcode := hmemory 0 (by simp)
    have hlow := hmemory 1 (by simp)
    have hhigh := hmemory 2 (by simp)
    simp only [UInt16.reduceOfNat, UInt16.add_zero, List.getElem_cons_zero, List.getElem_cons_succ]
      at hcode hlow hhigh
    rw [Cpu.step_pc_of_transfersIn (hpc ▸ hcode) htransfer, hmode, Cpu.effectiveAddress_absolute,
      hpc, hlow, hhigh, word_lowByte_highByte]

section
variable {base : UInt16} {emitted : List (Record × List UInt8)} {symbols : SymbolTable}
variable {memory loaded : Memory} (hlaid : LaidOut base emitted symbols)
variable (hplain : ∀ placed ∈ emitted, placed.1.content ≠ .origin)
variable (hload : memory.load (emitted.flatMap Prod.snd) base = .ok loaded)
include hlaid hplain

theorem address_of_split {before after : List (Record × List UInt8)}
    {placed : Record × List UInt8} (hsplit : emitted = before ++ placed :: after) :
    placed.1.address = base + UInt16.ofNat (before.flatMap Prod.snd).length := by
  refine hlaid.fromBase before placed after hsplit fun other hother => hplain other ?_
  rw [hsplit, List.append_cons]
  exact List.mem_append_left after hother

include hload

theorem read_chunk {placed : Record × List UInt8} (hplaced : placed ∈ emitted) {i : Nat}
    (hi : i < placed.2.length) :
    loaded.read (placed.1.address + UInt16.ofNat i) = placed.2[i] := by
  obtain ⟨before, after, hsplit⟩ := List.append_of_mem hplaced
  rw [hsplit, List.flatMap_append, List.flatMap_cons] at hload
  rw [address_of_split hlaid hplain hsplit]
  exact Memory.read_load_part hload hi

theorem exists_read_label {symbol : Symbol}
    (hlookup : symbols.lookup? symbol.name = some symbol) :
    ∃ before label after, emitted = before ++ label :: after ∧
      label.1.content = .label symbol.name ∧
        ∀ byte ∈ (after.flatMap Prod.snd).head?, loaded.read symbol.address = byte := by
  obtain ⟨-, label, hlabel, hname, hsame, -⟩ := (hlaid.labels symbol.name symbol).mp hlookup
  obtain ⟨before, after, hsplit⟩ := List.append_of_mem hlabel
  refine ⟨before, label, after, hsplit, hname, fun byte hbyte => ?_⟩
  have hnone : label.2 = [] := by
    simpa only [Record.Spans, hname] using (hlaid.spans label hlabel).2
  obtain ⟨others, hothers⟩ := List.head?_eq_some_iff.mp hbyte
  rw [hsplit, List.flatMap_append, List.flatMap_cons, hnone, hothers, List.nil_append,
    ← List.singleton_append] at hload
  have hread := Memory.read_load_part hload (i := 0) (by simp)
  rw [← hsame, address_of_split hlaid hplain hsplit]
  simpa using hread

end

/-- What a reference to a label comes to in loaded code. -/
structure Arrives (emitted : List (Record × List UInt8)) (loaded : Memory) (record : Record)
    (opcode : UInt8) (symbol : Symbol) : Prop where
  next : ∃ before label after, emitted = before ++ label :: after ∧
    label.1.content = .label symbol.name ∧
      ∀ byte ∈ (after.flatMap Prod.snd).head?, loaded.read symbol.address = byte
  step : ∀ cpu : Cpu Memory, cpu.memory = loaded → cpu.registers.pc = record.address →
    (Opcode.ofByte opcode).operation.effect.transfersIn cpu.registers.status = true →
      cpu.step.2.registers.pc = symbol.address

/-- In code without origins that is loaded at its base address, references to labels arrive at what
follows the label. -/
theorem label_transfer_arrives {base : UInt16} {source : String} {output : List UInt8}
    (memory : Memory)
    (hsource : ∀ text ∈ Text.lines source.toList,
      (SourceLine.ofText text).statement.isOrigin = false)
    (h : (Assembler.mk base).assemble source = .ok output)
    (hfits : base.toNat + output.length ≤ 65536) :
    ∃ program emitted loaded, (Assembler.mk base).parse source = .ok program ∧
      program.records = emitted.map Prod.fst ∧ output = emitted.flatMap Prod.snd ∧
      (∀ placed ∈ emitted, placed.1.bytes program.symbols = .ok placed.2) ∧
      memory.load output base = .ok loaded ∧
      ∀ record ∈ program.records, ∀ opcode name use,
        record.content = .instruction opcode (.label name use) →
          ∃ symbol, program.symbols.lookup? name = some symbol ∧ symbol.name = name ∧
            Arrives emitted loaded record opcode symbol := by
  obtain ⟨program, hparse, hcode⟩ := bind_eq_ok_iff.mp h
  obtain ⟨emitted, hrecords, rfl, hbytes⟩ := exists_emitted hcode
  obtain ⟨stop, hsound⟩ := sound_of_parse hparse
  obtain ⟨loaded, hload⟩ := memory.exists_load hfits
  rw [hrecords] at hsound
  have hlaid := hsound.laidOut hbytes
  have hplain : ∀ placed ∈ emitted, placed.1.content ≠ .origin := fun placed hplaced =>
    content_ne_origin hsource hparse placed.1 (hrecords ▸ List.mem_map_of_mem hplaced)
  refine ⟨program, emitted, loaded, hparse, hrecords, rfl, hbytes, hload, ?_⟩
  intro record hrecord opcode name use hcontent
  rw [hrecords] at hrecord
  obtain ⟨placed, hplaced, rfl⟩ := List.mem_map.mp hrecord
  obtain ⟨symbol, hlookup⟩ := Record.exists_symbol hcontent (hbytes placed hplaced)
  obtain ⟨rfl, -⟩ := (hlaid.labels name symbol).mp hlookup
  refine ⟨symbol, hlookup, rfl, exists_read_label hlaid hplain hload hlookup, ?_⟩
  intro cpu hloaded hpc htransfer
  refine step_pc_of_chunk hcontent (hsound.wellFormed _ (List.mem_map_of_mem hplaced))
    (hbytes placed hplaced) hlookup hpc (fun i hi => ?_) htransfer
  rw [hloaded]
  exact read_chunk hlaid hplain hload hplaced hi

theorem label_transfer_arrives_at_end :
    (∀ text ∈ Text.lines "TOP: DEX\nBNE TOP\nBEQ DONE\nJSR TOP\nDONE: JMP TOP".toList,
      (SourceLine.ofText text).statement.isOrigin = false) ∧
    (Assembler.mk 0xFFF5).assemble "TOP: DEX\nBNE TOP\nBEQ DONE\nJSR TOP\nDONE: JMP TOP" =
      .ok [0xCA, 0xD0, 0xFD, 0xF0, 0x03, 0x20, 0xF5, 0xFF, 0x4C, 0xF5, 0xFF] ∧
    ∃ program emitted loaded, (Assembler.mk 0xFFF5).parse
        "TOP: DEX\nBNE TOP\nBEQ DONE\nJSR TOP\nDONE: JMP TOP" = .ok program ∧
      program.records = emitted.map Prod.fst ∧
      [0xCA, 0xD0, 0xFD, 0xF0, 0x03, 0x20, 0xF5, 0xFF, 0x4C, 0xF5, 0xFF] =
        emitted.flatMap Prod.snd ∧
      (∀ placed ∈ emitted, placed.1.bytes program.symbols = .ok placed.2) ∧
      Memory.zero.load [0xCA, 0xD0, 0xFD, 0xF0, 0x03, 0x20, 0xF5, 0xFF, 0x4C, 0xF5, 0xFF] 0xFFF5 =
        .ok loaded ∧
      ∀ record ∈ program.records, ∀ opcode name use,
        record.content = .instruction opcode (.label name use) →
          ∃ symbol, program.symbols.lookup? name = some symbol ∧ symbol.name = name ∧
            Arrives emitted loaded record opcode symbol := by
  have hsource : ∀ text ∈ Text.lines
      "TOP: DEX\nBNE TOP\nBEQ DONE\nJSR TOP\nDONE: JMP TOP".toList,
      (SourceLine.ofText text).statement.isOrigin = false := by
    decide +kernel
  have h : (Assembler.mk 0xFFF5).assemble
      "TOP: DEX\nBNE TOP\nBEQ DONE\nJSR TOP\nDONE: JMP TOP" =
      .ok [0xCA, 0xD0, 0xFD, 0xF0, 0x03, 0x20, 0xF5, 0xFF, 0x4C, 0xF5, 0xFF] := by
    decide +kernel
  exact ⟨hsource, h, label_transfer_arrives Memory.zero hsource h (by decide)⟩

end Nmos6502
