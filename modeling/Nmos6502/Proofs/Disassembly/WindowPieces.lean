import Nmos6502.Proofs.Disassembly.WindowCover

set_option autoImplicit false

namespace Nmos6502.Disassembly

variable {bytes : List UInt8} {before after : List Instruction}

/-- Decoding may stop where an instruction ends, and be taken up again there. -/
theorem decodeFrom_cut {address stop : Nat} (h : decodeFrom address stop bytes = before ++ after) :
    decodeFrom address (address + (before.flatMap Instruction.bytes).length) bytes = before ∧
      decodeFrom (address + (before.flatMap Instruction.bytes).length) stop
        (bytes.drop (before.flatMap Instruction.bytes).length) = after := by
  induction before generalizing address bytes with
  | nil => exact ⟨decodeFrom_eq_nil_iff.mpr (Nat.le_refl _), h⟩
  | cons first before ih =>
    rw [decodeFrom] at h
    split at h
    · obtain ⟨rfl, hrest⟩ := List.cons.inj h
      have hlength := Instruction.decode_bytes_length bytes (UInt16.ofNat address)
      have hpos := (Instruction.decode bytes (UInt16.ofNat address)).size_pos
      obtain ⟨hfront, hback⟩ := ih hrest
      rw [List.flatMap_cons, List.length_append, hlength, ← Nat.add_assoc, ← List.drop_drop]
      refine ⟨?_, hback⟩
      rw [decodeFrom, if_pos (by omega)]
      exact congrArg _ hfront
    · cases h

theorem length_flatMap_bytes_pos {address stop : Nat} (hsome : before ≠ [])
    (h : decodeFrom address stop bytes = before ++ after) :
    0 < (before.flatMap Instruction.bytes).length := by
  obtain ⟨first, rest, rfl⟩ := List.exists_cons_of_ne_nil hsome
  rw [List.flatMap_cons, List.length_append]
  exact Nat.add_pos_left (Nat.succ_pos _) _

namespace Window

variable {window : Window} {length : Nat} {cut : UInt16}

theorem stopAt_cut (hbehind : window.startAt length < cut.toNat)
    (hinside : cut.toNat ≤ window.bufferEnd length) :
    { window with stop := some cut }.stopAt length = cut.toNat :=
  if_pos ⟨hbehind, hinside⟩

theorem startAt_cut (hbehind : window.startAt length < cut.toNat)
    (hinside : cut.toNat ≤ window.bufferEnd length) :
    { window with start := some cut }.startAt length = cut.toNat := by
  have hbase := window.base_le_startAt length
  have hmoved : { window with start := some cut }.startAt length =
      min (max cut.toNat window.base.toNat) (window.bufferEnd length) := rfl
  omega

theorem stopAt_behind_cut (hbehind : window.startAt length < cut.toNat)
    (hinside : cut.toNat < window.stopAt length) :
    { window with start := some cut }.stopAt length = window.stopAt length := by
  have hstart := startAt_cut hbehind
    (Nat.le_of_lt (Nat.lt_of_lt_of_le hinside (window.stopAt_le_bufferEnd length)))
  rw [stopAt_eq_elim] at hinside
  rw [stopAt_eq_elim, stopAt_eq_elim, hstart]
  dsimp only
  cases hstop : window.stop with
  | none => rfl
  | some stop =>
    rw [hstop, Option.elim_some] at hinside
    rw [Option.elim_some]
    split at hinside
    · rename_i hcounts
      rw [Option.elim_some, if_pos hcounts, if_pos ⟨hinside, hcounts.2⟩]
    · rename_i hignored
      rw [Option.elim_some, if_neg hignored, if_neg (by omega)]

/-- The windows between cuts in a window. -/
def pieces (window : Window) : List UInt16 → List Window
  | [] => [window]
  | cut :: cuts => { window with stop := some cut } :: pieces { window with start := some cut } cuts

end Window

/-- A listing is cut in two at the address of any of its instructions but the first. -/
theorem listing_cut {window : Window} {instruction : Instruction}
    (hfits : window.base.toNat + bytes.length ≤ 65536) (hsome : before ≠ [])
    (h : listing bytes window = before ++ instruction :: after) :
    listing bytes { window with stop := some instruction.address } = before ∧
      listing bytes { window with start := some instruction.address } = instruction :: after := by
  rw [listing_eq_decodeFrom] at h
  obtain ⟨haddress, hreached, -⟩ := reached_of_decodeFrom h
  have hpos := length_flatMap_bytes_pos hsome h
  have hend : window.bufferEnd bytes.length = window.base.toNat + bytes.length := rfl
  have hstop := window.stopAt_le_bufferEnd bytes.length
  have hbase := window.base_le_startAt bytes.length
  have hcut : instruction.address.toNat =
      window.startAt bytes.length + (before.flatMap Instruction.bytes).length := by
    rw [haddress, UInt16.toNat_ofNat']
    exact Nat.mod_eq_of_lt (by omega)
  have hbehind : window.startAt bytes.length < instruction.address.toNat := by omega
  have hinside : instruction.address.toNat < window.stopAt bytes.length := by omega
  obtain ⟨hfront, hback⟩ := decodeFrom_cut h
  constructor
  · rw [listing_eq_decodeFrom, Window.stopAt_cut hbehind (by omega), hcut]
    exact hfront
  · have hdrop : instruction.address.toNat - window.base.toNat =
        window.startAt bytes.length - window.base.toNat +
          (before.flatMap Instruction.bytes).length := by
      omega
    rw [listing_eq_decodeFrom, Window.startAt_cut hbehind (by omega),
      Window.stopAt_behind_cut hbehind hinside]
    dsimp only
    rw [hdrop, hcut, ← List.drop_drop]
    exact hback

theorem flatMap_listing_pieces {window : Window}
    (hfits : window.base.toNat + bytes.length ≤ 65536) {cuts : List Instruction}
    (hcuts : cuts.Sublist (listing bytes window).tail) :
    (window.pieces (cuts.map Instruction.address)).flatMap (listing bytes) =
      listing bytes window := by
  induction cuts generalizing window with
  | nil => exact List.flatMap_singleton ..
  | cons cut cuts ih =>
    obtain ⟨front, rest, htail, hcut, hrest⟩ := List.cons_sublist_iff.mp hcuts
    obtain ⟨before, between, rfl⟩ := List.append_of_mem hcut
    obtain ⟨first, hshown⟩ : ∃ first,
        listing bytes window = (first :: before) ++ cut :: (between ++ rest) := by
      cases hlisting : listing bytes window with
      | nil => simp [hlisting] at htail
      | cons first others => exact ⟨first, by simpa [hlisting] using htail⟩
    obtain ⟨hfront, hback⟩ := listing_cut hfits (List.cons_ne_nil first before) hshown
    have hbehind := @ih { window with start := some cut.address } hfits (by
      rw [hback]
      exact hrest.trans (List.sublist_append_right ..))
    rw [List.map_cons, Window.pieces, List.flatMap_cons, hfront, hbehind, hback, hshown]

/-- A listing is put together from the listings of the parts between some of its instructions, be
it one other than the first that the window is cut at, or any number of them in order. -/
theorem listing_in_pieces (bytes : List UInt8) (window : Window)
    (hfits : window.base.toNat + bytes.length ≤ 65536) :
    (∀ cut ∈ (listing bytes window).tail,
      listing bytes window =
        listing bytes { window with stop := some cut.address } ++
          listing bytes { window with start := some cut.address }) ∧
    ∀ cuts : List Instruction, cuts.Sublist (listing bytes window).tail →
      (window.pieces (cuts.map Instruction.address)).flatMap (listing bytes) =
        listing bytes window := by
  refine ⟨fun cut hcut => ?_, fun cuts hcuts => flatMap_listing_pieces hfits hcuts⟩
  have hpieces := flatMap_listing_pieces hfits (List.singleton_sublist.mpr hcut)
  simpa [Window.pieces] using hpieces.symm

theorem listing_in_pieces_clamped :
    let bytes : List UInt8 := [0xA9, 0x01, 0x8D, 0x00, 0x02, 0xEA]
    let window : Window := { base := 0xFFFA, start := some 0x10, stop := some 0x20 }
    window.base.toNat + bytes.length ≤ 65536 ∧
      (listing bytes window).tail.map Instruction.address = [0xFFFC, 0xFFFF] ∧
      (window.pieces [0xFFFC, 0xFFFF]).flatMap (listing bytes) = listing bytes window := by
  intro bytes window
  have hfits : window.base.toNat + bytes.length ≤ 65536 := by decide
  have haddresses : (listing bytes window).tail.map Instruction.address = [0xFFFC, 0xFFFF] := by
    decide +kernel
  refine ⟨hfits, haddresses, ?_⟩
  rw [← haddresses]
  exact (listing_in_pieces bytes window hfits).2 _ (List.Sublist.refl _)

end Nmos6502.Disassembly
