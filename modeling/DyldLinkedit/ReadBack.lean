import DyldLinkedit.SymbolTable

/-!
# Reading the output's symbol table back

A reader of the output finds each symbol range through `LC_DYSYMTAB`: `ilocalsym` and
`nlocalsym`, `iextdefsym` and `nextdefsym`, `iundefsym` and `nundefsym`, each index a slot of
the new symbol table at the rewritten `symoff`, each name read from the new string table.

A range pass stores its two fields only when it copied something. The extdef and undef
ranges it copied nothing to keep fields that still describe an empty range, so both read
back as the copies the passes made. The local range reads back as the public locals and the
recovered locals whenever some local was copied or the image had no local range; otherwise
it keeps the stale count of the image.
-/

set_option autoImplicit false

namespace DyldLinkedit.ReadBack
open DyldLinkedit.Memory DyldLinkedit.MachO DyldLinkedit.Tracker DyldLinkedit.Strings
  DyldLinkedit.Optimizer DyldLinkedit.Layout DyldLinkedit.Commands DyldLinkedit.Pipeline
  DyldLinkedit.Result DyldLinkedit.IndirectTable DyldLinkedit.SymbolTable

/-- Two reads of one symbol: the same name, and the same `nlist` but for `n_strx`. -/
def SameSymbol (P : PointerWidth) (a b : Source) : Prop :=
  a.name = b.name ∧
    { Nlist.read P a.mem a.entry with nStrx := 0 } = { Nlist.read P b.mem b.entry with nStrx := 0 }

section Output

variable {im : Image} {seg : ℕ} {t₀ : LinkeditTracker} {flag₀ : Bool} {r : Run}
  (h : Returned im seg t₀ flag₀ r) (hf : im.FileFits)
include h hf

/-- Slot `placeholder + j` of the output, read as a reader of the output reads a symbol, is
the `j`-th copy. -/
theorem sameSymbol_slot {j : ℕ} (hj : j < im.copied.length) :
    SameSymbol im.o.width (rangeSource (output im r) (im.placeholder + j)) im.copied[j] := by
  obtain ⟨he, -, hn⟩ := h.output_copied hf hj
  exact ⟨by rw [← hn, nlist_nStrx]; rfl, he⟩

/-- A range stored at `placeholder + a` with count `n` reads back as copies `a` to `a + n`;
a range the run did not store, empty in the image, reads back empty. -/
theorem range_read_back {startField countField a n : ℕ}
    (hslot : Cmd.dysymtab.Slot startField ∧ Cmd.dysymtab.Slot countField)
    (hn : a + n ≤ im.copied.length)
    (hlog : n ≠ 0 → (im.dy + startField, im.placeholder + a) ∈ im.log ∧
      (im.dy + countField, n) ∈ im.log)
    (hempty : n = 0 → (Cmd.dysymtab, startField) ∉ storedFields im ∧
      (Cmd.dysymtab, countField) ∉ storedFields im ∧
        im.rangeIndices startField countField = []) :
    List.Forall₂ (SameSymbol im.o.width)
      ((output im r).rangeSources ((output im r).rangeIndices startField countField))
      ((im.copied.drop a).take n) := by
  by_cases h0 : n = 0
  · obtain ⟨hs, hc, hnil⟩ := hempty h0
    have hkept : (output im r).rangeIndices startField countField =
        im.rangeIndices startField countField := by
      rw [rangeIndices_eq, rangeIndices_eq]
      rw [show read32 (output im r).hdr ((output im r).dy + startField) = _ from
          read32_dysymtab_kept h hslot.1 hs,
        show read32 (output im r).hdr ((output im r).dy + countField) = _ from
          read32_dysymtab_kept h hslot.2 hc]
    rw [hkept, hnil, h0, List.take_zero]
    exact .nil
  have hslots := symbolSlots_lt h.fits
  have hle : im.symbolSlots ≤ im.sz * im.symbolSlots :=
    Nat.le_mul_of_pos_left _ (by have := sz_ge im; omega)
  have hfit : im.placeholder + a + n < 2 ^ 32 := by
    have : im.symbolSlots < 2 ^ 32 := by omega
    unfold Image.symbolSlots at this
    omega
  obtain ⟨hs, hc⟩ := hlog h0
  rw [rangeIndices_eq, rangeSources_eq,
    show read32 (output im r).hdr ((output im r).dy + startField) = _ from h.read32_log hs,
    show read32 (output im r).hdr ((output im r).dy + countField) = _ from h.read32_log hc,
    u32_of_lt (by omega : im.placeholder + a < 2 ^ 32), u32_of_lt (by omega : n < 2 ^ 32),
    u32_of_lt hfit, Nat.add_sub_cancel_left]
  refine List.forall₂_iff_get.mpr ⟨by simp; omega, fun i h₁ h₂ => ?_⟩
  simp only [List.get_eq_getElem, List.getElem_map, List.getElem_range', List.getElem_take,
    List.getElem_drop, Nat.one_mul, Nat.add_assoc]
  exact sameSymbol_slot h hf (by simp at h₂; omega)

end Output

/-- The copies split into the locals, the extdef range and the undef range. -/
theorem copied_parts (im : Image) :
    (im.copied.drop 0).take im.localsCount = im.publicLocals ++ im.recoveredLocals ∧
      (im.copied.drop im.localsCount).take im.exported.length = im.rangeSources im.exported ∧
      (im.copied.drop (im.localsCount + im.exported.length)).take im.imported.length =
        im.rangeSources im.imported := by
  have hL : (im.publicLocals ++ im.recoveredLocals).length = im.localsCount := by
    simp [Image.localsCount]
  have hE : (im.rangeSources im.exported).length = im.exported.length := by
    rw [rangeSources_eq, List.length_map]
  have hU : (im.rangeSources im.imported).length = im.imported.length := by
    rw [rangeSources_eq, List.length_map]
  refine ⟨?_, ?_, ?_⟩
  · rw [List.drop_zero, Image.copied, List.append_assoc (_ ++ _), List.take_left' hL]
  · rw [Image.copied, List.append_assoc (_ ++ _), List.drop_left' hL, List.take_left' hE]
  · rw [Image.copied, List.drop_left' (by rw [List.length_append, hL, hE]),
      List.take_of_length_le hU.le]

/-- Read back through the output's dysymtab, the extdef and undef ranges list the symbols the
passes copied from the image's, slot for slot: the same `nlist` but for `n_strx` and the same
name. So does the local range, for the public and recovered locals, when some local was copied
or the image had no local range. -/
theorem symbols_read_back {eCtx : ExtractionContext} {pg : Pages} {im : Image} {seg : ℕ}
    (hr : Runs eCtx pg im seg) (hf : im.FileFits) :
    ∃ r, optimizeLinkedit eCtx pg = .ok r ∧
      (im.localsCount ≠ 0 ∨ read32 im.hdr (im.dy + nlocalsym) = 0 →
        List.Forall₂ (SameSymbol im.o.width)
          ((output im r).rangeSources ((output im r).rangeIndices ilocalsym nlocalsym))
          (im.publicLocals ++ im.recoveredLocals)) ∧
      List.Forall₂ (SameSymbol im.o.width) ((output im r).rangeSources (output im r).exported)
        (im.rangeSources im.exported) ∧
      List.Forall₂ (SameSymbol im.o.width) ((output im r).rangeSources (output im r).imported)
        (im.rangeSources im.imported) := by
  obtain ⟨t₀, r, -, hok, h⟩ := hr.returns
  obtain ⟨hL, hE, hU⟩ := copied_parts im
  have hlen := copied_length im
  have hloc : im.localsCount = im.publicLocals.length + im.recoveredLocals.length := rfl
  obtain ⟨hL₀, hE₀, hU₀⟩ := unstored_ranges im
  refine ⟨r, hok, fun hl => ?_, ?_, ?_⟩
  · have hnil (h0 : im.localsCount = 0) : im.rangeIndices ilocalsym nlocalsym = [] := by
      rw [rangeIndices_eq, hl.resolve_left (not_not.mpr h0), Nat.add_zero, u32,
        Nat.sub_eq_zero_of_le (Nat.mod_le _ _), List.range'_zero]
    rw [← hL]
    exact range_read_back h hf (by decide) (by omega)
      (fun hc => by simp [Image.log, Image.rangeLog, hc])
      fun h0 => ⟨(hL₀ h0).1, (hL₀ h0).2, hnil h0⟩
  · rw [← hE]
    exact range_read_back h hf (by decide) (by omega)
      (fun hc => by simp [Image.log, Image.rangeLog, hc])
      fun h0 => ⟨(hE₀ h0).1, (hE₀ h0).2, List.eq_nil_of_length_eq_zero h0⟩
  · rw [← hU]
    exact range_read_back h hf (by decide) (by omega)
      (fun hc => by simp [Image.log, Image.rangeLog, hc, Nat.add_assoc])
      fun h0 => ⟨(hU₀ h0).1, (hU₀ h0).2, List.eq_nil_of_length_eq_zero h0⟩

theorem symbols_read_back_exported :
    ∃ r, optimizeLinkedit (flatExtraction .pointer64 flatCommands 32)
      IndirectTable.exportedPages = .ok r ∧
      (exportedImage.localsCount ≠ 0 ∨
          read32 exportedImage.hdr (exportedImage.dy + nlocalsym) = 0 →
        List.Forall₂ (SameSymbol exportedImage.o.width)
          ((output exportedImage r).rangeSources
            ((output exportedImage r).rangeIndices ilocalsym nlocalsym))
          (exportedImage.publicLocals ++ exportedImage.recoveredLocals)) ∧
      List.Forall₂ (SameSymbol exportedImage.o.width)
        ((output exportedImage r).rangeSources (output exportedImage r).exported)
        (exportedImage.rangeSources exportedImage.exported) ∧
      List.Forall₂ (SameSymbol exportedImage.o.width)
        ((output exportedImage r).rangeSources (output exportedImage r).imported)
        (exportedImage.rangeSources exportedImage.imported) :=
  symbols_read_back exportedImage_runs (by unfold Image.FileFits; decide)

end DyldLinkedit.ReadBack
