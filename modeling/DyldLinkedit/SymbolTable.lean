import DyldLinkedit.IndirectTable

/-!
# The symbol table after a run

The new symbol table is, in order: the `<redacted>` placeholder when some indirect entry is
0, the public locals, the recovered locals, the extdef range and the undef range, then one
zero `nlist` reserved for every zero indirect entry. `nsyms` counts all but the reserved
ones, and the redacted-symbol flag is raised when there is a placeholder.

`copyLocalSymbols` and the two range passes store a dysymtab range only when they copied
something (`setRange`): a range that ends up empty keeps its old start and count, so an
image whose locals are all `<redacted>` and that has no symbols subcache keeps a stale
`nlocalsym`.

The new string table holds nothing but the names: the empty name, then every name the copied
symbols use, once each in order of first use, each followed by its terminator.
-/

set_option autoImplicit false

namespace DyldLinkedit.SymbolTable
open DyldLinkedit.Memory DyldLinkedit.MachO DyldLinkedit.Tracker DyldLinkedit.Strings
  DyldLinkedit.Optimizer DyldLinkedit.Interning DyldLinkedit.Layout DyldLinkedit.Passes
  DyldLinkedit.Commands DyldLinkedit.Pipeline DyldLinkedit.Result

/-- The two fields a range pass stores to: none when it copied nothing. -/
def rangeFields (startField countField count : ℕ) : List (Cmd × ℕ) :=
  if count = 0 then [] else [(.dysymtab, startField), (.dysymtab, countField)]

/-- The fields the run of `im` stores to, part by part as `Image.log` stores them. -/
def storedFields (im : Image) : List (Cmd × ℕ) :=
  [(.dyldInfo, bindOff)] ++ [(.dyldInfo, weakBindOff)] ++ [(.dyldInfo, lazyBindOff)] ++
    rangeFields ilocalsym nlocalsym im.localsCount ++
    rangeFields iextdefsym nextdefsym im.exported.length ++
    rangeFields iundefsym nundefsym im.imported.length ++
    [(.symtab, symoff), (.symtab, nsyms)] ++ [(.functionStarts, dataoff)] ++
    [(.dataInCode, dataoff)] ++
    ([(.dysymtab, indirectsymoff)] ++ [(.symtab, stroff), (.symtab, strsize)])

section Stores

variable {im : Image}

theorem storesIn_rangeFields (startField countField start count : ℕ) :
    StoresIn im (im.rangeLog startField countField start count)
      (rangeFields startField countField count) := by
  by_cases h : count = 0
  · simp only [Image.rangeLog, rangeFields, if_pos h]
    exact storesIn_nil
  · rw [rangeFields, if_neg h]
    exact storesIn_rangeLog _ _ _ _

theorem storesIn_indirect (v : ℕ) :
    StoresIn im [(im.dy + indirectsymoff, v)] [(.dysymtab, indirectsymoff)] := fun w hw =>
  ⟨.dysymtab, indirectsymoff, im.dy, List.mem_singleton_self _, rfl,
    by rw [List.mem_singleton.mp hw]⟩

theorem log_storesIn_stored (im : Image) : StoresIn im im.log (storedFields im) :=
  (((((((((storesIn_blobLog .dyldInfo bindOff bindSize 0).append
    (storesIn_blobLog .dyldInfo weakBindOff weakBindSize _)).append
    (storesIn_blobLog .dyldInfo lazyBindOff lazyBindSize _)).append
    (storesIn_rangeFields ilocalsym nlocalsym _ _)).append
    (storesIn_rangeFields iextdefsym nextdefsym _ _)).append
    (storesIn_rangeFields iundefsym nundefsym _ _)).append
    (storesIn_pair (k := .symtab) rfl symoff nsyms _ _)).append
    (storesIn_blobLog .functionStarts dataoff datasize _)).append
    (storesIn_blobLog .dataInCode dataoff datasize _)).append
    ((storesIn_indirect _).append (storesIn_pair (k := .symtab) rfl stroff strsize _ _))

theorem storedFields_slot : ∀ p ∈ storedFields im, p.1.Slot p.2 := by
  unfold storedFields rangeFields
  split_ifs <;> decide

theorem unstored_ranges (im : Image) :
    (im.localsCount = 0 → (Cmd.dysymtab, ilocalsym) ∉ storedFields im ∧
      (Cmd.dysymtab, nlocalsym) ∉ storedFields im) ∧
    (im.exported.length = 0 → (Cmd.dysymtab, iextdefsym) ∉ storedFields im ∧
      (Cmd.dysymtab, nextdefsym) ∉ storedFields im) ∧
    (im.imported.length = 0 → (Cmd.dysymtab, iundefsym) ∉ storedFields im ∧
      (Cmd.dysymtab, nundefsym) ∉ storedFields im) := by
  unfold storedFields rangeFields
  refine ⟨fun h0 => ?_, fun h0 => ?_, fun h0 => ?_⟩ <;> rw [if_pos h0] <;> split_ifs <;> decide

end Stores

theorem read32_dysymtab_kept {im : Image} {seg : ℕ} {t₀ : LinkeditTracker} {flag₀ : Bool}
    {r : Run} (h : Returned im seg t₀ flag₀ r) {f : ℕ} (hf : Cmd.dysymtab.Slot f)
    (hnot : (Cmd.dysymtab, f) ∉ storedFields im) :
    read32 r.pages.hdr (im.dy + f) = read32 im.hdr (im.dy + f) := by
  rw [h.read32_field (k := .dysymtab) rfl hf]
  exact h.placed.read32_writeLog (log_storesIn_stored im) storedFields_slot (k := .dysymtab) _
    rfl hf hnot

/-- After the run the dysymtab range of `startField` and `countField` of `im` starts at `start`
and counts `count` when `count` is not zero, and keeps its two fields when it is. -/
def RangeStored (im : Image) (r : Run) (startField countField start count : ℕ) : Prop :=
  (count ≠ 0 → read32 r.pages.hdr (im.dy + startField) = start ∧
    read32 r.pages.hdr (im.dy + countField) = count) ∧
  (count = 0 → read32 r.pages.hdr (im.dy + startField) = read32 im.hdr (im.dy + startField) ∧
    read32 r.pages.hdr (im.dy + countField) = read32 im.hdr (im.dy + countField))

/-- The symbol table of the output: the placeholder when `R = redacted` is not zero, the copies
of `copied` (public locals, recovered locals, extdef range, undef range) each equal to its
source but for `n_strx`, which names the source's name in the new string table, then `R`
zero `nlist`s; `nsyms` counts the placeholder and the copies; the flag records the
placeholder; and each non-empty range is stored. -/
def SymbolTableLaid (im : Image) (flag₀ : Bool) (r : Run) : Prop :=
  let out := output im r
  let slot := fun j => Nlist.read im.o.width out.lnk (out.symbols + im.sz * j)
  let name := fun (e : Nlist) => nameAt out.lnk out.strings out.stringsSize e.nStrx
  read32 out.hdr (im.st + nsyms) = im.placeholder + (im.publicLocals.length +
      im.recoveredLocals.length + im.exported.length + im.imported.length) ∧
    (im.redacted ≠ 0 → { slot 0 with nStrx := 0 } = ⟨0, 1, 0, 0, 0⟩ ∧
      name (slot 0) = redactedName) ∧
    (∀ j (hj : j < im.copied.length),
      { slot (im.placeholder + j) with nStrx := 0 } =
        { Nlist.read im.o.width im.copied[j].mem im.copied[j].entry with nStrx := 0 } ∧
      name (slot (im.placeholder + j)) = im.copied[j].name) ∧
    (∀ x < im.sz * im.redacted,
      out.lnk (out.symbols + im.sz * (im.placeholder + im.copied.length) + x) = 0) ∧
    r.hasRedactedIndirect = (flag₀ || decide (im.redacted ≠ 0)) ∧
    RangeStored im r ilocalsym nlocalsym im.placeholder im.localsCount ∧
    RangeStored im r iextdefsym nextdefsym (im.placeholder + im.localsCount) im.exported.length ∧
    RangeStored im r iundefsym nundefsym (im.placeholder + im.localsCount + im.exported.length)
      im.imported.length

theorem rangeStored_of_log {im : Image} {seg : ℕ} {t₀ : LinkeditTracker} {flag₀ : Bool} {r : Run}
    (h : Returned im seg t₀ flag₀ r) {startField countField start count : ℕ}
    (hslot : Cmd.dysymtab.Slot startField ∧ Cmd.dysymtab.Slot countField)
    (hlog : count ≠ 0 → (im.dy + startField, start) ∈ im.log ∧ (im.dy + countField, count) ∈ im.log)
    (hkept : count = 0 → (Cmd.dysymtab, startField) ∉ storedFields im ∧
      (Cmd.dysymtab, countField) ∉ storedFields im)
    (hfit : start < 2 ^ 32 ∧ count < 2 ^ 32) :
    RangeStored im r startField countField start count := by
  refine ⟨fun hc => ?_, fun hc => ?_⟩
  · obtain ⟨h₁, h₂⟩ := hlog hc
    exact ⟨(h.read32_log h₁).trans (u32_of_lt hfit.1), (h.read32_log h₂).trans (u32_of_lt hfit.2)⟩
  · exact ⟨read32_dysymtab_kept h hslot.1 (hkept hc).1, read32_dysymtab_kept h hslot.2 (hkept hc).2⟩

theorem symbol_table_laid {eCtx : ExtractionContext} {pg : Pages} {im : Image} {seg : ℕ}
    (hr : Runs eCtx pg im seg) (hf : im.FileFits) :
    ∃ r, optimizeLinkedit eCtx pg = .ok r ∧ SymbolTableLaid im eCtx.hasRedactedIndirect r := by
  obtain ⟨t₀, r, -, hok, h⟩ := hr.returns
  have hslots := symbolSlots_lt h.fits
  have hle : im.symbolSlots ≤ im.sz * im.symbolSlots :=
    Nat.le_mul_of_pos_left _ (by have := sz_ge im; omega)
  have hC : im.placeholder + im.localsCount + im.exported.length + im.imported.length ≤
      im.symbolSlots := by
    simp only [Image.symbolSlots, copied_length, Image.localsCount]
    omega
  obtain ⟨hL₀, hE₀, hU₀⟩ := unstored_ranges im
  refine ⟨r, hok, ?_, fun hR => h.output_placeholder hf hR, fun j hj => ?_, fun x hx => ?_,
    h.laid.flag, rangeStored_of_log h (by decide) ?_ hL₀ ⟨by omega, by omega⟩,
    rangeStored_of_log h (by decide) ?_ hE₀ ⟨by omega, by omega⟩,
    rangeStored_of_log h (by decide) ?_ hU₀ ⟨by omega, by omega⟩⟩
  · rw [show (output im r).hdr = r.pages.hdr from rfl, h.output_nsyms, copied_length]
  · exact ⟨(h.output_copied hf hj).1, (h.output_copied hf hj).2.2⟩
  · exact h.output_reserved hf hx
  all_goals intro hc; simp [Image.log, Image.rangeLog, hc]

/-- A flat image whose one local symbol is named `<redacted>`, with no symbols subcache: no
local is copied, and `nlocalsym` keeps its old value 1. -/
def redactedLocalPages : Pages :=
  ⟨flatHeader 0x100 0x40 [(112, 0x100), (116, 1), (120, 0x110), (124, 12), (136, 0), (140, 1)],
    writeLog (fun _ => 0) [(0x100, 1), (0x110, 0x65723c00), (0x114, 0x74636164),
      (0x118, 0x003e6465)]⟩

def redactedLocalImage : Image := flatImage .pointer64 flatCommands 32 104 128 redactedLocalPages

theorem redactedLocalImage_runs :
    Runs (flatExtraction .pointer64 flatCommands 32) redactedLocalPages redactedLocalImage 32 :=
  flat_runs rfl (by unfold Apart; decide) (by decide) (by decide)
    (by unfold Image.CursorFits; decide) (by decide)

theorem stale_local_count :
    ∃ r, optimizeLinkedit (flatExtraction .pointer64 flatCommands 32) redactedLocalPages = .ok r ∧
      redactedLocalImage.publicLocals.length + redactedLocalImage.recoveredLocals.length = 0 ∧
      read32 r.pages.hdr (redactedLocalImage.dy + nlocalsym) = 1 := by
  obtain ⟨t₀, r, -, hok, h⟩ := redactedLocalImage_runs.returns
  refine ⟨r, hok, by decide, ?_⟩
  rw [h.read32_field (k := .dysymtab) rfl (by decide)]
  decide

theorem symbol_table_laid_exported :
    ∃ r, optimizeLinkedit (flatExtraction .pointer64 flatCommands 32)
      IndirectTable.exportedPages = .ok r ∧ SymbolTableLaid IndirectTable.exportedImage false r :=
  symbol_table_laid IndirectTable.exportedImage_runs (by unfold Image.FileFits; decide)

/-- The scratch buffer holds the new pool from its start: the empty name and then the copied
symbols' distinct names in order of first use, each with its terminator. -/
theorem pool_bytes {im : Image} {seg : ℕ} {t₀ : LinkeditTracker} {flag₀ : Bool} {r : Run}
    (h : Returned im seg t₀ flag₀ r) :
    (List.range im.poolLength).map (fun y => r.newLinkedit (im.poolStart + y)) =
      ((insertKeys [[]] im.names).map fun s => s ++ [0]).flatten := by
  obtain ⟨hP, hlen⟩ := newPool_packed h.fits
  have hfit : im.poolLength < 2 ^ 32 := hlen ▸ hP.fits
  have hkeys : (newPool im).pool.map Prod.fst = insertKeys [[]] im.names :=
    (addAll_packed new_packed (names_nulFree im) hfit).2
  have hs : ∀ f ∈ (newPool im).pool, (List.range (f.1.length + 1)).map
      (fun j => r.newLinkedit (im.poolStart + f.2 + j)) = f.1 ++ [0] := fun f hf => by
    have hc := h.laid.strings f hf (f.1.length + 1) (Nat.lt_succ_self _)
    rw [← hc]
    exact cstr_bytes _ _ (by rw [hc]; exact Nat.lt_succ_self _)
  have hb := packedEnd_bytes hP.ends hs
  rw [Nat.sub_zero, hlen] at hb
  rw [← hkeys, List.map_map]
  exact (List.map_congr_left fun y _ => by rw [Nat.add_zero]).trans hb

/-- The output's string table, byte for byte, is the empty name and then the copied symbols'
distinct names in order of first use, each with its terminator. -/
theorem string_table_bytes {eCtx : ExtractionContext} {pg : Pages} {im : Image} {seg : ℕ}
    (hr : Runs eCtx pg im seg) (hf : im.FileFits) :
    ∃ r, optimizeLinkedit eCtx pg = .ok r ∧
      (List.range (output im r).stringsSize).map
          (fun x => (output im r).lnk ((output im r).strings + x)) =
        ((insertKeys [[]] im.names).map fun s => s ++ [0]).flatten := by
  obtain ⟨t₀, r, -, hok, h⟩ := hr.returns
  refine ⟨r, hok, ?_⟩
  rw [h.output_stringsSize, h.output_strings hf, output_lnk, ← pool_bytes h]
  refine List.map_congr_left fun x hx => ?_
  have := le_pad im.poolLength
  rw [List.mem_range] at hx
  rw [Nat.add_assoc]
  exact h.lnk_at (by unfold Image.layoutEnd; omega)

theorem string_table_bytes_exported :
    ∃ r, optimizeLinkedit (flatExtraction .pointer64 flatCommands 32)
      IndirectTable.exportedPages = .ok r ∧
      (List.range (output IndirectTable.exportedImage r).stringsSize).map
          (fun x => (output IndirectTable.exportedImage r).lnk
            ((output IndirectTable.exportedImage r).strings + x)) =
        ((insertKeys [[]] IndirectTable.exportedImage.names).map fun s => s ++ [0]).flatten :=
  string_table_bytes IndirectTable.exportedImage_runs (by unfold Image.FileFits; decide)

theorem copied_strx {im : Image} {seg : ℕ} {t₀ : LinkeditTracker} {flag₀ : Bool} {r : Run}
    (h : Returned im seg t₀ flag₀ r) (hf : im.FileFits) {j : ℕ} (hj : j < im.copied.length) :
    lookupIndex im.copied[j].name (newPool im).pool = some (Nlist.read im.o.width (output im r).lnk
      ((output im r).symbols + im.sz * (im.placeholder + j))).nStrx := by
  obtain ⟨-, k, hk, hread⟩ := h.laid.symbols.copied j hj
  obtain ⟨-, -, -, -, e₅, e₆, e₇, e₈⟩ := starts_eq im
  have hslot : im.symbolsStart + im.sz * (im.placeholder + j) + im.sz ≤ im.functionStartsStart :=
    slot_lt (by unfold Image.symbolSlots; omega)
  have hsz := sz_ge im
  rw [hk, nlist_nStrx, ← hread]
  exact congrArg some (readLE_congr 4 fun i hi => by
    rw [Nat.add_assoc, Nat.add_assoc, h.output_symbols_at hf (by omega)])

/-- Two copied symbols of the output share a string offset exactly when they share a name:
the string table holds each name once. -/
theorem shared_names {eCtx : ExtractionContext} {pg : Pages} {im : Image} {seg : ℕ}
    (hr : Runs eCtx pg im seg) (hf : im.FileFits) :
    ∃ r, optimizeLinkedit eCtx pg = .ok r ∧
      ∀ j (hj : j < im.copied.length) j' (hj' : j' < im.copied.length),
        (Nlist.read im.o.width (output im r).lnk
            ((output im r).symbols + im.sz * (im.placeholder + j))).nStrx =
          (Nlist.read im.o.width (output im r).lnk
            ((output im r).symbols + im.sz * (im.placeholder + j'))).nStrx ↔
        im.copied[j].name = im.copied[j'].name := by
  obtain ⟨t₀, r, -, hok, h⟩ := hr.returns
  refine ⟨r, hok, fun j hj j' hj' => ⟨fun e => ?_, fun e => ?_⟩⟩
  · have hk := copied_strx h hf hj
    rw [e] at hk
    exact eq_of_lookupIndex (newPool_packed h.fits).1 hk (copied_strx h hf hj')
  · have hk := copied_strx h hf hj
    rw [e, copied_strx h hf hj'] at hk
    exact (Option.some.inj hk).symm

theorem shared_names_exported :
    ∃ r, optimizeLinkedit (flatExtraction .pointer64 flatCommands 32)
      IndirectTable.exportedPages = .ok r ∧
      ∀ j (hj : j < IndirectTable.exportedImage.copied.length) j'
        (hj' : j' < IndirectTable.exportedImage.copied.length),
        (Nlist.read IndirectTable.exportedImage.o.width (output IndirectTable.exportedImage r).lnk
            ((output IndirectTable.exportedImage r).symbols + IndirectTable.exportedImage.sz *
              (IndirectTable.exportedImage.placeholder + j))).nStrx =
          (Nlist.read IndirectTable.exportedImage.o.width (output IndirectTable.exportedImage r).lnk
            ((output IndirectTable.exportedImage r).symbols + IndirectTable.exportedImage.sz *
              (IndirectTable.exportedImage.placeholder + j'))).nStrx ↔
        IndirectTable.exportedImage.copied[j].name = IndirectTable.exportedImage.copied[j'].name :=
  shared_names IndirectTable.exportedImage_runs (by unfold Image.FileFits; decide)

end DyldLinkedit.SymbolTable
