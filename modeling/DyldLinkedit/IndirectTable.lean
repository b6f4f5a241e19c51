import DyldLinkedit.Result

/-!
# The indirect symbol table after a run

`copyIndirectSymbolTable` writes, for every entry, the value `_newSymbolIndicies` holds for
it, read with `operator[]`: a key the map lacks is inserted with value 0. The entries that are
0, `INDIRECT_SYMBOL_ABS` or `INDIRECT_SYMBOL_LOCAL` only raise the redacted-symbol flag
before that lookup, so they are remapped like any other entry (`Result.output_indirect`).

An entry that names a symbol of the extdef or undef range resolves to the copy of that symbol
in the new table: same `nlist` but for `n_strx`, whose string in the new pool is the old name.
The copy loops run over `[start, uint32_t(start + count))`, so this holds when those sums do
not wrap.
-/

set_option autoImplicit false

namespace DyldLinkedit.IndirectTable
open DyldLinkedit.Memory DyldLinkedit.MachO DyldLinkedit.Tracker DyldLinkedit.Strings
  DyldLinkedit.Optimizer DyldLinkedit.Layout DyldLinkedit.Pipeline DyldLinkedit.Result

/-- The copy `rangeSources` makes of old symbol `k`. -/
def rangeSource (im : Image) (k : ℕ) : Source :=
  ⟨im.lnk, im.symbols + im.sz * k,
    nameAt im.lnk im.strings im.stringsSize (read32 im.lnk (im.symbols + im.sz * k))⟩

theorem rangeSources_eq (im : Image) (idxs : List ℕ) :
    im.rangeSources idxs = idxs.map (rangeSource im) := by
  simp only [Image.rangeSources, sourcesAt, List.map_map]
  rfl

/-- Old symbol `k` lies in the dysymtab range of `startField` and `countField`. -/
def InRange (im : Image) (startField countField k : ℕ) : Prop :=
  read32 im.hdr (im.dy + startField) ≤ k ∧
    k < read32 im.hdr (im.dy + startField) + read32 im.hdr (im.dy + countField)

/-- The copy loop's `uint32_t` bound does not wrap. -/
def RangeFits (im : Image) (startField countField : ℕ) : Prop :=
  read32 im.hdr (im.dy + startField) + read32 im.hdr (im.dy + countField) < 2 ^ 32

theorem rangeIndices_eq (im : Image) (startField countField : ℕ) :
    im.rangeIndices startField countField = List.range' (read32 im.hdr (im.dy + startField))
      (u32 (read32 im.hdr (im.dy + startField) + read32 im.hdr (im.dy + countField)) -
        read32 im.hdr (im.dy + startField)) := rfl

theorem mem_rangeIndices {im : Image} {startField countField k : ℕ}
    (h : RangeFits im startField countField) :
    k ∈ im.rangeIndices startField countField ↔ InRange im startField countField k := by
  unfold RangeFits at h
  rw [rangeIndices_eq, u32_of_lt h, List.mem_range'_1, InRange]
  omega

theorem getElem?_rangeSources {im : Image} {startField countField p : ℕ}
    (hp : p < (im.rangeIndices startField countField).length) :
    (im.rangeSources (im.rangeIndices startField countField))[p]? =
      some (rangeSource im (read32 im.hdr (im.dy + startField) + p)) := by
  rw [rangeIndices_eq, List.length_range'] at hp
  rw [rangeSources_eq, List.getElem?_map, rangeIndices_eq, List.getElem?_range' _ _ hp,
    Nat.one_mul]
  rfl

/-- The slot `newIndex` gives an old symbol holds the copy of that symbol. -/
theorem copied_of_newIndex {im : Image} {k v : ℕ} (h : im.newIndex k = some v) :
    ∃ j, v = im.placeholder + j ∧ im.copied[j]? = some (rangeSource im k) := by
  have hL : (im.publicLocals ++ im.recoveredLocals).length = im.localsCount := by
    simp [Image.localsCount]
  have hLE : (im.publicLocals ++ im.recoveredLocals ++ im.rangeSources im.exported).length =
      im.localsCount + im.exported.length := by
    rw [List.length_append, hL, rangeSources_eq, List.length_map]
  unfold Image.newIndex at h
  split_ifs at h with hU hE
  · obtain rfl := Option.some.inj h
    have hp : k - read32 im.hdr (im.dy + iundefsym) < im.imported.length := by
      rw [Image.imported, rangeIndices_eq, List.mem_range'_1] at hU
      rw [Image.imported, rangeIndices_eq, List.length_range']
      omega
    have hk : read32 im.hdr (im.dy + iundefsym) ≤ k := by
      rw [Image.imported, rangeIndices_eq, List.mem_range'_1] at hU
      exact hU.1
    refine ⟨im.localsCount + im.exported.length + (k - read32 im.hdr (im.dy + iundefsym)),
      by omega, ?_⟩
    rw [Image.copied, List.getElem?_append_right (by rw [hLE]; omega), hLE,
      Nat.add_sub_cancel_left, Image.imported, getElem?_rangeSources hp, Nat.add_sub_cancel' hk]
  · obtain rfl := Option.some.inj h
    have hp : k - read32 im.hdr (im.dy + iextdefsym) < im.exported.length := by
      rw [Image.exported, rangeIndices_eq, List.mem_range'_1] at hE
      rw [Image.exported, rangeIndices_eq, List.length_range']
      omega
    have hk : read32 im.hdr (im.dy + iextdefsym) ≤ k := by
      rw [Image.exported, rangeIndices_eq, List.mem_range'_1] at hE
      exact hE.1
    refine ⟨im.localsCount + (k - read32 im.hdr (im.dy + iextdefsym)), by omega, ?_⟩
    rw [Image.copied, List.getElem?_append_left (by rw [hLE]; omega),
      List.getElem?_append_right (by rw [hL]; omega), hL, Nat.add_sub_cancel_left,
      Image.exported, getElem?_rangeSources hp, Nat.add_sub_cancel' hk]

theorem newIndex_of_inRange {im : Image} {k : ℕ} (hE : RangeFits im iextdefsym nextdefsym)
    (hU : RangeFits im iundefsym nundefsym)
    (hk : InRange im iextdefsym nextdefsym k ∨ InRange im iundefsym nundefsym k) :
    ∃ v, im.newIndex k = some v := by
  unfold Image.newIndex
  rw [← mem_rangeIndices hE, ← mem_rangeIndices hU] at hk
  split_ifs with h₁ h₂
  · exact ⟨_, rfl⟩
  · exact ⟨_, rfl⟩
  · exact (hk.elim h₂ h₁).elim

/-- A flat image whose only indirect entry is `INDIRECT_SYMBOL_ABS`, with empty ranges. -/
def absPages : Pages :=
  ⟨flatHeader 0x100 0x40 [(120, 0x110), (124, 1), (184, 0x120), (188, 1)],
    writeLog (fun _ => 0) [(0x120, indirectSymbolAbs)]⟩

def absImage : Image := flatImage .pointer64 flatCommands 32 104 128 absPages

theorem absImage_runs : Runs (flatExtraction .pointer64 flatCommands 32) absPages absImage 32 :=
  flat_runs rfl (by unfold Apart; decide) (by decide) (by decide)
    (by unfold Image.CursorFits; decide) (by decide)

/-- An entry that names no symbol of the two ranges is written as 0: `INDIRECT_SYMBOL_ABS` and
`INDIRECT_SYMBOL_LOCAL` among them, and 0 itself unless old symbol 0 is in a range. -/
theorem indirect_unranged_zeroed {eCtx : ExtractionContext} {pg : Pages} {im : Image} {seg : ℕ}
    (hr : Runs eCtx pg im seg) (hf : im.FileFits) :
    ∃ r, optimizeLinkedit eCtx pg = .ok r ∧ ∀ i < im.nIndirect,
      im.oldIndirect i ∉ im.exported → im.oldIndirect i ∉ im.imported →
      (output im r).oldIndirect i = 0 := by
  obtain ⟨t₀, r, -, hok, h⟩ := hr.returns
  refine ⟨r, hok, fun i hi hE hU => ?_⟩
  rw [h.output_indirect hf hi, Image.newIndex, if_neg hU, if_neg hE]
  rfl

theorem indirect_unranged_zeroed_abs :
    ∃ r, optimizeLinkedit (flatExtraction .pointer64 flatCommands 32) absPages = .ok r ∧
      ∀ i < absImage.nIndirect, absImage.oldIndirect i ∉ absImage.exported →
        absImage.oldIndirect i ∉ absImage.imported → (output absImage r).oldIndirect i = 0 :=
  indirect_unranged_zeroed absImage_runs (by unfold Image.FileFits; decide)

theorem indirect_abs_entry_zeroed :
    ∃ r, optimizeLinkedit (flatExtraction .pointer64 flatCommands 32) absPages = .ok r ∧
      absImage.oldIndirect 0 = indirectSymbolAbs ∧ (output absImage r).oldIndirect 0 = 0 := by
  obtain ⟨t₀, r, -, hok, h⟩ := absImage_runs.returns
  refine ⟨r, hok, by decide, ?_⟩
  rw [show absImage = _ from rfl, h.output_indirect (by unfold Image.FileFits; decide) (by decide)]
  decide

/-- After the run, every indirect entry that names an old symbol of the extdef or undef range
names, in the output, a symbol below `nsyms` whose `nlist` is the old one's but for `n_strx`,
and whose `n_strx` names the old name inside the new string table. -/
def IndirectResolves (im : Image) (r : Run) : Prop :=
  ∀ i < im.nIndirect,
    InRange im iextdefsym nextdefsym (im.oldIndirect i) ∨
      InRange im iundefsym nundefsym (im.oldIndirect i) →
    let out := output im r
    let e := Nlist.read im.o.width out.lnk (out.symbols + im.sz * out.oldIndirect i)
    let e₀ := Nlist.read im.o.width im.lnk (im.symbols + im.sz * im.oldIndirect i)
    out.oldIndirect i < read32 out.hdr (im.st + nsyms) ∧
      { e with nStrx := 0 } = { e₀ with nStrx := 0 } ∧ e.nStrx < out.stringsSize ∧
      nameAt out.lnk out.strings out.stringsSize e.nStrx =
        nameAt im.lnk im.strings im.stringsSize e₀.nStrx

theorem indirect_entries_resolve {eCtx : ExtractionContext} {pg : Pages} {im : Image} {seg : ℕ}
    (hr : Runs eCtx pg im seg) (hf : im.FileFits) (hE : RangeFits im iextdefsym nextdefsym)
    (hU : RangeFits im iundefsym nundefsym) :
    ∃ r, optimizeLinkedit eCtx pg = .ok r ∧ IndirectResolves im r := by
  obtain ⟨t₀, r, -, hok, h⟩ := hr.returns
  refine ⟨r, hok, fun i hi hk => ?_⟩
  obtain ⟨v, hv⟩ := newIndex_of_inRange hE hU hk
  obtain ⟨j, rfl, hj⟩ := copied_of_newIndex hv
  obtain ⟨hjl, hjs⟩ := List.getElem?_eq_some_iff.mp hj
  have hc := h.output_copied hf hjl
  rw [hjs] at hc
  have hnew : (output im r).oldIndirect i = im.placeholder + j := by
    rw [h.output_indirect hf hi, hv]
    rfl
  dsimp only
  rw [hnew]
  exact ⟨by rw [show (output im r).hdr = r.pages.hdr from rfl, h.output_nsyms]; omega, hc⟩

/-- A flat image with one exported symbol `_f`, named by its only indirect entry, whose 72-byte
layout fills its LINKEDIT. -/
def exportedPages : Pages :=
  ⟨flatHeader 0x100 0x48 [(112, 0x100), (116, 1), (120, 0x110), (124, 4), (144, 0), (148, 1),
    (184, 0x120), (188, 1)],
    writeLog (fun _ => 0) [(0x100, 1), (0x104, 0x0f), (0x110, 0x665f00), (0x120, 0)]⟩

def exportedImage : Image := flatImage .pointer64 flatCommands 32 104 128 exportedPages

theorem exportedImage_runs :
    Runs (flatExtraction .pointer64 flatCommands 32) exportedPages exportedImage 32 :=
  flat_runs rfl (by unfold Apart; decide) (by decide) (by decide)
    (by unfold Image.CursorFits; decide) (by decide)

theorem indirect_entries_resolve_exported :
    ∃ r, optimizeLinkedit (flatExtraction .pointer64 flatCommands 32) exportedPages = .ok r ∧
      IndirectResolves exportedImage r :=
  indirect_entries_resolve exportedImage_runs (by unfold Image.FileFits; decide)
    (by unfold RangeFits; decide) (by unfold RangeFits; decide)

/-- `newIndex` sends two old symbols to one slot only when they are one symbol: the slot holds
the copy of each, and a copy records the address of the `nlist` it was made from. -/
theorem newIndex_injective {im : Image} {k k' v : ℕ} (h : im.newIndex k = some v)
    (h' : im.newIndex k' = some v) : k = k' := by
  obtain ⟨j, rfl, hj⟩ := copied_of_newIndex h
  obtain ⟨j', hjj, hj'⟩ := copied_of_newIndex h'
  obtain rfl := Nat.add_left_cancel hjj
  have hentry := congrArg Source.entry (Option.some.inj (hj.symm.trans hj'))
  have hsz := sz_ge im
  exact Nat.eq_of_mul_eq_mul_left (by omega) (Nat.add_left_cancel hentry)

/-- After the run, two indirect entries that name symbols of the extdef or undef range name one
new symbol exactly when they named one old symbol: the rewrite neither merges two symbols nor
splits one. -/
theorem indirect_remap_injective {eCtx : ExtractionContext} {pg : Pages} {im : Image} {seg : ℕ}
    (hr : Runs eCtx pg im seg) (hf : im.FileFits) (hE : RangeFits im iextdefsym nextdefsym)
    (hU : RangeFits im iundefsym nundefsym) :
    ∃ r, optimizeLinkedit eCtx pg = .ok r ∧ ∀ i < im.nIndirect, ∀ j < im.nIndirect,
      (InRange im iextdefsym nextdefsym (im.oldIndirect i) ∨
        InRange im iundefsym nundefsym (im.oldIndirect i)) →
      (InRange im iextdefsym nextdefsym (im.oldIndirect j) ∨
        InRange im iundefsym nundefsym (im.oldIndirect j)) →
      ((output im r).oldIndirect i = (output im r).oldIndirect j ↔
        im.oldIndirect i = im.oldIndirect j) := by
  obtain ⟨t₀, r, -, hok, h⟩ := hr.returns
  refine ⟨r, hok, fun i hi j hj hki hkj => ?_⟩
  obtain ⟨v, hv⟩ := newIndex_of_inRange hE hU hki
  obtain ⟨w, hw⟩ := newIndex_of_inRange hE hU hkj
  rw [h.output_indirect hf hi, h.output_indirect hf hj, hv, hw, Option.getD_some,
    Option.getD_some]
  refine ⟨fun e => newIndex_injective hv (e ▸ hw), fun e => ?_⟩
  rw [e, hw] at hv
  exact (Option.some.inj hv).symm

theorem indirect_remap_injective_exported :
    ∃ r, optimizeLinkedit (flatExtraction .pointer64 flatCommands 32) exportedPages = .ok r ∧
      ∀ i < exportedImage.nIndirect, ∀ j < exportedImage.nIndirect,
      (InRange exportedImage iextdefsym nextdefsym (exportedImage.oldIndirect i) ∨
        InRange exportedImage iundefsym nundefsym (exportedImage.oldIndirect i)) →
      (InRange exportedImage iextdefsym nextdefsym (exportedImage.oldIndirect j) ∨
        InRange exportedImage iundefsym nundefsym (exportedImage.oldIndirect j)) →
      ((output exportedImage r).oldIndirect i = (output exportedImage r).oldIndirect j ↔
        exportedImage.oldIndirect i = exportedImage.oldIndirect j) :=
  indirect_remap_injective exportedImage_runs (by unfold Image.FileFits; decide)
    (by unfold RangeFits; decide) (by unfold RangeFits; decide)

/-- A flat image whose extdef range starts at `2^32 - 1`, with one symbol, and whose only
indirect entry names that symbol: the copy loop's bound wraps to 0. -/
def wrappedPages : Pages :=
  ⟨flatHeader 0x100 0x40 [(120, 0x110), (124, 1), (144, 2 ^ 32 - 1), (148, 1), (184, 0x120),
    (188, 1)],
    writeLog (fun _ => 0) [(0x120, 2 ^ 32 - 1)]⟩

def wrappedImage : Image := flatImage .pointer64 flatCommands 32 104 128 wrappedPages

theorem wrappedImage_runs :
    Runs (flatExtraction .pointer64 flatCommands 32) wrappedPages wrappedImage 32 :=
  flat_runs rfl (by unfold Apart; decide) (by decide) (by decide)
    (by unfold Image.CursorFits; decide) (by decide)

theorem indirect_wrapped_range_unresolved :
    ∃ r, optimizeLinkedit (flatExtraction .pointer64 flatCommands 32) wrappedPages = .ok r ∧
      InRange wrappedImage iextdefsym nextdefsym (wrappedImage.oldIndirect 0) ∧
      ¬ (output wrappedImage r).oldIndirect 0 < read32 r.pages.hdr (wrappedImage.st + nsyms) := by
  obtain ⟨t₀, r, -, hok, h⟩ := wrappedImage_runs.returns
  refine ⟨r, hok, by unfold InRange; decide, ?_⟩
  rw [show wrappedImage = _ from rfl, h.output_indirect (by unfold Image.FileFits; decide)
    (by decide), h.output_nsyms]
  decide

end DyldLinkedit.IndirectTable
