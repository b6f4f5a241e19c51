import DyldLinkedit.Offsets

/-!
# The tracked regions after a run

The passes lay their regions one after the other from the start of LINKEDIT, each at the
cursor. The verbatim passes and the tables advance the cursor by the padded size they
track; `endSymbolEntries` tracks the symbol table with its size rounded up to 8 but leaves
the cursor at the unrounded `sizeof(nlist<P>) * count`. With 16-byte entries the two agree.
With 12-byte entries and an odd count the next region starts 4 bytes inside the symbol
table's region, at an offset that is not a multiple of 8.

The registry keeps the regions sorted by data pointer. The last one is the string pool's
unless the indirect table is empty: its region then has size 0 and the pool's data pointer,
and `trackData` puts the pool before it.

The final cursor is the end of the layout: every write into the scratch buffer lies below it,
and the copy back over the old LINKEDIT writes exactly that many bytes. The buffer holds the
segment's `vmsize` bytes, and the layout can be longer than the references it is built from
(the placeholder, the reserved `nlist`s, the recovered locals and the padding are added): the
run then overruns it.
-/

set_option autoImplicit false

namespace DyldLinkedit.Regions
open DyldLinkedit.Memory DyldLinkedit.MachO DyldLinkedit.Tracker DyldLinkedit.Registry
  DyldLinkedit.Optimizer DyldLinkedit.Layout DyldLinkedit.Passes DyldLinkedit.Commands
  DyldLinkedit.Pipeline DyldLinkedit.Result DyldLinkedit.Offsets

/-- The regions `ds` lie in order in `[x, y)`: each starts at or after the end of the one
before it, the first at or after `x`, and the last ends by `y`. -/
def LaidIn : ℕ → ℕ → List LinkeditData → Prop
  | x, y, [] => x ≤ y
  | x, y, d :: ds => x ≤ d.data ∧ LaidIn d.dataEnd y ds

namespace LaidIn

variable {x y z : ℕ} {ds es : List LinkeditData}

theorem le (h : LaidIn x y ds) : x ≤ y := by
  induction ds generalizing x with
  | nil => exact h
  | cons d ds ih => exact h.1.trans ((Nat.le_add_right _ _).trans (ih h.2))

theorem mono {x' : ℕ} (h : LaidIn x y ds) (hx : x' ≤ x) : LaidIn x' y ds := by
  cases ds with
  | nil => exact hx.trans h
  | cons d ds => exact ⟨hx.trans h.1, h.2⟩

theorem append (h₁ : LaidIn x y ds) (h₂ : LaidIn y z es) : LaidIn x z (ds ++ es) := by
  induction ds generalizing x with
  | nil => exact h₂.mono h₁
  | cons d ds ih => exact ⟨h₁.1, ih h₁.2⟩

theorem bounds (h : LaidIn x y ds) : ∀ d ∈ ds, x ≤ d.data ∧ d.dataEnd ≤ y := by
  induction ds generalizing x with
  | nil => simp
  | cons d ds ih =>
    intro e he
    rcases List.mem_cons.mp he with rfl | he
    · exact ⟨h.1, h.2.le⟩
    · have := ih h.2 e he
      exact ⟨h.1.trans ((Nat.le_add_right _ _).trans this.1), this.2⟩

theorem pairwise (h : LaidIn x y ds) : ds.Pairwise fun a b => a.dataEnd ≤ b.data := by
  induction ds generalizing x with
  | nil => exact .nil
  | cons d ds ih => exact .cons (fun e he => (h.2.bounds e he).1) (ih h.2)

end LaidIn

theorem blobRegion_laidIn (im : Image) (cmd : Option ℕ) (offField sizeField start : ℕ) {x y : ℕ}
    (hx : x ≤ im.o.linkeditStart + start)
    (hy : im.o.linkeditStart + start + pad (im.blobSize cmd sizeField) ≤ y) :
    LaidIn x y (im.blobRegion cmd offField sizeField start) := by
  cases cmd with
  | none =>
    simp only [Image.blobSize, pad] at hy
    exact (show x ≤ y by omega)
  | some c =>
    simp only [Image.blobRegion, Image.blobSize] at hy ⊢
    split
    · exact (show x ≤ y by have := Nat.zero_le (pad 0); omega)
    · exact ⟨hx, hy⟩

theorem regions_laidIn {im : Image} (h8 : im.sz * im.symbolSlots % 8 = 0) :
    LaidIn im.o.linkeditStart (im.o.linkeditStart + im.layoutEnd) im.regions := by
  obtain ⟨e₁, e₂, e₃, e₄, e₅, e₆, e₇, e₈⟩ := starts_eq im
  have hsym : pad (im.sz * im.symbolSlots) = im.sz * im.symbolSlots := by
    unfold pad
    omega
  have hb := blobRegion_laidIn im
  unfold Image.regions
  refine .append (y := im.o.linkeditStart + im.indirectStart)
    (.append (y := im.o.linkeditStart + im.dataInCodeStart)
      (.append (y := im.o.linkeditStart + im.functionStartsStart)
        (.append (y := im.o.linkeditStart + im.symbolsStart)
          (.append (y := im.o.linkeditStart + im.lazyBindStart)
            (.append (y := im.o.linkeditStart + im.weakBindStart)
              (hb _ _ _ _ ?_ ?_) (hb _ _ _ _ ?_ ?_)) (hb _ _ _ _ ?_ ?_))
          ⟨?_, ?_⟩) (hb _ _ _ _ ?_ ?_)) (hb _ _ _ _ ?_ ?_)) ⟨?_, ?_, ?_⟩
  all_goals first | omega | (simp only [LinkeditData.dataEnd, LaidIn]; omega)

/-- A registry laid out end to end: sorted by data pointer, pairwise non-overlapping, each
region at an offset from the LINKEDIT start that is a multiple of 8 with a size that is a
multiple of 8, and the last one ending `cursor` bytes past the start. -/
def TrackedLayout (t : LinkeditTracker) (cursor : ℕ) : Prop :=
  t.trackingData.Pairwise (fun a b => a.data ≤ b.data) ∧
    t.trackingData.Pairwise (fun a b => a.dataEnd ≤ b.data ∨ b.dataEnd ≤ a.data) ∧
    (∀ d ∈ t.trackingData, t.linkeditStart ≤ d.data ∧ (d.data - t.linkeditStart) % 8 = 0 ∧
      d.dataSize % 8 = 0) ∧
    t.trackingData.getLast?.map LinkeditData.dataEnd = some (t.linkeditStart + cursor)

theorem blobRegion_aligned (im : Image) (cmd : Option ℕ) (offField sizeField start : ℕ)
    (hstart : start % 8 = 0) :
    ∀ d ∈ im.blobRegion cmd offField sizeField start,
      (d.data - im.o.linkeditStart) % 8 = 0 ∧ d.dataSize % 8 = 0 := by
  cases cmd with
  | none => simp [Image.blobRegion]
  | some c =>
    simp only [Image.blobRegion]
    split
    · simp
    · simp only [List.mem_singleton, forall_eq, Nat.add_sub_cancel_left]
      exact ⟨hstart, pad_mod _⟩

theorem regions_aligned {im : Image} (h8 : im.sz * im.symbolSlots % 8 = 0) :
    ∀ d ∈ im.regions, (d.data - im.o.linkeditStart) % 8 = 0 ∧ d.dataSize % 8 = 0 := by
  obtain ⟨e₁, e₂, e₃, e₄, e₅, e₆, e₇, e₈⟩ := starts_eq im
  have := pad_mod (im.blobSize im.o.dyldInfo bindSize)
  have := pad_mod (im.blobSize im.o.dyldInfo weakBindSize)
  have := pad_mod (im.blobSize im.o.dyldInfo lazyBindSize)
  have := pad_mod (im.blobSize im.functionStarts datasize)
  have := pad_mod (im.blobSize im.dataInCode datasize)
  have := pad_mod (4 * im.nIndirect)
  intro d hd
  simp only [Image.regions, List.mem_append, List.mem_cons, List.mem_singleton,
    List.not_mem_nil, or_false] at hd
  rcases hd with ((((((h | h) | h) | rfl) | h) | h) | rfl | rfl)
  all_goals first
    | exact blobRegion_aligned im _ _ _ _ (by omega) d h
    | (simp only [Nat.add_sub_cancel_left]; exact ⟨by omega, pad_mod _⟩)

/-- With a non-empty indirect table the string pool's region is tracked last, past every
other region, and ends at the layout's end. -/
theorem registry_last {im : Image} (h8 : im.sz * im.symbolSlots % 8 = 0)
    (hn : im.nIndirect ≠ 0) :
    (trackAll [] im.regions).getLast?.map LinkeditData.dataEnd =
      some (im.o.linkeditStart + im.layoutEnd) := by
  have hI : 8 ≤ pad (4 * im.nIndirect) := by
    unfold pad
    omega
  have hl := (regions_laidIn h8).pairwise
  have e₈ := (starts_eq im).2.2.2.2.2.2.1
  unfold Image.regions at hl ⊢
  rw [List.pairwise_append] at hl
  obtain ⟨-, -, hfront⟩ := hl
  rw [trackAll_append]
  simp only [trackAll, List.foldl_cons, List.foldl_nil]
  rw [insertByData_of_lt]
  · simp [LinkeditData.dataEnd, Image.layoutEnd, Nat.add_assoc]
  · intro x hx
    rcases mem_insertByData.mp hx with rfl | hx
    · simp only
      omega
    · have := hfront x ((mem_trackAll.mp hx).resolve_left (List.not_mem_nil _)) _
        (List.mem_cons_self _ _)
      simp only [LinkeditData.dataEnd] at this ⊢
      omega

section Returned

variable {im : Image} {seg : ℕ} {t₀ : LinkeditTracker} {flag₀ : Bool} {r : Run}
  (h : Returned im seg t₀ flag₀ r)
include h

theorem trackingData_eq : r.tracker.trackingData = trackAll [] im.regions := by
  rw [h.laid.tracker]
  simp [withTracked, h.tracker₀.1]

theorem trackedLayout (h8 : im.sz * im.symbolSlots % 8 = 0) (hn : im.nIndirect ≠ 0) :
    TrackedLayout r.tracker r.offset := by
  unfold TrackedLayout
  rw [trackingData_eq h, tracker_linkeditStart h, h.laid.offset]
  refine ⟨trackAll_sorted List.sorted_nil im.regions,
    ((trackAll_perm [] im.regions).pairwise_iff Or.symm).mpr
      ((regions_laidIn h8).pairwise.imp Or.inl), fun d hd => ?_, registry_last h8 hn⟩
  have hd' := (mem_trackAll.mp hd).resolve_left (List.not_mem_nil _)
  exact ⟨(regions_within im d hd').1, regions_aligned h8 d hd'⟩

end Returned

theorem tracked_layout_aligned {eCtx : ExtractionContext} {pg : Pages} {im : Image} {seg : ℕ}
    (hr : Runs eCtx pg im seg) (h8 : im.sz * im.symbolSlots % 8 = 0) (hn : im.nIndirect ≠ 0) :
    ∃ r, optimizeLinkedit eCtx pg = .ok r ∧ TrackedLayout r.tracker r.offset := by
  obtain ⟨t₀, r, -, hok, h⟩ := hr.returns
  exact ⟨r, hok, trackedLayout h h8 hn⟩

theorem tracked_layout_aligned_exported :
    IndirectTable.exportedImage.sz * IndirectTable.exportedImage.symbolSlots % 8 = 0 ∧
      IndirectTable.exportedImage.nIndirect ≠ 0 ∧
      ∃ r, optimizeLinkedit (flatExtraction .pointer64 flatCommands 32)
        IndirectTable.exportedPages = .ok r ∧ TrackedLayout r.tracker r.offset :=
  ⟨by decide, by decide,
    tracked_layout_aligned IndirectTable.exportedImage_runs (by decide) (by decide)⟩

def flatHeader32 (fields : List (ℕ × ℕ)) : Mem :=
  writeLog (fun _ => 0) ([(32, lcSegment), (36, 56), (56, 0x100), (60, 0x40),
    (104, lcSymtab), (108, 24), (128, lcDysymtab), (132, 80)] ++ fields)

/-- A flat 32-bit image with one exported symbol `_f` and no indirect table: one 12-byte
entry. -/
def oddPages : Pages :=
  ⟨flatHeader32 [(112, 0x100), (116, 1), (120, 0x110), (124, 4), (144, 0), (148, 1)],
    writeLog (fun _ => 0) [(0x100, 1), (0x104, 0x0f), (0x110, 0x665f00)]⟩

def oddImage : Image := flatImage .pointer32 flatCommands 32 104 128 oddPages

theorem oddImage_runs : Runs (flatExtraction .pointer32 flatCommands 32) oddPages oddImage 32 :=
  flat_runs rfl (by unfold Apart; decide) (by decide) (by decide)
    (by unfold Image.CursorFits; decide) (by decide)

/-- The symbol table is tracked as `[0, 16)`, and the string pool is laid at 12, inside it
and off the 8-byte grid. -/
theorem odd_symbol_count_overlaps :
    ∃ r, optimizeLinkedit (flatExtraction .pointer32 flatCommands 32) oddPages = .ok r ∧
      ¬ TrackedLayout r.tracker r.offset ∧
      ⟨104 + symoff, oddImage.o.linkeditStart, 16⟩ ∈ r.tracker.trackingData ∧
      ⟨104 + stroff, oddImage.o.linkeditStart + 12, 8⟩ ∈ r.tracker.trackingData := by
  obtain ⟨t₀, r, -, hok, h⟩ := oddImage_runs.returns
  refine ⟨r, hok, ?_⟩
  unfold TrackedLayout
  rw [trackingData_eq h, tracker_linkeditStart h, h.laid.offset]
  decide

/-- A verbatim pass's region after a run: when the command's size field is not zero, the
region is tracked at some offset `o` of LINKEDIT and ends by the final cursor; LINKEDIT holds
there the command's bytes from the old LINKEDIT, then zeros up to the padded size. -/
def VerbatimAt (im : Image) (r : Run) (cmd : Option ℕ) (offField sizeField : ℕ) : Prop :=
  ∀ c, cmd = some c → read32 im.hdr (c + sizeField) ≠ 0 →
    ∃ o, ⟨c + offField, im.o.linkeditStart + o, pad (read32 im.hdr (c + sizeField))⟩ ∈
        r.tracker.trackingData ∧
      o + read32 im.hdr (c + sizeField) ≤ r.offset ∧
      (∀ j < read32 im.hdr (c + sizeField), r.pages.lnk (im.o.linkeditStart + o + j) =
        im.lnk (im.o.linkeditFile + read32 im.hdr (c + offField) + j)) ∧
      ∀ j, read32 im.hdr (c + sizeField) ≤ j → j < pad (read32 im.hdr (c + sizeField)) →
        r.pages.lnk (im.o.linkeditStart + o + j) = 0

section Returned

variable {im : Image} {seg : ℕ} {t₀ : LinkeditTracker} {flag₀ : Bool} {r : Run}
  (h : Returned im seg t₀ flag₀ r)
include h

theorem verbatimAt {cmd : Option ℕ} {offField sizeField start : ℕ}
    (hblob : BlobAt im r.newLinkedit cmd offField sizeField start)
    (hsub : im.blobRegion cmd offField sizeField start ⊆ im.regions) :
    VerbatimAt im r cmd offField sizeField := by
  intro c hc hne
  have hd : ⟨c + offField, im.o.linkeditStart + start, pad (read32 im.hdr (c + sizeField))⟩ ∈
      im.regions := hsub (by simp [Image.blobRegion, hc, hne])
  have hw := regions_within im _ hd
  simp only [Nat.add_sub_cancel_left] at hw
  have hsize := le_pad (read32 im.hdr (c + sizeField))
  obtain ⟨hbytes, hzero⟩ := hblob c hc
  refine ⟨start, (mem_trackingData h).mpr hd, by rw [h.laid.offset]; omega, fun j hj => ?_,
    fun j hj hj' => ?_⟩
  · rw [Nat.add_assoc, h.lnk_at (by omega), hbytes j hj]
  · rw [Nat.add_assoc, h.lnk_at (by omega), hzero j hj hj']

end Returned

theorem verbatim_regions_copied {eCtx : ExtractionContext} {pg : Pages} {im : Image} {seg : ℕ}
    (hr : Runs eCtx pg im seg) :
    ∃ r, optimizeLinkedit eCtx pg = .ok r ∧
      VerbatimAt im r im.o.dyldInfo bindOff bindSize ∧
      VerbatimAt im r im.o.dyldInfo weakBindOff weakBindSize ∧
      VerbatimAt im r im.o.dyldInfo lazyBindOff lazyBindSize ∧
      VerbatimAt im r im.functionStarts dataoff datasize ∧
      VerbatimAt im r im.dataInCode dataoff datasize := by
  obtain ⟨t₀, r, -, hok, h⟩ := hr.returns
  obtain ⟨h₁, h₂, h₃, -, h₅, h₆, -⟩ := regions_parts im
  exact ⟨r, hok, verbatimAt h h.laid.bind h₁, verbatimAt h h.laid.weakBind h₂,
    verbatimAt h h.laid.lazyBind h₃, verbatimAt h h.laid.functionStarts h₅,
    verbatimAt h h.laid.dataInCode h₆⟩

theorem verbatim_regions_copied_exported :
    ∃ r, optimizeLinkedit (flatExtraction .pointer64 flatCommands 32)
      IndirectTable.exportedPages = .ok r ∧
      VerbatimAt IndirectTable.exportedImage r IndirectTable.exportedImage.o.dyldInfo
        bindOff bindSize ∧
      VerbatimAt IndirectTable.exportedImage r IndirectTable.exportedImage.o.dyldInfo
        weakBindOff weakBindSize ∧
      VerbatimAt IndirectTable.exportedImage r IndirectTable.exportedImage.o.dyldInfo
        lazyBindOff lazyBindSize ∧
      VerbatimAt IndirectTable.exportedImage r IndirectTable.exportedImage.functionStarts
        dataoff datasize ∧
      VerbatimAt IndirectTable.exportedImage r IndirectTable.exportedImage.dataInCode
        dataoff datasize :=
  verbatim_regions_copied IndirectTable.exportedImage_runs

/-- A flat image with an `LC_DYLD_INFO_ONLY` at 208 whose only stream is an 8-byte export
trie at the start of its LINKEDIT. -/
def exportInfoPages : Pages :=
  ⟨flatHeader 0x100 0x40 [(208, lcDyldInfoOnly), (212, dyldInfoCommandSize),
    (208 + exportOff, 0x100), (208 + exportSize, 8)], writeLog (fun _ => 0) [(0x100, 0x0d0c0b0a)]⟩

def exportInfoImage : Image := flatImage .pointer64 dyldInfoCommands 32 104 128 exportInfoPages

theorem exportInfoImage_runs :
    Runs (flatExtraction .pointer64 dyldInfoCommands 32) exportInfoPages exportInfoImage 32 :=
  flat_runs rfl (by unfold Apart; decide) (by decide) (by decide)
    (by unfold Image.CursorFits; decide) (by decide)

/-- The export trie is 8 bytes long, no tracked region is named by its field, and the field
still names offset `0x100`, where the rebuilt LINKEDIT now holds the string pool's zeros. -/
theorem export_info_untracked :
    ∃ r, optimizeLinkedit (flatExtraction .pointer64 dyldInfoCommands 32) exportInfoPages = .ok r ∧
      exportInfoImage.o.exportInfo exportInfoImage.hdr = some (0x100, 8, 208 + exportOff) ∧
      (∀ d ∈ r.tracker.trackingData, d.offset ≠ 208 + exportOff) ∧
      read32 r.pages.hdr (208 + exportOff) = 0x100 ∧ exportInfoImage.o.linkeditStart = 0x100 ∧
      read32 exportInfoPages.lnk 0x100 = 0x0d0c0b0a ∧ read32 r.pages.lnk 0x100 = 0 := by
  obtain ⟨t₀, r, -, hok, h⟩ := exportInfoImage_runs.returns
  have hregions : ∀ d ∈ exportInfoImage.regions, d.offset ≠ 208 + exportOff := by decide
  have hL : exportInfoImage.layoutEnd = 8 ∧ exportInfoImage.poolStart = 0 ∧
      exportInfoImage.poolLength = 1 := by decide
  have hz : ∀ x < 4, r.newLinkedit x = 0 := fun x hx => by
    rcases Nat.eq_zero_or_pos x with rfl | hx₀
    · have hc := h.laid.strings ([], 0) (by decide) 1 Nat.one_pos
      rw [hL.2.1] at hc
      by_contra hne
      simp [cstr, hne] at hc
    · exact h.laid.poolPad x (by omega) (by omega)
  refine ⟨r, hok, by decide, fun d hd => hregions d ((mem_trackingData h).mp hd), ?_, rfl,
    by decide, ?_⟩
  · rw [h.read32_unstored (k := .dyldInfo) (c := 208) (by decide) (by decide) (by decide)]
    decide
  · rw [show (0x100 : ℕ) = exportInfoImage.o.linkeditStart + 0 from rfl, read32,
      h.readLE_lnk (by omega)]
    exact (readLE_congr 4 fun i hi => hz (0 + i) (by omega)).trans (readLE_zero 0 4)

def references (im : Image) : List (ℕ × ℕ) :=
  ((im.o.exportInfo im.hdr).map fun e => (read32 im.hdr e.2.2, e.2.1)).toList ++
    (rewritten im im.hdr).map fun p => (read32 im.hdr p.1, p.2)

/-- The references lie in the `vmsize` bytes of the original LINKEDIT, pairwise apart. -/
def ReferencesApart (im : Image) (vmsize : ℕ) : Prop :=
  (∀ p ∈ references im, im.o.linkeditOffset ≤ p.1 ∧ p.1 + p.2 ≤ im.o.linkeditOffset + vmsize) ∧
    (references im).Pairwise fun p q => p.1 + p.2 ≤ q.1 ∨ q.1 + q.2 ≤ p.1

/-- The final cursor is the layout's end: every write into the scratch buffer lies below it,
the segment's `vmsize` becomes it, and the copy back writes only the first that many bytes of
LINKEDIT. -/
theorem cursor_is_layout_end {eCtx : ExtractionContext} {pg : Pages} {im : Image} {seg : ℕ}
    (hr : Runs eCtx pg im seg) :
    ∃ r, optimizeLinkedit eCtx pg = .ok r ∧ r.offset = im.layoutEnd ∧ r.extent ≤ r.offset ∧
      readLE r.pages.hdr (seg + im.o.width.vmsizeOff) im.o.width.addrSize = r.offset ∧
      ∀ x, x < im.o.linkeditStart ∨ im.o.linkeditStart + r.offset ≤ x →
        r.pages.lnk x = im.lnk x := by
  obtain ⟨t₀, r, -, hok, h⟩ := hr.returns
  refine ⟨r, hok, h.laid.offset, h.laid.offset ▸ h.extent, h.laid.offset ▸ h.vmsize,
    fun x hx => ?_⟩
  rw [h.lnk, copy_of_apart _ _ _ _ _ (h.laid.offset ▸ hx)]

theorem cursor_is_layout_end_exported :
    ∃ r, optimizeLinkedit (flatExtraction .pointer64 flatCommands 32)
      IndirectTable.exportedPages = .ok r ∧ r.offset = IndirectTable.exportedImage.layoutEnd ∧
      r.extent ≤ r.offset ∧
      readLE r.pages.hdr (32 + PointerWidth.pointer64.vmsizeOff) PointerWidth.pointer64.addrSize =
        r.offset ∧
      ∀ x, x < IndirectTable.exportedImage.o.linkeditStart ∨
          IndirectTable.exportedImage.o.linkeditStart + r.offset ≤ x →
        r.pages.lnk x = IndirectTable.exportedImage.lnk x :=
  cursor_is_layout_end IndirectTable.exportedImage_runs

/-- A flat image whose 8-byte LINKEDIT holds only an indirect table of two zero entries: the
placeholder and two reserved entries take 48 bytes. -/
def reservedPages : Pages :=
  ⟨flatHeader 0x100 8 [(112, 0x100), (120, 0x100), (184, 0x100), (188, 2)], fun _ => 0⟩

def reservedImage : Image := flatImage .pointer64 flatCommands 32 104 128 reservedPages

theorem reservedImage_prepared :
    Prepared (flatExtraction .pointer64 flatCommands 32) reservedPages reservedImage 32 :=
  flat_prepared rfl (by unfold Apart; decide) (by decide) (by decide)
    (by unfold Image.CursorFits; decide)

theorem reserved_entries_overflow :
    ReferencesApart reservedImage
        (readLE reservedPages.hdr (32 + PointerWidth.pointer64.vmsizeOff) 8) ∧
      readLE reservedPages.hdr (32 + PointerWidth.pointer64.vmsizeOff) 8 = 8 ∧
      reservedImage.layoutEnd = 72 ∧
      optimizeLinkedit (flatExtraction .pointer64 flatCommands 32) reservedPages =
        .error .bufferOverrun :=
  ⟨by unfold ReferencesApart; decide, by decide, by decide,
    reservedImage_prepared.overruns (by decide)⟩

end DyldLinkedit.Regions
