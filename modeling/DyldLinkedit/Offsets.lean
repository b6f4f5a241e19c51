import DyldLinkedit.SymbolTable

/-!
# The offset fields after a run

Every region a pass tracks is named by a `uint32_t` field of a load command, and the pass
stores `_linkeditOffset + offset` into that field. The stores of `Image.log` include one per
tracked region, so after a run each field holds the region's file offset modulo 2^32, and
the fields are pairwise distinct because the log's stores are.

Only the references the passes rewrite are tracked. `optimizeLinkedit` never calls
`copyExportInfo`, and no pass reads dyld_info's rebase stream or the dysymtab's
relocation, TOC and module tables: those keep the offsets they had, into the old
LINKEDIT that the run overwrites.

Besides those fields a run writes only the `__LINKEDIT` segment's `vmsize` and `filesize`, and
LINKEDIT only up to the final cursor; every load command keeps its `cmd` and `cmdsize`, so the
image stays well formed for the converters that follow.
-/

set_option autoImplicit false

namespace DyldLinkedit.Offsets
open DyldLinkedit.Memory DyldLinkedit.MachO DyldLinkedit.Tracker DyldLinkedit.Registry
  DyldLinkedit.Optimizer DyldLinkedit.Layout DyldLinkedit.Passes DyldLinkedit.Commands
  DyldLinkedit.Pipeline DyldLinkedit.Result

/-- The store a region asks of its offset field: the LINKEDIT's file offset plus the
region's offset in LINKEDIT. -/
def fieldStore (im : Image) (d : LinkeditData) : ℕ × ℕ :=
  (d.offset, im.o.linkeditOffset + (d.data - im.o.linkeditStart))

theorem blobRegion_map (im : Image) (cmd : Option ℕ) (offField sizeField start : ℕ) :
    (im.blobRegion cmd offField sizeField start).map (fieldStore im) =
      im.blobLog cmd offField sizeField start := by
  unfold Image.blobRegion Image.blobLog
  split
  · split <;> simp [fieldStore]
  · rfl

theorem regions_sublist_log (im : Image) : (im.regions.map (fieldStore im)).Sublist im.log := by
  simp only [Image.regions, Image.log, List.map_append, blobRegion_map, List.map_cons,
    List.map_nil, fieldStore, Nat.add_sub_cancel_left, List.append_assoc, List.cons_append,
    List.singleton_append, List.nil_append]
  refine .append_left (.append_left (.append_left ?_ _) _) _
  refine List.sublist_append_of_sublist_right (List.sublist_append_of_sublist_right
    (List.sublist_append_of_sublist_right (.cons₂ _ (.cons _ ?_))))
  exact .append_left (.append_left (.cons₂ _ (.cons₂ _ (List.nil_sublist _))) _) _

/-- The regions name distinct fields. -/
theorem regions_offsets_nodup {im : Image} (hp : Placed im) :
    (im.regions.map LinkeditData.offset).Nodup := by
  have h := ((log_storesOnce im).pairwise hp logFields_slot (by decide)).sublist
    (regions_sublist_log im)
  rw [List.pairwise_map] at h
  rw [List.Nodup, List.pairwise_map]
  exact h.imp fun hab heq => by
    simp only [fieldStore, Apart] at hab
    omega

theorem blobRegion_within (im : Image) (cmd : Option ℕ) (offField sizeField start : ℕ)
    (hend : start + pad (im.blobSize cmd sizeField) ≤ im.layoutEnd) :
    ∀ d ∈ im.blobRegion cmd offField sizeField start, im.o.linkeditStart ≤ d.data ∧
      d.data - im.o.linkeditStart + d.dataSize ≤ im.layoutEnd := by
  cases cmd with
  | none => simp [Image.blobRegion]
  | some c =>
    simp only [Image.blobRegion, Image.blobSize] at hend ⊢
    split
    · simp
    · simp only [List.mem_singleton, forall_eq, Nat.add_sub_cancel_left]
      omega

theorem regions_parts (im : Image) :
    im.blobRegion im.o.dyldInfo bindOff bindSize 0 ⊆ im.regions ∧
    im.blobRegion im.o.dyldInfo weakBindOff weakBindSize im.weakBindStart ⊆ im.regions ∧
    im.blobRegion im.o.dyldInfo lazyBindOff lazyBindSize im.lazyBindStart ⊆ im.regions ∧
    ⟨im.st + symoff, im.o.linkeditStart + im.symbolsStart, pad (im.sz * im.symbolSlots)⟩ ∈
      im.regions ∧
    im.blobRegion im.functionStarts dataoff datasize im.functionStartsStart ⊆ im.regions ∧
    im.blobRegion im.dataInCode dataoff datasize im.dataInCodeStart ⊆ im.regions ∧
    ⟨im.dy + indirectsymoff, im.o.linkeditStart + im.indirectStart, pad (4 * im.nIndirect)⟩ ∈
      im.regions ∧
    ⟨im.st + stroff, im.o.linkeditStart + im.poolStart, pad im.poolLength⟩ ∈ im.regions := by
  unfold Image.regions
  refine ⟨fun x hx => ?_, fun x hx => ?_, fun x hx => ?_, ?_, fun x hx => ?_, fun x hx => ?_,
    ?_, ?_⟩ <;>
  simp only [List.mem_append, List.mem_cons, List.mem_singleton, true_or, or_true, *]

/-- Every region lies in the first `layoutEnd` bytes of LINKEDIT. -/
theorem regions_within (im : Image) :
    ∀ d ∈ im.regions, im.o.linkeditStart ≤ d.data ∧
      d.data - im.o.linkeditStart + d.dataSize ≤ im.layoutEnd := by
  obtain ⟨e₁, e₂, e₃, e₄, e₅, e₆, e₇, e₈⟩ := starts_eq im
  have hpool := pad_le (im.sz * im.symbolSlots)
  have hpos : 8 ≤ pad im.poolLength := by
    have := poolLength_pos im
    unfold pad
    omega
  intro d hd
  simp only [Image.regions, List.mem_append, List.mem_cons, List.mem_singleton,
    List.not_mem_nil, or_false] at hd
  rcases hd with ((((((h | h) | h) | rfl) | h) | h) | rfl | rfl)
  all_goals first
    | exact blobRegion_within im _ _ _ _ (by omega) d h
    | (constructor <;> simp only [Nat.add_sub_cancel_left] <;> omega)

/-- The offset fields of a registry are distinct, and each holds, as a `uint32_t`, the file
offset `lo` of the LINKEDIT plus its region's offset in LINKEDIT. -/
def Coherent (lo : ℕ) (hdr : Mem) (t : LinkeditTracker) : Prop :=
  (t.trackingData.map LinkeditData.offset).Nodup ∧
    ∀ d ∈ t.trackingData, read32 hdr d.offset = u32 (lo + (d.data - t.linkeditStart))

section Returned

variable {im : Image} {seg : ℕ} {t₀ : LinkeditTracker} {flag₀ : Bool} {r : Run}
  (h : Returned im seg t₀ flag₀ r)
include h

theorem trackingData_perm : r.tracker.trackingData.Perm im.regions := by
  rw [h.laid.tracker]
  simpa [withTracked, h.tracker₀.1] using trackAll_perm [] im.regions

theorem mem_trackingData {d : LinkeditData} : d ∈ r.tracker.trackingData ↔ d ∈ im.regions :=
  (trackingData_perm h).mem_iff

theorem tracker_linkeditStart : r.tracker.linkeditStart = im.o.linkeditStart := by
  rw [h.laid.tracker]
  exact h.tracker₀.2.1

theorem read32_region {d : LinkeditData} (hd : d ∈ im.regions) :
    read32 r.pages.hdr d.offset = u32 (im.o.linkeditOffset + (d.data - im.o.linkeditStart)) :=
  h.read32_log ((regions_sublist_log im).subset (List.mem_map_of_mem (fieldStore im) hd))

theorem coherent : Coherent im.o.linkeditOffset r.pages.hdr r.tracker := by
  refine ⟨((trackingData_perm h).map _).nodup_iff.mpr (regions_offsets_nodup h.placed),
    fun d hd => ?_⟩
  rw [tracker_linkeditStart h]
  exact read32_region h ((mem_trackingData h).mp hd)

end Returned

theorem offset_fields_coherent {eCtx : ExtractionContext} {pg : Pages} {im : Image} {seg : ℕ}
    (hr : Runs eCtx pg im seg) :
    ∃ r, optimizeLinkedit eCtx pg = .ok r ∧ Coherent im.o.linkeditOffset r.pages.hdr r.tracker ∧
      (im.o.linkeditOffset + im.layoutEnd < 2 ^ 32 → ∀ d ∈ r.tracker.trackingData,
        read32 r.pages.hdr d.offset = im.o.linkeditOffset + (d.data - r.tracker.linkeditStart)) := by
  obtain ⟨t₀, r, -, hok, h⟩ := hr.returns
  refine ⟨r, hok, coherent h, fun hf d hd => ?_⟩
  have hw := regions_within im d ((mem_trackingData h).mp hd)
  rw [(coherent h).2 d hd, tracker_linkeditStart h, u32_of_lt (by omega)]

theorem offset_fields_coherent_exported :
    ∃ r, optimizeLinkedit (flatExtraction .pointer64 flatCommands 32)
      IndirectTable.exportedPages = .ok r ∧
      Coherent IndirectTable.exportedImage.o.linkeditOffset r.pages.hdr r.tracker ∧
      (IndirectTable.exportedImage.o.linkeditOffset + IndirectTable.exportedImage.layoutEnd <
          2 ^ 32 → ∀ d ∈ r.tracker.trackingData,
        read32 r.pages.hdr d.offset =
          IndirectTable.exportedImage.o.linkeditOffset + (d.data - r.tracker.linkeditStart)) :=
  offset_fields_coherent IndirectTable.exportedImage_runs

/-- A flat image whose LINKEDIT is mapped at file offset 2^32 - 8, with one non-zero indirect
entry: the string pool is laid 8 bytes in, and its offset field wraps to 0. -/
def wrapPages : Pages :=
  ⟨flatHeader (2 ^ 32 - 8) 0x40 [(184, 0x10), (188, 1)], writeLog (fun _ => 0) [(0x10, 5)]⟩

def wrapImage : Image := flatImage .pointer64 flatCommands 32 104 128 wrapPages

theorem wrapImage_runs :
    Runs (flatExtraction .pointer64 flatCommands 32) wrapPages wrapImage 32 :=
  flat_runs rfl (by unfold Apart; decide) (by decide) (by decide)
    (by unfold Image.CursorFits; decide) (by decide)

theorem offset_field_wraps :
    ∃ r, optimizeLinkedit (flatExtraction .pointer64 flatCommands 32) wrapPages = .ok r ∧
      ∃ d ∈ r.tracker.trackingData, read32 r.pages.hdr d.offset ≠
        wrapImage.o.linkeditOffset + (d.data - r.tracker.linkeditStart) := by
  obtain ⟨t₀, r, -, hok, h⟩ := wrapImage_runs.returns
  refine ⟨r, hok, ⟨104 + stroff, wrapImage.o.linkeditStart + 8, 8⟩,
    (mem_trackingData h).mpr (by decide), ?_⟩
  rw [h.read32_log (v := wrapImage.o.linkeditOffset + 8) (by decide), tracker_linkeditStart h]
  decide

def blobRef (cmd : Option ℕ) (offField sizeField : ℕ) (hdr : Mem) : List (ℕ × ℕ) :=
  match cmd with
  | some c => [(c + offField, read32 hdr (c + sizeField))]
  | none => []

/-- The LINKEDIT references the passes rewrite, as (offset field, size in bytes) read from
`hdr`: dyld_info's three binding streams, the symbol, string and indirect tables, function
starts and data in code. -/
def rewritten (im : Image) (hdr : Mem) : List (ℕ × ℕ) :=
  blobRef im.o.dyldInfo bindOff bindSize hdr ++
  blobRef im.o.dyldInfo weakBindOff weakBindSize hdr ++
  blobRef im.o.dyldInfo lazyBindOff lazyBindSize hdr ++
  [(im.st + symoff, im.sz * read32 hdr (im.st + nsyms)),
    (im.st + stroff, read32 hdr (im.st + strsize)),
    (im.dy + indirectsymoff, 4 * read32 hdr (im.dy + nindirectsyms))] ++
  blobRef im.functionStarts dataoff datasize hdr ++
  blobRef im.dataInCode dataoff datasize hdr

section Covered

variable {im : Image} {seg : ℕ} {t₀ : LinkeditTracker} {flag₀ : Bool} {r : Run}
  (h : Returned im seg t₀ flag₀ r)
include h

theorem blobRef_covered {k : Cmd} (offField sizeField start : ℕ) (hs : k.Slot sizeField)
    (hnot : (k, sizeField) ∉ logFields) :
    ∀ p ∈ blobRef (cmdOf im k) offField sizeField r.pages.hdr, p.2 ≠ 0 →
      ∃ d ∈ im.blobRegion (cmdOf im k) offField sizeField start,
        d.offset = p.1 ∧ p.2 ≤ d.dataSize := by
  intro p hp hne
  unfold Image.blobRegion
  cases hc : cmdOf im k with
  | none => simp [blobRef, hc] at hp
  | some c =>
    simp only [blobRef, hc, List.mem_singleton] at hp
    subst hp
    dsimp only at hne ⊢
    rw [h.read32_unstored hc hs hnot] at hne ⊢
    rw [if_neg hne]
    exact ⟨_, List.mem_singleton_self _, rfl, le_pad _⟩

theorem rewritten_covered :
    ∀ p ∈ rewritten im r.pages.hdr, p.2 ≠ 0 → ∃ d ∈ im.regions, d.offset = p.1 ∧ p.2 ≤ d.dataSize := by
  have hslots : im.placeholder + im.copied.length ≤ im.symbolSlots := by
    unfold Image.symbolSlots
    omega
  intro p hp hne
  simp only [rewritten, List.mem_append, List.mem_cons, List.not_mem_nil, or_false] at hp
  obtain ⟨h₁, h₂, h₃, h₄, h₅, h₆, h₇, h₈⟩ := regions_parts im
  rcases hp with (((((hp | hp) | hp) | rfl | rfl | rfl) | hp) | hp)
  · obtain ⟨d, hd, e⟩ := blobRef_covered h (k := .dyldInfo) _ _ 0 (by decide) (by decide) p hp hne
    exact ⟨d, h₁ hd, e⟩
  · obtain ⟨d, hd, e⟩ := blobRef_covered h (k := .dyldInfo) _ _ im.weakBindStart (by decide)
      (by decide) p hp hne
    exact ⟨d, h₂ hd, e⟩
  · obtain ⟨d, hd, e⟩ := blobRef_covered h (k := .dyldInfo) _ _ im.lazyBindStart (by decide)
      (by decide) p hp hne
    exact ⟨d, h₃ hd, e⟩
  · refine ⟨_, h₄, rfl, ?_⟩
    rw [h.output_nsyms]
    exact (Nat.mul_le_mul_left _ hslots).trans (le_pad _)
  · exact ⟨_, h₈, rfl, (h.output_stringsSize).trans_le (le_pad _)⟩
  · refine ⟨_, h₇, rfl, ?_⟩
    rw [show read32 r.pages.hdr (im.dy + nindirectsyms) = im.nIndirect from h.output_nIndirect]
    exact le_pad _
  · obtain ⟨d, hd, e⟩ := blobRef_covered h (k := .functionStarts) _ _ im.functionStartsStart
      (by decide) (by decide) p hp hne
    exact ⟨d, h₅ hd, e⟩
  · obtain ⟨d, hd, e⟩ := blobRef_covered h (k := .dataInCode) _ _ im.dataInCodeStart
      (by decide) (by decide) p hp hne
    exact ⟨d, h₆ hd, e⟩

end Covered

theorem rewritten_references_tracked {eCtx : ExtractionContext} {pg : Pages} {im : Image}
    {seg : ℕ} (hr : Runs eCtx pg im seg) (hf : im.FileFits) :
    ∃ r, optimizeLinkedit eCtx pg = .ok r ∧ ∀ p ∈ rewritten im r.pages.hdr, p.2 ≠ 0 →
      (∃ d ∈ r.tracker.trackingData, d.offset = p.1) ∧
      im.o.linkeditOffset ≤ read32 r.pages.hdr p.1 ∧
      read32 r.pages.hdr p.1 + p.2 ≤ im.o.linkeditOffset +
        readLE r.pages.hdr (seg + im.o.width.vmsizeOff) im.o.width.addrSize := by
  obtain ⟨t₀, r, -, hok, h⟩ := hr.returns
  refine ⟨r, hok, fun p hp hne => ?_⟩
  obtain ⟨d, hd, hoff, hsize⟩ := rewritten_covered h p hp hne
  have hw := regions_within im d hd
  rw [← hoff, read32_region h hd, h.vmsize, u32_of_lt (by unfold Image.FileFits at hf; omega)]
  exact ⟨⟨d, (mem_trackingData h).mpr hd, rfl⟩, by omega, by omega⟩

theorem rewritten_references_tracked_exported :
    ∃ r, optimizeLinkedit (flatExtraction .pointer64 flatCommands 32)
      IndirectTable.exportedPages = .ok r ∧
      ∀ p ∈ rewritten IndirectTable.exportedImage r.pages.hdr, p.2 ≠ 0 →
        (∃ d ∈ r.tracker.trackingData, d.offset = p.1) ∧
        IndirectTable.exportedImage.o.linkeditOffset ≤ read32 r.pages.hdr p.1 ∧
        read32 r.pages.hdr p.1 + p.2 ≤ IndirectTable.exportedImage.o.linkeditOffset +
          readLE r.pages.hdr (32 + PointerWidth.pointer64.vmsizeOff) PointerWidth.pointer64.addrSize :=
  rewritten_references_tracked IndirectTable.exportedImage_runs
    (by unfold Image.FileFits; decide)

def dyldInfoCommands : List ℕ := flatCommands ++ [208]

/-- A flat image with an `LC_DYLD_INFO_ONLY` at 208 whose only streams are 8 bytes of rebase
info and an 8-byte export trie after them. -/
def streamsPages : Pages :=
  ⟨flatHeader 0x100 0x40 [(208, lcDyldInfoOnly), (212, dyldInfoCommandSize),
    (208 + rebaseOff, 0x100), (208 + rebaseSize, 8), (208 + exportOff, 0x108),
    (208 + exportSize, 8)], fun _ => 0⟩

def streamsImage : Image := flatImage .pointer64 dyldInfoCommands 32 104 128 streamsPages

theorem streamsImage_runs :
    Runs (flatExtraction .pointer64 dyldInfoCommands 32) streamsPages streamsImage 32 :=
  flat_runs rfl (by unfold Apart; decide) (by decide) (by decide)
    (by unfold Image.CursorFits; decide) (by decide)

/-- Neither stream is the field of a tracked region: each keeps its size and its offset into
the old LINKEDIT. -/
theorem dyld_info_streams_untracked :
    ∃ r, optimizeLinkedit (flatExtraction .pointer64 dyldInfoCommands 32) streamsPages = .ok r ∧
      streamsImage.o.dyldInfo = some 208 ∧
      ∀ f ∈ [(rebaseOff, rebaseSize), (exportOff, exportSize)],
        read32 r.pages.hdr (208 + f.2) = 8 ∧
        read32 r.pages.hdr (208 + f.1) = read32 streamsPages.hdr (208 + f.1) ∧
        ∀ d ∈ r.tracker.trackingData, d.offset ≠ 208 + f.1 := by
  obtain ⟨t₀, r, -, hok, h⟩ := streamsImage_runs.returns
  have hkept : ∀ f, Cmd.dyldInfo.Slot f → (Cmd.dyldInfo, f) ∉ logFields →
      read32 r.pages.hdr (208 + f) = read32 streamsPages.hdr (208 + f) :=
    fun f hf hnot => h.read32_unstored (k := .dyldInfo) (c := 208) (by decide) hf hnot
  have hfields : ∀ f ∈ [(rebaseOff, rebaseSize), (exportOff, exportSize)],
      Cmd.dyldInfo.Slot f.1 ∧ (Cmd.dyldInfo, f.1) ∉ logFields ∧ Cmd.dyldInfo.Slot f.2 ∧
        (Cmd.dyldInfo, f.2) ∉ logFields ∧ read32 streamsPages.hdr (208 + f.2) = 8 ∧
        ∀ d ∈ streamsImage.regions, d.offset ≠ 208 + f.1 := by decide
  refine ⟨r, hok, by decide, fun f hf => ?_⟩
  obtain ⟨s₁, n₁, s₂, n₂, h8, hd⟩ := hfields f hf
  exact ⟨(hkept _ s₂ n₂).trans h8, hkept _ s₁ n₁, fun d hd' => hd d ((mem_trackingData h).mp hd')⟩

/-- A run changes the load commands only in the fields its passes store to and in the
`__LINKEDIT` segment's `vmsize` and `filesize`, and LINKEDIT only from its start up to the
final cursor. -/
theorem run_footprint {eCtx : ExtractionContext} {pg : Pages} {im : Image} {seg : ℕ}
    (hr : Runs eCtx pg im seg) :
    ∃ r, optimizeLinkedit eCtx pg = .ok r ∧
      (∀ x, r.pages.hdr x ≠ pg.hdr x →
        (∃ p ∈ logFields, ∃ c, cmdOf im p.1 = some c ∧ c + p.2 ≤ x ∧ x < c + p.2 + 4) ∨
        (seg + im.o.width.vmsizeOff ≤ x ∧ x < seg + im.o.width.vmsizeOff + im.o.width.addrSize) ∨
        (seg + im.o.width.filesizeOff ≤ x ∧
          x < seg + im.o.width.filesizeOff + im.o.width.addrSize)) ∧
      ∀ x, r.pages.lnk x ≠ pg.lnk x →
        im.o.linkeditStart ≤ x ∧ x < im.o.linkeditStart + im.layoutEnd := by
  obtain ⟨t₀, r, -, hok, h⟩ := hr.returns
  obtain ⟨-, -, hhdr, hlnk, -⟩ := imageOf_eq hr.image
  refine ⟨r, hok, fun x hx => ?_, fun x hx => ?_⟩
  · by_contra hn
    push_neg at hn
    obtain ⟨hlog, hv, hf⟩ := hn
    refine hx ?_
    rw [h.hdr, writeLE_of_apart _ _ _ _ (by omega), writeLE_of_apart _ _ _ _ (by omega),
      ← hhdr]
    refine writeLog_of_apart fun w hw => ?_
    obtain ⟨k, f, c, hm, hc, he⟩ := log_storesIn im w hw
    have := hlog (k, f) hm c hc
    rw [he]
    omega
  · by_contra hn
    refine hx ?_
    rw [h.lnk, copy_of_apart _ _ _ _ _ (by omega), hlnk]

theorem run_footprint_exported :
    ∃ r, optimizeLinkedit (flatExtraction .pointer64 flatCommands 32)
      IndirectTable.exportedPages = .ok r ∧
      (∀ x, r.pages.hdr x ≠ IndirectTable.exportedPages.hdr x →
        (∃ p ∈ logFields, ∃ c, cmdOf IndirectTable.exportedImage p.1 = some c ∧ c + p.2 ≤ x ∧
          x < c + p.2 + 4) ∨
        (32 + PointerWidth.pointer64.vmsizeOff ≤ x ∧
          x < 32 + PointerWidth.pointer64.vmsizeOff + PointerWidth.pointer64.addrSize) ∨
        (32 + PointerWidth.pointer64.filesizeOff ≤ x ∧
          x < 32 + PointerWidth.pointer64.filesizeOff + PointerWidth.pointer64.addrSize)) ∧
      ∀ x, r.pages.lnk x ≠ IndirectTable.exportedPages.lnk x →
        IndirectTable.exportedImage.o.linkeditStart ≤ x ∧
          x < IndirectTable.exportedImage.o.linkeditStart + IndirectTable.exportedImage.layoutEnd :=
  run_footprint IndirectTable.exportedImage_runs

theorem logFields_ge : ∀ p ∈ logFields, 8 ≤ p.2 := by decide

theorem hdr_head {im : Image} {seg : ℕ} {t₀ : LinkeditTracker} {flag₀ : Bool} {r : Run}
    (h : Returned im seg t₀ flag₀ r) {lc : ℕ} (hlc : lc ∈ im.o.mCtx.loadCommands) {i : ℕ}
    (hi : i < 8) : r.pages.hdr (lc + i) = im.hdr (lc + i) := by
  have hwf := h.placed.wf
  have hl : 8 ≤ read32 im.hdr (lc + cmdsizeOff) :=
    (minCommandSize_ge _ _).trans (hwf.sized lc hlc)
  have hseg : ∀ f n, 8 ≤ f → f + n ≤ im.o.width.segmentSize →
      lc + i < seg + f ∨ seg + f + n ≤ lc + i := fun f n hf hn => by
    by_cases he : seg = lc
    · omega
    · have hd := commands_apart hwf h.segment.1 hlc he
      have hs := hwf.sized seg h.segment.1
      rw [h.segment.2, minCommandSize_segment] at hs
      unfold Apart at hd
      omega
  have hv : 8 ≤ im.o.width.vmsizeOff ∧ 8 ≤ im.o.width.filesizeOff := by
    cases im.o.width <;> decide
  rw [h.hdr, writeLE_of_apart _ _ _ _ (hseg _ _ hv.2 (filesize_le_segmentSize _)),
    writeLE_of_apart _ _ _ _ (hseg _ _ hv.1 (vmsize_le_segmentSize _))]
  refine writeLog_of_apart fun w hw => ?_
  obtain ⟨k, f, c, hm, hc, he⟩ := log_storesIn im w hw
  have hf := logFields_slot _ hm
  have hf8 := logFields_ge _ hm
  unfold Cmd.Slot at hf
  dsimp only at hf hf8
  rw [he]
  by_cases hcl : c = lc
  · omega
  · have hd := commands_apart hwf (h.placed.mem k c hc).1 hlc hcl
    have := h.placed.inside hc
    unfold Apart at hd
    omega

theorem commands_kept {eCtx : ExtractionContext} {pg : Pages} {im : Image} {seg : ℕ}
    (hr : Runs eCtx pg im seg) :
    ∃ r, optimizeLinkedit eCtx pg = .ok r ∧
      (∀ lc ∈ eCtx.mCtx.loadCommands, ∀ i < 8, r.pages.hdr (lc + i) = pg.hdr (lc + i)) ∧
      WellFormed eCtx.width eCtx.mCtx r.pages.hdr ∧
      ∀ ids, eCtx.mCtx.getLoadCommand r.pages.hdr ids = eCtx.mCtx.getLoadCommand pg.hdr ids := by
  obtain ⟨t₀, r, -, hok, h⟩ := hr.returns
  obtain ⟨-, ho, hhdr, -⟩ := imageOf_eq hr.image
  have hm : im.o.mCtx = eCtx.mCtx := by rw [ho]; rfl
  have hhead : ∀ lc ∈ eCtx.mCtx.loadCommands, ∀ i < 8, r.pages.hdr (lc + i) = pg.hdr (lc + i) :=
    fun lc hlc i hi => hhdr ▸ hdr_head h (hm ▸ hlc) hi
  have hcmd : ∀ lc ∈ eCtx.mCtx.loadCommands, read32 r.pages.hdr lc = read32 pg.hdr lc :=
    fun lc hlc => read32_congr fun i hi => hhead lc hlc i (by omega)
  have hsize : ∀ lc ∈ eCtx.mCtx.loadCommands,
      read32 r.pages.hdr (lc + cmdsizeOff) = read32 pg.hdr (lc + cmdsizeOff) :=
    fun lc hlc => read32_congr fun i hi => by
      rw [Nat.add_assoc]
      exact hhead lc hlc _ (by unfold cmdsizeOff; omega)
  have hwf := hr.wf
  refine ⟨r, hok, hhead, ⟨hwf.disjoint.imp_of_mem fun ha hb hab => ?_, fun lc hlc => ?_,
    fun name s hs => ?_⟩, Tables.getLoadCommand_congr _ hcmd⟩
  · rwa [hsize _ ha, hsize _ hb]
  · rw [hcmd lc hlc, hsize lc hlc]
    exact hwf.sized lc hlc
  · obtain ⟨hs₁, hs₂⟩ := hwf.segment name s hs
    exact ⟨hs₁, (hcmd s hs₁).trans hs₂⟩

theorem commands_kept_exported :
    ∃ r, optimizeLinkedit (flatExtraction .pointer64 flatCommands 32)
      IndirectTable.exportedPages = .ok r ∧
      (∀ lc ∈ (flatExtraction .pointer64 flatCommands 32).mCtx.loadCommands, ∀ i < 8,
        r.pages.hdr (lc + i) = IndirectTable.exportedPages.hdr (lc + i)) ∧
      WellFormed .pointer64 (flatExtraction .pointer64 flatCommands 32).mCtx r.pages.hdr ∧
      ∀ ids, (flatExtraction .pointer64 flatCommands 32).mCtx.getLoadCommand r.pages.hdr ids =
        (flatExtraction .pointer64 flatCommands 32).mCtx.getLoadCommand
          IndirectTable.exportedPages.hdr ids :=
  commands_kept IndirectTable.exportedImage_runs

end DyldLinkedit.Offsets
