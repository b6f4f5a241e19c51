import DyldLinkedit.Capacity
import DyldLinkedit.TrackerInvariant
import DyldLinkedit.CommandWalk
import DyldLinkedit.LinkeditBytes

/-!
# From the optimizer to later tracker calls

`optimizeLinkedit` leaves `eCtx.linkeditTracker` to the converters that run after it, which
insert load commands and LINKEDIT data through it. `TrackerInvariant` says what a sequence of
ready calls keeps from a state in the invariant; here the optimizer's result is shown to be
such a state, when its layout fits the original `vmsize` and the load commands lie where the
mach header's `sizeofcmds` says: the registry is packed and its fields are non-overlapping
words of the load commands.

So every region the optimizer tracked stays tracked through any sequence of ready calls,
wherever the calls move it, and its field keeps naming its place as the optimizer wrote it:
`_linkeditOffset` plus the region's offset in LINKEDIT, modulo 2^32.

With an empty indirect table the registry is not packed: its last entry is the table's empty
region at the string pool's start, so the capacity check of `insertLinkeditData` measures from
there, and an insertion after the pool passes it and files a region past `linkeditEnd`.
-/

set_option autoImplicit false

namespace DyldLinkedit.Handoff
open DyldLinkedit.Memory DyldLinkedit.MachO DyldLinkedit.Tracker DyldLinkedit.Registry
  DyldLinkedit.Optimizer DyldLinkedit.Layout DyldLinkedit.Commands DyldLinkedit.Pipeline
  DyldLinkedit.Result DyldLinkedit.Insertion DyldLinkedit.Offsets DyldLinkedit.Capacity
  DyldLinkedit.TrackerInvariant DyldLinkedit.CommandWalk DyldLinkedit.LinkeditBytes

/-- A region's field names the region's place as a file offset from `lo`, modulo 2^32. -/
def Names (lo ls : ℕ) (hdr : Mem) (d : LinkeditData) : Prop := fieldValue ls hdr d ≡ lo [ZMOD 2 ^ 32]

/-- From a state in the invariant, a sequence of ready calls keeps the invariant, and takes
every tracked region whose field names it to a tracked region whose field still names it. -/
theorem run_names (lo : ℕ) {ops : List Op} {t : LinkeditTracker} {pg : Pages}
    (hI : Inv t pg.hdr) (hS : Safe ops t pg) :
    Inv (run ops t pg).1 (run ops t pg).2.hdr ∧
      ∀ d ∈ t.trackingData, Names lo t.linkeditStart pg.hdr d →
        follow ops t pg d ∈ (run ops t pg).1.trackingData ∧
          Names lo t.linkeditStart (run ops t pg).2.hdr (follow ops t pg d) := by
  induction ops generalizing t pg with
  | nil => exact ⟨hI, fun d hd hv => ⟨hd, hv⟩⟩
  | cons op ops ih =>
    obtain ⟨hI', hC, hls⟩ := Op.step hI op hS.1
    obtain ⟨hI'', hN⟩ := ih hI' hS.2
    refine ⟨hI'', fun d hd hv => ?_⟩
    obtain ⟨hd', hsame⟩ := hC d hd
    rw [← hls]
    exact hN _ hd' (by rw [hls]; exact hsame.symm.trans hv)

theorem names_iff {lo ls : ℕ} {hdr : Mem} {d : LinkeditData} :
    Names lo ls hdr d ↔ (read32 hdr d.offset : ℤ) ≡ lo + (d.data - ls : ℕ) [ZMOD 2 ^ 32] := by
  unfold Names fieldValue
  constructor
  · intro h
    simpa using h.add_right ((d.data - ls : ℕ) : ℤ)
  · intro h
    simpa using h.sub_right ((d.data - ls : ℕ) : ℤ)

/-- The load commands lie past the mach header, inside the `sizeofcmds` bytes it gives them. -/
def CommandsInside (im : Image) : Prop :=
  ∀ lc ∈ im.o.mCtx.loadCommands, im.o.mCtx.header + im.o.width.headerSize ≤ lc ∧
    lc + read32 im.hdr (lc + cmdsizeOff) ≤
      im.o.mCtx.header + im.o.width.headerSize + read32 im.hdr (im.o.mCtx.header + sizeofcmdsOff)

theorem sizeofcmds_lt_headerSize (P : PointerWidth) : sizeofcmdsOff + 4 ≤ P.headerSize := by
  cases P <;> decide

theorem make_commandsStart {P : PointerWidth} {mCtx : MachoContext} {hdr : Mem}
    {t : LinkeditTracker} (h : LinkeditTracker.make P mCtx hdr = .ok t) :
    t.header = mCtx.header ∧ t.commandsStart = mCtx.header + P.headerSize := by
  unfold LinkeditTracker.make at h
  split at h
  · cases h
  · split at h
    · cases h
    · cases h
      exact ⟨rfl, rfl⟩

theorem runs_commandsStart {eCtx : ExtractionContext} {pg : Pages} {im : Image} {seg : ℕ}
    (hr : Runs eCtx pg im seg) {t₀ : LinkeditTracker}
    (hmk : LinkeditTracker.make eCtx.width eCtx.mCtx pg.hdr = .ok t₀) :
    t₀.header = im.o.mCtx.header ∧ t₀.commandsStart = im.o.mCtx.header + im.o.width.headerSize := by
  obtain ⟨-, ho, -⟩ := imageOf_eq hr.image
  rw [ho]
  exact make_commandsStart hmk

section Returned

variable {im : Image} {seg : ℕ} {t₀ : LinkeditTracker} {flag₀ : Bool} {r : Run}
  (h : Returned im seg t₀ flag₀ r) (hin : CommandsInside im)
include h hin

theorem log_inside {w : ℕ × ℕ} (hw : w ∈ im.log) :
    im.o.mCtx.header + im.o.width.headerSize ≤ w.1 ∧
      w.1 + 4 ≤ im.o.mCtx.header + im.o.width.headerSize +
        read32 im.hdr (im.o.mCtx.header + sizeofcmdsOff) := by
  obtain ⟨k, f, c, hk, hc, he⟩ := log_storesIn im w hw
  have hf := logFields_slot _ hk
  have hsz := h.placed.inside hc
  have hc' := hin c (h.placed.mem k c hc).1
  unfold Cmd.Slot at hf
  dsimp only at hf
  rw [he]
  omega

theorem header_kept {f : ℕ} (hH : f + 4 ≤ im.o.width.headerSize) :
    read32 r.pages.hdr (im.o.mCtx.header + f) = read32 im.hdr (im.o.mCtx.header + f) := by
  have hseg := (hin seg h.segment.1).1
  rw [h.hdr, read32, readLE_writeLE_of_apart _ _ (by unfold Apart; omega),
    readLE_writeLE_of_apart _ _ (by unfold Apart; omega)]
  exact read32_writeLog_of_apart fun w hw => by
    have := (log_inside h hin hw).1
    unfold Apart
    omega

theorem fieldsIn_of_returned (hmk : t₀.header = im.o.mCtx.header ∧
      t₀.commandsStart = im.o.mCtx.header + im.o.width.headerSize) :
    FieldsIn r.tracker r.pages.hdr := by
  have hst : r.tracker.header = im.o.mCtx.header ∧
      r.tracker.commandsStart = im.o.mCtx.header + im.o.width.headerSize := by
    rw [h.laid.tracker]
    exact hmk
  have hstores : im.regions.Pairwise fun a b => Apart a.offset 4 b.offset 4 :=
    List.pairwise_map.mp (((log_storesOnce im).pairwise h.placed logFields_slot
      (by decide)).sublist (regions_sublist_log im))
  refine ⟨((trackingData_perm h).pairwise_iff fun hab => Or.symm hab).mpr hstores,
    fun d hd => ?_, ?_⟩
  · have hw := log_inside h hin ((regions_sublist_log im).subset
      (List.mem_map_of_mem (fieldStore im) ((mem_trackingData h).mp hd)))
    simp only [commandsEnd, hst.1, hst.2, header_kept h hin (sizeofcmds_lt_headerSize _)]
    exact hw
  · rw [hst.1, hst.2]
    have := sizeofcmds_lt_headerSize im.o.width
    omega

/-- The tracker and header a run leaves are in the tracker's invariant when the layout fits
the original `vmsize`. -/
theorem inv_of_returned (hmk : t₀.header = im.o.mCtx.header ∧
      t₀.commandsStart = im.o.mCtx.header + im.o.width.headerSize)
    (h8 : im.sz * im.symbolSlots % 8 = 0) (hn : im.nIndirect ≠ 0)
    (hfit : im.layoutEnd ≤ readLE im.hdr (seg + im.o.width.vmsizeOff) im.o.width.addrSize) :
    Inv r.tracker r.pages.hdr :=
  { (packed_of_returned h h8 hn hfit).1, fieldsIn_of_returned h hin hmk with }

end Returned

/-- For an image that runs, whose symbol table's size is a multiple of 8, whose indirect table
is not empty, whose layout fits the original `vmsize` and whose load commands lie inside
`sizeofcmds`: the tracker and header `optimizeLinkedit` leaves are in the tracker's invariant,
and after any sequence of calls each ready where it is made, the invariant still holds and
every region the optimizer tracked is still tracked, moved where the calls moved it, with its
field holding `_linkeditOffset` plus the region's offset in LINKEDIT, modulo 2^32. -/
theorem handoff_keeps_fields {eCtx : ExtractionContext} {pg : Pages} {im : Image} {seg : ℕ}
    (hr : Runs eCtx pg im seg) (h8 : im.sz * im.symbolSlots % 8 = 0) (hn : im.nIndirect ≠ 0)
    (hfit : im.layoutEnd ≤ readLE im.hdr (seg + im.o.width.vmsizeOff) im.o.width.addrSize)
    (hin : CommandsInside im) :
    ∃ r, optimizeLinkedit eCtx pg = .ok r ∧ Inv r.tracker r.pages.hdr ∧
      ∀ ops, Safe ops r.tracker r.pages →
        Inv (run ops r.tracker r.pages).1 (run ops r.tracker r.pages).2.hdr ∧
        ∀ d ∈ r.tracker.trackingData,
          follow ops r.tracker r.pages d ∈ (run ops r.tracker r.pages).1.trackingData ∧
          (read32 (run ops r.tracker r.pages).2.hdr (follow ops r.tracker r.pages d).offset : ℤ) ≡
            im.o.linkeditOffset +
              ((follow ops r.tracker r.pages d).data - im.o.linkeditStart : ℕ) [ZMOD 2 ^ 32] := by
  obtain ⟨t₀, r, hmk, hok, h⟩ := hr.returns
  have hI := inv_of_returned h hin (runs_commandsStart hr hmk) h8 hn hfit
  have hls := tracker_linkeditStart h
  refine ⟨r, hok, hI, fun ops hS => ?_⟩
  obtain ⟨hI', hN⟩ := run_names im.o.linkeditOffset hI hS
  refine ⟨hI', fun d hd => ?_⟩
  have hv : Names im.o.linkeditOffset r.tracker.linkeditStart r.pages.hdr d := by
    rw [names_iff, (coherent h).2 d hd, u32]
    push_cast
    exact Int.mod_modEq _ _
  obtain ⟨hd', hv'⟩ := hN d hd hv
  rw [names_iff, hls] at hv'
  exact ⟨hd', hv'⟩

/-- `Capacity.roomyPages` with the mach header's `sizeofcmds` covering the three commands. -/
def handoffPages : Pages :=
  ⟨flatHeader 0x100 0x100 [(sizeofcmdsOff, 176), (112, 0x100), (116, 1), (120, 0x110), (124, 4),
    (144, 0), (148, 1), (184, 0x120), (188, 1)], roomyPages.lnk⟩

def handoffImage : Image := flatImage .pointer64 flatCommands 32 104 128 handoffPages

theorem handoffImage_runs :
    Runs (flatExtraction .pointer64 flatCommands 32) handoffPages handoffImage 32 :=
  flat_runs rfl (by unfold Apart; decide) (by decide) (by decide)
    (by unfold Image.CursorFits; decide) (by decide)

theorem handoff_keeps_fields_roomy :
    handoffImage.sz * handoffImage.symbolSlots % 8 = 0 ∧ handoffImage.nIndirect ≠ 0 ∧
      handoffImage.layoutEnd ≤
        readLE handoffImage.hdr (32 + handoffImage.o.width.vmsizeOff) handoffImage.o.width.addrSize ∧
      CommandsInside handoffImage ∧
      ∃ r, optimizeLinkedit (flatExtraction .pointer64 flatCommands 32) handoffPages = .ok r ∧
        Inv r.tracker r.pages.hdr ∧
        ∀ ops, Safe ops r.tracker r.pages →
          Inv (run ops r.tracker r.pages).1 (run ops r.tracker r.pages).2.hdr ∧
          ∀ d ∈ r.tracker.trackingData,
            follow ops r.tracker r.pages d ∈ (run ops r.tracker r.pages).1.trackingData ∧
            (read32 (run ops r.tracker r.pages).2.hdr (follow ops r.tracker r.pages d).offset : ℤ) ≡
              handoffImage.o.linkeditOffset +
                ((follow ops r.tracker r.pages d).data - handoffImage.o.linkeditStart : ℕ)
                [ZMOD 2 ^ 32] :=
  ⟨by decide, by decide, by decide, by unfold CommandsInside; decide,
    handoff_keeps_fields handoffImage_runs (by decide) (by decide) (by decide)
      (by unfold CommandsInside; decide)⟩

/-- The load commands the context lists are the ones a reader walks from the end of the mach
header, `ncmds` of them, and they end where `sizeofcmds` says. -/
def ListedWalk (im : Image) : Prop :=
  walk im.hdr (im.o.mCtx.header + im.o.width.headerSize)
      (read32 im.hdr (im.o.mCtx.header + ncmdsOff)) = im.o.mCtx.loadCommands ∧
    walkEnd im.hdr (im.o.mCtx.header + im.o.width.headerSize)
      (read32 im.hdr (im.o.mCtx.header + ncmdsOff)) =
      im.o.mCtx.header + im.o.width.headerSize + read32 im.hdr (im.o.mCtx.header + sizeofcmdsOff)

instance (im : Image) : Decidable (ListedWalk im) := inferInstanceAs (Decidable (_ ∧ _))

theorem commandsInside_of_listedWalk {im : Image} (hw : ListedWalk im) : CommandsInside im :=
  fun lc hlc => by
    rw [← hw.1] at hlc
    rw [← hw.2]
    exact walk_bounds hlc

/-- For an image that runs and whose listed load commands are the ones the mach header's walk
reaches: the tracker and header `optimizeLinkedit` leaves parse, each tracked field in the body
of a load command, so every later sequence of calls that is ready and lands keeps them
parsing. -/
theorem handoff_parses {eCtx : ExtractionContext} {pg : Pages} {im : Image} {seg : ℕ}
    (hr : Runs eCtx pg im seg) (hw : ListedWalk im) :
    ∃ r, optimizeLinkedit eCtx pg = .ok r ∧ Parses r.tracker r.pages.hdr := by
  obtain ⟨t₀, r, hmk, hok, h⟩ := hr.returns
  have hin := commandsInside_of_listedWalk hw
  have hst : r.tracker.header = im.o.mCtx.header ∧
      r.tracker.commandsStart = im.o.mCtx.header + im.o.width.headerSize := by
    have h₀ := runs_commandsStart hr hmk
    rw [h.laid.tracker]
    exact h₀
  have hn : ncmds r.tracker r.pages.hdr = read32 im.hdr (im.o.mCtx.header + ncmdsOff) := by
    rw [ncmds, hst.1]
    exact header_kept h hin (by cases im.o.width <;> decide)
  have hcs : ∀ c ∈ im.o.mCtx.loadCommands, cmdsize r.pages.hdr c = cmdsize im.hdr c :=
    fun c hc => readLE_congr 4 fun i hi => by
      rw [cmdsizeOff, Nat.add_assoc]
      exact hdr_head h hc (by omega)
  obtain ⟨e₁, e₂⟩ := walk_congr fun c hc => hcs c (hw.1 ▸ hc)
  have hcmd : commands r.tracker r.pages.hdr = im.o.mCtx.loadCommands := by
    rw [commands, hn, hst.2, e₁, hw.1]
  refine ⟨r, hok, fun c hc => ?_, ?_, fun d hd => ?_⟩
  · rw [hcmd] at hc
    rw [hcs c hc]
    exact (minCommandSize_ge _ _).trans (h.placed.wf.sized c hc)
  · rw [hn, hst.2, e₂, hw.2, commandsEnd, hst.1, hst.2, header_kept h hin (sizeofcmds_lt_headerSize _)]
  · obtain ⟨k, f, c, hk, hc, he⟩ := log_storesIn im _ ((regions_sublist_log im).subset
      (List.mem_map_of_mem (fieldStore im) ((mem_trackingData h).mp hd)))
    have hf := logFields_slot _ hk
    have h8 := logFields_ge _ hk
    have hsz := h.placed.inside hc
    have hmem := (h.placed.mem k c hc).1
    unfold Cmd.Slot at hf
    dsimp only [fieldStore] at he h8 hf
    refine ⟨c, hcmd ▸ hmem, ?_⟩
    rw [hcs c hmem, he]
    unfold cmdsize
    omega

def parsedPages : Pages := ⟨write32 handoffPages.hdr ncmdsOff 3, handoffPages.lnk⟩

def parsedImage : Image := flatImage .pointer64 flatCommands 32 104 128 parsedPages

theorem parsedImage_runs :
    Runs (flatExtraction .pointer64 flatCommands 32) parsedPages parsedImage 32 :=
  flat_runs rfl (by unfold Apart; decide) (by decide) (by decide)
    (by unfold Image.CursorFits; decide) (by decide)

theorem handoff_parses_flat :
    ListedWalk parsedImage ∧
      ∃ r, optimizeLinkedit (flatExtraction .pointer64 flatCommands 32) parsedPages = .ok r ∧
        Parses r.tracker r.pages.hdr :=
  ⟨by decide, handoff_parses parsedImage_runs (by decide)⟩

/-- For an image that runs, whose symbol table's size is a multiple of 8, whose indirect table
is not empty, whose layout fits the original `vmsize` and whose load commands lie inside
`sizeofcmds`: after `optimizeLinkedit` and any later sequence of calls, each ready where it is
made and none inserting a payload of 2^32 - 8 bytes or more, every region the optimizer
tracked holds, where the calls moved it, the bytes of the layout the optimizer wrote for it. -/
theorem optimized_bytes_kept {eCtx : ExtractionContext} {pg : Pages} {im : Image} {seg : ℕ}
    (hr : Runs eCtx pg im seg) (h8 : im.sz * im.symbolSlots % 8 = 0) (hn : im.nIndirect ≠ 0)
    (hfit : im.layoutEnd ≤ readLE im.hdr (seg + im.o.width.vmsizeOff) im.o.width.addrSize)
    (hin : CommandsInside im) :
    ∃ r, optimizeLinkedit eCtx pg = .ok r ∧
      ∀ ops, Safe ops r.tracker r.pages → (∀ op ∈ ops, op.Small) →
        ∀ d ∈ r.tracker.trackingData, ∀ i < d.dataSize,
          (run ops r.tracker r.pages).2.lnk ((follow ops r.tracker r.pages d).data + i) =
            layoutByte im (d.data - im.o.linkeditStart + i) := by
  obtain ⟨t₀, r, hmk, hok, h⟩ := hr.returns
  have hI := inv_of_returned h hin (runs_commandsStart hr hmk) h8 hn hfit
  have hE := (packed_of_returned h h8 hn hfit).2
  have hls := tracker_linkeditStart h
  refine ⟨r, hok, fun ops hS hsmall d hd i hi => ?_⟩
  have hlo := (hI.aligned d hd).1
  have hend := hI.ends d hd
  unfold LinkeditData.dataEnd at hend
  rw [run_keeps_bytes hI hS hsmall d hd i hi,
    show d.data + i = im.o.linkeditStart + (d.data - im.o.linkeditStart + i) by omega]
  exact layout_written h (by omega)

theorem optimized_bytes_kept_roomy :
    handoffImage.sz * handoffImage.symbolSlots % 8 = 0 ∧ handoffImage.nIndirect ≠ 0 ∧
      handoffImage.layoutEnd ≤
        readLE handoffImage.hdr (32 + handoffImage.o.width.vmsizeOff) handoffImage.o.width.addrSize ∧
      CommandsInside handoffImage ∧
      ∃ r, optimizeLinkedit (flatExtraction .pointer64 flatCommands 32) handoffPages = .ok r ∧
        ∀ ops, Safe ops r.tracker r.pages → (∀ op ∈ ops, op.Small) →
          ∀ d ∈ r.tracker.trackingData, ∀ i < d.dataSize,
            (run ops r.tracker r.pages).2.lnk ((follow ops r.tracker r.pages d).data + i) =
              layoutByte handoffImage (d.data - handoffImage.o.linkeditStart + i) :=
  ⟨by decide, by decide, by decide, by unfold CommandsInside; decide,
    optimized_bytes_kept handoffImage_runs (by decide) (by decide) (by decide)
      (by unfold CommandsInside; decide)⟩

/-- The registry sorted by data pointer, its regions apart, on the grid from `linkeditStart`
and inside LINKEDIT, their fields distinct and inside the load commands. -/
def BoundedRegistry (t : LinkeditTracker) (hdr : Mem) : Prop :=
  t.trackingData.Pairwise (fun a b => a.data ≤ b.data) ∧
    t.trackingData.Pairwise (fun a b => Apart a.data a.dataSize b.data b.dataSize) ∧
    (∀ d ∈ t.trackingData, t.linkeditStart ≤ d.data ∧ (d.data - t.linkeditStart) % 8 = 0 ∧
      d.dataSize % 8 = 0 ∧ d.dataEnd ≤ t.linkeditEnd) ∧
    t.trackingData.Pairwise (fun a b => a.offset ≠ b.offset) ∧
    ∀ d ∈ t.trackingData, t.commandsStart ≤ d.offset ∧ d.offset < commandsEnd t hdr

instance (t : LinkeditTracker) (hdr : Mem) : Decidable (BoundedRegistry t hdr) :=
  inferInstanceAs (Decidable (_ ∧ _ ∧ _ ∧ _ ∧ _))

/-- A flat image with one exported symbol `_f`, an empty indirect table, and a LINKEDIT of 32
bytes for its 24-byte layout. -/
def emptyIndirectPages : Pages :=
  ⟨flatHeader 0x100 0x20 [(sizeofcmdsOff, 176), (112, 0x100), (116, 1), (120, 0x110), (124, 4),
    (144, 0), (148, 1)], writeLog (fun _ => 0) [(0x100, 1), (0x104, 0x0f), (0x110, 0x665f00)]⟩

def emptyIndirectImage : Image := flatImage .pointer64 flatCommands 32 104 128 emptyIndirectPages

theorem emptyIndirectImage_runs :
    Runs (flatExtraction .pointer64 flatCommands 32) emptyIndirectPages emptyIndirectImage 32 :=
  flat_runs rfl (by unfold Apart; decide) (by decide) (by decide)
    (by unfold Image.CursorFits; decide) (by decide)

/-- The run tracks the indirect table's empty region after the string pool, at the pool's
start, so the registry's last entry ends 8 bytes before the pool does. Inserting 8 bytes after
the pool passes the capacity check, computes a `memmove` length of -8, and files a region
ending 8 bytes past `linkeditEnd`. -/
theorem empty_indirect_insert_overflows :
    ∃ r, optimizeLinkedit (flatExtraction .pointer64 flatCommands 32) emptyIndirectPages = .ok r ∧
      BoundedRegistry r.tracker r.pages.hdr ∧
      r.tracker.trackingData = [⟨112, 0x100, 16⟩, ⟨120, 0x110, 8⟩, ⟨184, 0x110, 0⟩] ∧
      ∃ c, r.tracker.insertLinkeditData r.pages (some ⟨120, 0x110, 8⟩) ⟨200, 0, 8⟩ (fun _ => 0) = c ∧
        c.1 = true ∧
        (r.tracker.lastDataEnd : ℤ) - (LinkeditData.dataEnd ⟨120, 0x110, 8⟩ : ℕ) = -8 ∧
        ⟨200, 0x118, 16⟩ ∈ c.2.1.trackingData ∧ c.2.1.linkeditEnd < 0x118 + 16 ∧
        ¬ BoundedRegistry c.2.1 c.2.2.hdr := by
  obtain ⟨t₀, r, hmk, hok, h⟩ := emptyIndirectImage_runs.returns
  have hmk' : LinkeditTracker.make .pointer64 (flatContext flatCommands 32) emptyIndirectPages.hdr =
      .ok ⟨0, 32, 2 ^ 32 - 7, 0x100, 0x120, []⟩ := rfl
  have ht₀ : t₀ = ⟨0, 32, 2 ^ 32 - 7, 0x100, 0x120, []⟩ := Except.ok.inj (hmk.symm.trans hmk')
  have htr : r.tracker = ⟨0, 32, 2 ^ 32 - 7, 0x100, 0x120,
      [⟨112, 0x100, 16⟩, ⟨120, 0x110, 8⟩, ⟨184, 0x110, 0⟩]⟩ := by
    rw [h.laid.tracker, ht₀]
    decide
  have hfit : r.tracker.lastDataEnd + insertDelta ⟨200, 0, 8⟩ ≤ r.tracker.linkeditEnd := by
    rw [htr]
    decide
  obtain ⟨h₁, h₂, h₃, -⟩ := @insertLinkeditData_of_fits r.tracker r.pages (some ⟨120, 0x110, 8⟩)
    ⟨200, 0, 8⟩ (fun _ => 0) hfit
  refine ⟨r, hok, ?_, by rw [htr], _, rfl, h₁, by rw [htr]; decide, ?_⟩
  · rw [htr, h.hdr]
    decide
  · rw [h₂, h₃, htr, h.hdr]
    decide

end DyldLinkedit.Handoff
