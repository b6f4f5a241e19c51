import DyldLinkedit.Regions
import DyldLinkedit.Insertion

/-!
# The tracker's capacity after the run

`LinkeditTracker` takes `linkeditEnd` from the `__LINKEDIT` segment's `vmsize` when it is
built, before the passes. `updateLoadCommands` then sets `vmsize` and `filesize` to the final
cursor, and `insertLinkeditData` checks its room against the tracker's bound and never rewrites
the segment command. Right after the run the regions end at the cursor, inside the recorded
`vmsize`; the registry is packed against the original one, and every later insertion keeps it
so. An insertion that finds room there moves the regions past the recorded `vmsize`. The room
a later insertion finds is the room the run freed: the original `vmsize` less the final cursor.
-/

set_option autoImplicit false

namespace DyldLinkedit.Capacity
open DyldLinkedit.Memory DyldLinkedit.MachO DyldLinkedit.Tracker DyldLinkedit.Registry
  DyldLinkedit.Optimizer DyldLinkedit.Layout DyldLinkedit.Pipeline DyldLinkedit.Result
  DyldLinkedit.Offsets DyldLinkedit.Regions DyldLinkedit.Insertion

section Returned

variable {im : Image} {seg : ℕ} {t₀ : LinkeditTracker} {flag₀ : Bool} {r : Run}
  (h : Returned im seg t₀ flag₀ r)
include h

theorem tracker_linkeditEnd :
    r.tracker.linkeditEnd =
      im.o.linkeditStart + readLE im.hdr (seg + im.o.width.vmsizeOff) im.o.width.addrSize := by
  rw [h.laid.tracker]
  exact h.tracker₀.2.2

theorem lastDataEnd_of_returned (h8 : im.sz * im.symbolSlots % 8 = 0) (hn : im.nIndirect ≠ 0) :
    r.tracker.lastDataEnd = im.o.linkeditStart + im.layoutEnd := by
  have hlast := (trackedLayout h h8 hn).2.2.2
  rw [tracker_linkeditStart h, h.laid.offset] at hlast
  obtain ⟨y, hy, hye⟩ := Option.map_eq_some'.mp hlast
  rw [lastDataEnd_of_getLast? hy, hye]

/-- The registry a run leaves ends at the layout's end, and is packed against the original
`vmsize` when the layout fits in it. -/
theorem packed_of_returned (h8 : im.sz * im.symbolSlots % 8 = 0) (hn : im.nIndirect ≠ 0)
    (hfit : im.layoutEnd ≤ readLE im.hdr (seg + im.o.width.vmsizeOff) im.o.width.addrSize) :
    Packed r.tracker ∧ r.tracker.lastDataEnd = im.o.linkeditStart + im.layoutEnd := by
  obtain ⟨hsorted, hapart, haligned, -⟩ := trackedLayout h h8 hn
  rw [tracker_linkeditStart h] at haligned
  have hE := lastDataEnd_of_returned h h8 hn
  have hends : ∀ d ∈ r.tracker.trackingData, d.dataEnd ≤ r.tracker.lastDataEnd := fun d hd => by
    rw [trackingData_eq h] at hd
    rw [hE]
    exact ((regions_laidIn h8).bounds d ((mem_trackAll.mp hd).resolve_left (List.not_mem_nil _))).2
  refine ⟨⟨hsorted, hapart, fun d hd => ?_, hends, ?_⟩, hE⟩
  · rw [tracker_linkeditStart h]
    exact haligned d hd
  · rw [hE, tracker_linkeditEnd h]
    omega

end Returned

/-- The image of `IndirectTable.exportedPages` with a LINKEDIT of 0x100 bytes: one exported
symbol named by the only indirect entry, laid out in 72 bytes. -/
def roomyPages : Pages :=
  ⟨flatHeader 0x100 0x100 [(112, 0x100), (116, 1), (120, 0x110), (124, 4), (144, 0), (148, 1),
    (184, 0x120), (188, 1)],
    writeLog (fun _ => 0) [(0x100, 1), (0x104, 0x0f), (0x110, 0x665f00), (0x120, 0)]⟩

def roomyImage : Image := flatImage .pointer64 flatCommands 32 104 128 roomyPages

theorem roomyImage_runs : Runs (flatExtraction .pointer64 flatCommands 32) roomyPages roomyImage 32 :=
  flat_runs rfl (by unfold Apart; decide) (by decide) (by decide)
    (by unfold Image.CursorFits; decide) (by decide)

/-- Right after a run, `insertLinkeditData` finds exactly the room the run freed: it succeeds
iff the final cursor plus the gap it opens stays within the original `vmsize`. -/
theorem insert_room_after_run {eCtx : ExtractionContext} {pg : Pages} {im : Image} {seg : ℕ}
    (hr : Runs eCtx pg im seg) (h8 : im.sz * im.symbolSlots % 8 = 0) (hn : im.nIndirect ≠ 0) :
    ∃ r, optimizeLinkedit eCtx pg = .ok r ∧ ∀ after data src,
      (r.tracker.insertLinkeditData r.pages after data src).1 = true ↔
        im.layoutEnd + insertDelta data ≤
          readLE im.hdr (seg + im.o.width.vmsizeOff) im.o.width.addrSize := by
  obtain ⟨t₀, r, -, hok, h⟩ := hr.returns
  refine ⟨r, hok, fun after data src => ?_⟩
  have hroom : r.tracker.lastDataEnd + insertDelta data ≤ r.tracker.linkeditEnd ↔
      im.layoutEnd + insertDelta data ≤
        readLE im.hdr (seg + im.o.width.vmsizeOff) im.o.width.addrSize := by
    rw [lastDataEnd_of_returned h h8 hn, tracker_linkeditEnd h]
    omega
  by_cases hfit : r.tracker.lastDataEnd + insertDelta data ≤ r.tracker.linkeditEnd
  · exact iff_of_true (@insertLinkeditData_of_fits _ r.pages after data src hfit).1 (hroom.mp hfit)
  · rw [insertLinkeditData_of_not_fits hfit]
    exact iff_of_false Bool.false_ne_true (mt hroom.mpr hfit)

theorem insert_room_after_run_roomy :
    roomyImage.sz * roomyImage.symbolSlots % 8 = 0 ∧ roomyImage.nIndirect ≠ 0 ∧
      ∃ r, optimizeLinkedit (flatExtraction .pointer64 flatCommands 32) roomyPages = .ok r ∧
        ∀ after data src, (r.tracker.insertLinkeditData r.pages after data src).1 = true ↔
          roomyImage.layoutEnd + insertDelta data ≤
            readLE roomyImage.hdr (32 + roomyImage.o.width.vmsizeOff) roomyImage.o.width.addrSize :=
  ⟨by decide, by decide, insert_room_after_run roomyImage_runs (by decide) (by decide)⟩

end DyldLinkedit.Capacity
