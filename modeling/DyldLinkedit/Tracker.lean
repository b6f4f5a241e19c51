import DyldLinkedit.MachO

/-!
# The LINKEDIT tracker

`LinkeditTracker<P>` keeps one record per LINKEDIT region: the address of the `uint32_t`
field of a load command that names the region, the region's address and its padded size.
Its three operations move load-command bytes, LINKEDIT bytes and the registry together.

The header pages and the LINKEDIT pages are two memories: load commands never alias
LINKEDIT data in an image, and the model keeps that separation structural.
-/

set_option autoImplicit false

namespace DyldLinkedit.Tracker
open DyldLinkedit.Memory DyldLinkedit.MachO

/-- `LinkeditData`: a tracked region. -/
structure LinkeditData where
  offset : ℕ
  data : ℕ
  dataSize : ℕ
  deriving DecidableEq, Repr

/-- End of a region. -/
def LinkeditData.dataEnd (d : LinkeditData) : ℕ := d.data + d.dataSize

/-- `LinkeditTracker<P>`: its fixed bounds and the registry `trackingData`. -/
structure LinkeditTracker where
  header : ℕ
  commandsStart : ℕ
  headerSpaceAvailable : ℕ
  linkeditStart : ℕ
  linkeditEnd : ℕ
  trackingData : List LinkeditData
  deriving DecidableEq, Repr

/-- The writable pages of the image: header and load commands, and LINKEDIT. -/
structure Pages where
  hdr : Mem
  lnk : Mem

/-- The constructor. The header space runs from the end of the mach header to the start
of `__TEXT,__text`; the pointer difference is cast to `uint32_t`. -/
def LinkeditTracker.make (P : PointerWidth) (mCtx : MachoContext) (hdr : Mem) :
    Except String LinkeditTracker :=
  match mCtx.getSection "__TEXT" "__text" with
  | none => .error "Mach-O Context doesn\x27t have a __text sect."
  | some textSect =>
    let textSectStart := mCtx.convertAddrP (readLE hdr (textSect + sectAddrOff) P.addrSize)
    let commandsStart := mCtx.header + P.headerSize
    let headerSpaceAvailable := (((textSectStart : ℤ) - commandsStart) % 2 ^ 32).toNat
    match mCtx.getSegment "__LINKEDIT" with
    | none => .error "Mach-O Context doesn\x27t have a __LINKEDIT segment."
    | some seg =>
      let linkeditStart := mCtx.convertAddrP (readLE hdr (seg + vmaddrOff) P.addrSize)
      .ok ⟨mCtx.header, commandsStart, headerSpaceAvailable, linkeditStart,
        linkeditStart + readLE hdr (seg + P.vmsizeOff) P.addrSize, []⟩

/-- Insertion at the position `std::lower_bound` returns in the sorted registry: before
the first region whose data does not lie below the new one's. -/
def insertByData (d : LinkeditData) : List LinkeditData → List LinkeditData
  | [] => [d]
  | x :: xs => if x.data < d.data then x :: insertByData d xs else d :: x :: xs

/-- `trackData`. -/
def LinkeditTracker.trackData (t : LinkeditTracker) (d : LinkeditData) : LinkeditTracker :=
  { t with trackingData := insertByData d t.trackingData }

/-- The loop of `insertLinkeditData` over the registry: every region whose data lies at or
after `shiftStart` has its field and its data pointer advanced by `shiftDelta`. -/
def shiftTracked (shiftStart shiftDelta : ℕ) : Mem → List LinkeditData → Mem × List LinkeditData
  | hdr, [] => (hdr, [])
  | hdr, d :: ds =>
    if shiftStart ≤ d.data then
      let r := shiftTracked shiftStart shiftDelta
        (write32 hdr d.offset (read32 hdr d.offset + shiftDelta)) ds
      (r.1, { d with data := d.data + shiftDelta } :: r.2)
    else
      let r := shiftTracked shiftStart shiftDelta hdr ds
      (r.1, d :: r.2)

/-- End of the last region of the registry, or the LINKEDIT start when it is empty. -/
def LinkeditTracker.lastDataEnd (t : LinkeditTracker) : ℕ :=
  match t.trackingData.getLast? with
  | some last => last.dataEnd
  | none => t.linkeditStart

/-- `insertLinkeditData(after, data)`, the payload being `data.dataSize` bytes at
`data.data` in the caller's memory `src`. A negative `memmove` length, which the C++
would turn into a huge `size_t`, is zero here. -/
def LinkeditTracker.insertLinkeditData (t : LinkeditTracker) (pg : Pages)
    (after : Option LinkeditData) (data : LinkeditData) (src : Mem) :
    Bool × LinkeditTracker × Pages :=
  let shiftDelta := u32 (data.dataSize + (8 - data.dataSize % 8))
  let lastDataEnd := t.lastDataEnd
  if t.linkeditEnd < lastDataEnd + shiftDelta then (false, t, pg) else
  let shiftStart := match after with
    | some a => a.dataEnd
    | none => t.linkeditStart
  let lnk := copy pg.lnk (shiftStart + shiftDelta) pg.lnk shiftStart (lastDataEnd - shiftStart)
  let moved := shiftTracked shiftStart shiftDelta pg.hdr t.trackingData
  let lnk := fill lnk (shiftStart + shiftDelta - 8) 8 0
  let lnk := copy lnk shiftStart src data.data data.dataSize
  (true, { t with trackingData := insertByData ⟨data.offset, shiftStart, shiftDelta⟩ moved.2 },
    ⟨moved.1, lnk⟩)

/-- `insertLoadCommand(after, lc)` with both commands in the header pages. Every read of
`lc->cmdsize` is made where the source makes it, after the moves before it. -/
def LinkeditTracker.insertLoadCommand (t : LinkeditTracker) (pg : Pages) (after lc : ℕ) :
    Bool × LinkeditTracker × Pages :=
  let sizeofcmds := read32 pg.hdr (t.header + sizeofcmdsOff)
  if t.headerSpaceAvailable < u32 (sizeofcmds + read32 pg.hdr (lc + cmdsizeOff)) then
    (false, t, pg)
  else
  let shiftDelta := read32 pg.hdr (lc + cmdsizeOff)
  let shiftStart := after + read32 pg.hdr (after + cmdsizeOff)
  let shiftEnd := t.commandsStart + sizeofcmds
  let hdr := copy pg.hdr (shiftStart + shiftDelta) pg.hdr shiftStart (shiftEnd - shiftStart)
  let hdr := copy hdr shiftStart hdr lc (read32 hdr (lc + cmdsizeOff))
  let tracked := t.trackingData.map fun d =>
    if shiftStart ≤ d.offset then { d with offset := d.offset + shiftDelta } else d
  let hdr := write32 hdr (t.header + ncmdsOff) (read32 hdr (t.header + ncmdsOff) + 1)
  let hdr := write32 hdr (t.header + sizeofcmdsOff)
    (read32 hdr (t.header + sizeofcmdsOff) + read32 hdr (lc + cmdsizeOff))
  (true, { t with trackingData := tracked }, { pg with hdr := hdr })

end DyldLinkedit.Tracker
