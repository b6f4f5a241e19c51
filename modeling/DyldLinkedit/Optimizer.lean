import DyldLinkedit.Tracker
import DyldLinkedit.StringPool

/-!
# The LINKEDIT optimizer

`optimizeLinkedit` rebuilds LINKEDIT in a scratch buffer of `calloc(vmsize, 1)`. A fixed
sequence of passes advances a `uint32_t` cursor; each pass writes its region at the cursor,
tracks it and points its load-command field at the new place. The buffer is then copied over
the old LINKEDIT and the segment command shrunk to the cursor. A null command pointer that a
pass dereferences, or an access past the buffer, is a crash of the run.
-/

set_option autoImplicit false

namespace DyldLinkedit.Optimizer
open DyldLinkedit.Memory DyldLinkedit.MachO DyldLinkedit.Tracker DyldLinkedit.Strings

/-- Modelled from the spec: `Utils::alignR`, which is not in the sources, pads a
`uint32_t` in place to a multiple of 8 ("Sizes stored for tracking are padded to 8"). -/
def alignR (x : ℕ) : ℕ := u32 ((x + 7) / 8 * 8)

def redactedName : List UInt8 := [60, 114, 101, 100, 97, 99, 116, 101, 100, 62]

example : redactedName = "<redacted>".toList.map fun c => c.toNat.toUInt8 := by decide

/-- A symbol name: the C string at `n_strx` in the string table at `strings`. The source
reads up to the NUL wherever it lies; this scan stops at the end of the table, so the two
agree on every name whose NUL lies inside the table. -/
def nameAt (m : Mem) (strings stringsSize strx : ℕ) : List UInt8 :=
  cstr m (strings + strx) (stringsSize - strx)

def grow (e a n : ℕ) : ℕ := if n = 0 then e else max e (a + n)

/-- The parts of `Utils::ExtractionContext<P>` the optimizer reads (the class is declared
outside the sources); `hasRedactedIndirect` is the flag's value on entry. -/
structure ExtractionContext where
  width : PointerWidth
  mCtx : MachoContext
  dCtx : DyldContext
  hasRedactedIndirect : Bool

structure LinkeditOptimizer where
  width : PointerWidth
  mCtx : MachoContext
  dCtx : DyldContext
  linkeditFile : ℕ
  linkeditOffset : ℕ
  linkeditStart : ℕ
  dyldInfo : Option ℕ
  symTab : Option ℕ
  dySymTab : Option ℕ
  exportTrieCmd : Option ℕ

/-- Everything the passes change: the image's pages, the scratch buffer and the cursor
(locals of `optimizeLinkedit`), the optimizer's members, and the tracker and flag kept in
the extraction context. `extent` is ghost state: the end of the furthest write into the
scratch buffer. -/
structure Run where
  pages : Pages
  newLinkedit : Mem
  offset : ℕ
  stringsPool : StringPool
  symbolsCount : ℕ
  newSymbolEntriesStart : ℕ
  redactedSymbolsCount : ℕ
  newSymbolIndicies : ℕ → Option ℕ
  tracker : LinkeditTracker
  hasRedactedIndirect : Bool
  extent : ℕ

/-- The constructor, given the `__LINKEDIT` segment command. The identifiers of
`dyld_info_command` (declared outside the sources) are the two `LC_DYLD_INFO` variants. -/
def LinkeditOptimizer.make (eCtx : ExtractionContext) (hdr : Mem) (linkeditSeg : ℕ) :
    LinkeditOptimizer :=
  let conv := eCtx.mCtx.convertAddr (readLE hdr (linkeditSeg + vmaddrOff) eCtx.width.addrSize)
  { width := eCtx.width, mCtx := eCtx.mCtx, dCtx := eCtx.dCtx,
    linkeditFile := conv.2, linkeditOffset := u32 conv.1, linkeditStart := conv.2 + conv.1,
    dyldInfo := eCtx.mCtx.getLoadCommand hdr [lcDyldInfo, lcDyldInfoOnly],
    symTab := eCtx.mCtx.getLoadCommand hdr [lcSymtab],
    dySymTab := eCtx.mCtx.getLoadCommand hdr [lcDysymtab],
    exportTrieCmd := eCtx.mCtx.getLoadCommand hdr [lcDyldExportsTrie] }

def setRange (hdr : Mem) (dy startField countField start count : ℕ) : Mem :=
  if count = 0 then hdr else write32 (write32 hdr (dy + startField) start) (dy + countField) count

def Run.copyEntry (s : Run) (size head : ℕ) (m : Mem) (src : ℕ) (name : List UInt8) : Run :=
  let r := s.stringsPool.addString name
  { s with
    stringsPool := r.2
    symbolsCount := u32 (s.symbolsCount + 1)
    newLinkedit := write32 (copy s.newLinkedit head m src size) head r.1
    extent := grow s.extent head size }

/-- `_newSymbolIndicies[key]`: a key absent from the map is inserted with value 0. -/
def lookupInsert (map : ℕ → Option ℕ) (key : ℕ) : ℕ × (ℕ → Option ℕ) :=
  match map key with
  | some v => (v, map)
  | none => (0, fun k => if k = key then some 0 else map k)

namespace LinkeditOptimizer

variable (o : LinkeditOptimizer)

/-- The body shared by `copyBindingInfo`, `copyWeakBindingInfo`, `copyLazyBindingInfo`,
`copyFunctionStarts` and `copyDataInCode`: the blob named by fields `offField` and
`sizeField` of command `cmd` is copied verbatim, tracked with its size padded to 8, and its
field pointed at the new place. -/
def copyVerbatim (cmd : Option ℕ) (offField sizeField : ℕ) (s : Run) : Run :=
  match cmd with
  | none => s
  | some c =>
    let size := read32 s.pages.hdr (c + sizeField)
    if size = 0 then s else
    { s with
      newLinkedit := copy s.newLinkedit s.offset s.pages.lnk
        (o.linkeditFile + read32 s.pages.hdr (c + offField)) size
      extent := grow s.extent s.offset size
      tracker := s.tracker.trackData ⟨c + offField, o.linkeditStart + s.offset, alignR size⟩
      pages := { s.pages with
        hdr := write32 s.pages.hdr (c + offField) (o.linkeditOffset + s.offset) }
      offset := u32 (s.offset + alignR size) }

def copyBindingInfo (s : Run) : Run := o.copyVerbatim o.dyldInfo bindOff bindSize s

def copyWeakBindingInfo (s : Run) : Run := o.copyVerbatim o.dyldInfo weakBindOff weakBindSize s

def copyLazyBindingInfo (s : Run) : Run := o.copyVerbatim o.dyldInfo lazyBindOff lazyBindSize s

def exportInfo (hdr : Mem) : Option (ℕ × ℕ × ℕ) :=
  match o.exportTrieCmd with
  | some c => some (o.linkeditFile + read32 hdr (c + dataoff), read32 hdr (c + datasize), c + dataoff)
  | none => o.dyldInfo.map fun c =>
      (o.linkeditFile + read32 hdr (c + exportOff), read32 hdr (c + exportSize), c + exportOff)

/-- `copyExportInfo`. Unlike its siblings it stores `_linkeditStart + offset` into the
`uint32_t` field: a `uint8_t *`, an assignment that would not compile were the member
instantiated. `optimizeLinkedit` never calls it, so it never is; the store is modelled as
that address taken modulo 2^32. -/
def copyExportInfo (s : Run) : Run :=
  match o.exportInfo s.pages.hdr with
  | none => s
  | some (data, dataSize, dataFieldOff) =>
    if dataSize = 0 then s else
    { s with
      newLinkedit := copy s.newLinkedit s.offset s.pages.lnk data dataSize
      extent := grow s.extent s.offset dataSize
      tracker := s.tracker.trackData ⟨dataFieldOff, o.linkeditStart + s.offset, alignR dataSize⟩
      pages := { s.pages with
        hdr := write32 s.pages.hdr dataFieldOff (o.linkeditStart + s.offset) }
      offset := u32 (s.offset + alignR dataSize) }

def startSymbolEntries (_ : LinkeditOptimizer) (s : Run) : Run :=
  { s with newSymbolEntriesStart := s.offset }

def searchRedactedSymbol (s : Run) : Option Run := do
  let dy ← o.dySymTab
  let indirectSymStart := o.linkeditFile + read32 s.pages.hdr (dy + indirectsymoff)
  let zeros := ((List.range (read32 s.pages.hdr (dy + nindirectsyms))).filter fun i =>
    read32 s.pages.lnk (indirectSymStart + 4 * i) = 0).length
  let s := { s with redactedSymbolsCount := u32 (s.redactedSymbolsCount + zeros) }
  if s.redactedSymbolsCount = 0 then pure s else
  let r := s.stringsPool.addString redactedName
  pure { s with
    stringsPool := r.2
    symbolsCount := u32 (s.symbolsCount + 1)
    newLinkedit := writeLE (write32 s.newLinkedit s.offset r.1) (s.offset + 4) 1 1
    extent := grow s.extent s.offset 5
    offset := u32 (s.offset + o.width.nlistSize)
    hasRedactedIndirect := true }

def publicLocalStep (strings stringsSize : ℕ) (acc : Run × ℕ × ℕ) (entry : ℕ) : Run × ℕ × ℕ :=
  let name := nameAt acc.1.pages.lnk strings stringsSize (read32 acc.1.pages.lnk entry)
  if name = redactedName then acc else
  (acc.1.copyEntry o.width.nlistSize acc.2.1 acc.1.pages.lnk entry name,
    acc.2.1 + o.width.nlistSize, u32 (acc.2.2 + 1))

def copyPublicLocalSymbols (s : Run) : Option (Run × ℕ) :=
  match o.dySymTab with
  | none => some (s, 0)
  | some dy =>
    let nloc := read32 s.pages.hdr (dy + nlocalsym)
    if nloc = 0 then some (s, 0) else do
    let st ← o.symTab
    let symsStart := o.linkeditFile + read32 s.pages.hdr (st + symoff) +
      o.width.nlistSize * read32 s.pages.hdr (dy + ilocalsym)
    let r := ((List.range nloc).map fun k => symsStart + o.width.nlistSize * k).foldl
      (o.publicLocalStep (o.linkeditFile + read32 s.pages.hdr (st + stroff))
        (read32 s.pages.hdr (st + strsize))) (s, s.offset, 0)
    pure ({ r.1 with offset := u32 (r.1.offset + o.width.nlistSize * r.2.2) }, r.2.2)

def searchEntries (m : Mem) (start count width keyWidth key : ℕ) : Option ℕ :=
  ((List.range count).map fun i => start + width * i).find? fun e => readLE m e keyWidth = key

/-- `_findLocalSymbolEntries`: address and count of the image's `nlist`s in the symbols
subcache, keyed by the `__TEXT` vmaddr's offset from the shared region in newer caches
and by the `__TEXT` file offset in older ones. The outer `none` is the source
dereferencing a missing `__TEXT` segment; the inner one is "no entry". -/
def findLocalSymbolEntries (hdr : Mem) (sc : SymbolsCache) (info : ℕ) :
    Option (Option (ℕ × ℕ)) := do
  let text ← o.mCtx.getSegment "__TEXT"
  let vmaddr := readLE hdr (text + vmaddrOff) o.width.addrSize
  let entriesStart := info + read32 sc.mem (info + LocalSymbolsInfo.entriesOffset)
  let entriesCount := read32 sc.mem (info + LocalSymbolsInfo.entriesCount)
  let slice := if o.dCtx.headerContainsSymbolFileUUID then
      (searchEntries sc.mem entriesStart entriesCount LocalSymbolsEntry64.size 8
        ((vmaddr + 2 ^ 64 - o.dCtx.sharedRegionStart) % 2 ^ 64)).map fun e =>
          (e + LocalSymbolsEntry64.nlistStartIndex, e + LocalSymbolsEntry64.nlistCount)
    else
      (searchEntries sc.mem entriesStart entriesCount LocalSymbolsEntry.size 4
        (u32 (o.mCtx.convertAddr vmaddr).1)).map fun e =>
          (e + LocalSymbolsEntry.nlistStartIndex, e + LocalSymbolsEntry.nlistCount)
  pure (slice.map fun f => (info + read32 sc.mem (info + LocalSymbolsInfo.nlistOffset) +
    o.width.nlistSize * read32 sc.mem f.1, read32 sc.mem f.2))

def redactedLocalStep (m : Mem) (strings stringsSize : ℕ) (acc : Run × ℕ × ℕ) (entry : ℕ) :
    Run × ℕ × ℕ :=
  (acc.1.copyEntry o.width.nlistSize acc.2.1 m entry
      (nameAt m strings stringsSize (read32 m entry)),
    acc.2.1 + o.width.nlistSize, u32 (acc.2.2 + 1))

def redactedEntries (found : Option (ℕ × ℕ)) : List ℕ :=
  match found with
  | some (start, count) => (List.range count).map fun k => start + o.width.nlistSize * k
  | none => []

def copyRedactedLocalSymbols (s : Run) : Option (Run × ℕ) :=
  match o.dCtx.getSymbolsCache with
  | none => some (s, 0)
  | some sc =>
    if sc.localSymbolsOffset = 0 then some (s, 0) else do
    let info := sc.file + sc.localSymbolsOffset
    let found ← o.findLocalSymbolEntries s.pages.hdr sc info
    let r := (o.redactedEntries found).foldl (o.redactedLocalStep sc.mem
      (info + read32 sc.mem (info + LocalSymbolsInfo.stringsOffset))
      (read32 sc.mem (info + LocalSymbolsInfo.stringsSize))) (s, s.offset, 0)
    pure ({ r.1 with offset := u32 (r.1.offset + o.width.nlistSize * r.2.2) }, r.2.2)

def copyLocalSymbols (s : Run) : Option Run := do
  let newLocalSymbolsStartIndex := s.symbolsCount
  let r1 ← o.copyPublicLocalSymbols s
  let r2 ← o.copyRedactedLocalSymbols r1.1
  let newSymsCount := u32 (r1.2 + r2.2)
  match o.dySymTab with
  | some dy =>
    let hdr := setRange r2.1.pages.hdr dy ilocalsym nlocalsym newLocalSymbolsStartIndex newSymsCount
    pure { r2.1 with pages := { r2.1.pages with hdr } }
  | none => pure r2.1

def rangeStep (syms strings stringsSize : ℕ) (acc : Run × ℕ × ℕ) (symIndex : ℕ) :
    Run × ℕ × ℕ :=
  let entry := syms + o.width.nlistSize * symIndex
  let s := acc.1.copyEntry o.width.nlistSize acc.2.1 acc.1.pages.lnk entry
    (nameAt acc.1.pages.lnk strings stringsSize (read32 acc.1.pages.lnk entry))
  ({ s with
      newSymbolIndicies := fun k => if k = symIndex then some acc.1.symbolsCount
        else s.newSymbolIndicies k },
    acc.2.1 + o.width.nlistSize, u32 (acc.2.2 + 1))

def copySymbolRange (startField countField : ℕ) (s : Run) : Option Run :=
  match o.dySymTab with
  | none => some s
  | some dy => do
    let st ← o.symTab
    let symsStart := read32 s.pages.hdr (dy + startField)
    let symsEnd := u32 (symsStart + read32 s.pages.hdr (dy + countField))
    let r := (List.range' symsStart (symsEnd - symsStart)).foldl
      (o.rangeStep (o.linkeditFile + read32 s.pages.hdr (st + symoff))
        (o.linkeditFile + read32 s.pages.hdr (st + stroff)) (read32 s.pages.hdr (st + strsize)))
      (s, s.offset, 0)
    let hdr := setRange r.1.pages.hdr dy startField countField s.symbolsCount r.2.2
    pure { r.1 with
      pages := { r.1.pages with hdr }
      offset := u32 (r.1.offset + o.width.nlistSize * r.2.2) }

def copyExportedSymbols (s : Run) : Option Run := o.copySymbolRange iextdefsym nextdefsym s

def copyImportedSymbols (s : Run) : Option Run := o.copySymbolRange iundefsym nundefsym s

/-- `endSymbolEntries`: reserve one slot per zero indirect entry, track the symbol region
with its size padded to 8 (the cursor is not padded), and rewrite `symoff` and `nsyms`. -/
def endSymbolEntries (s : Run) : Run :=
  match o.symTab with
  | none => s
  | some st =>
    let offset := u32 (s.offset + o.width.nlistSize * s.redactedSymbolsCount)
    let symEntrySize := alignR (u32 (offset + 2 ^ 32 - s.newSymbolEntriesStart))
    { s with
      offset
      tracker := s.tracker.trackData
        ⟨st + symoff, o.linkeditStart + s.newSymbolEntriesStart, symEntrySize⟩
      pages := { s.pages with hdr := write32 (write32 s.pages.hdr (st + symoff)
        (o.linkeditOffset + s.newSymbolEntriesStart)) (st + nsyms) s.symbolsCount } }

def copyFunctionStarts (s : Run) : Run :=
  o.copyVerbatim (o.mCtx.getLoadCommand s.pages.hdr [lcFunctionStarts]) dataoff datasize s

def copyDataInCode (s : Run) : Run :=
  o.copyVerbatim (o.mCtx.getLoadCommand s.pages.hdr [lcDataInCode]) dataoff datasize s

/-- The loop body of `copyIndirectSymbolTable`. The sentinel branch writes the entry,
then the remapped value is written over it whatever the branch did. -/
def indirectStep (lnk : Mem) (entries newEntries : ℕ) (acc : Mem × (ℕ → Option ℕ))
    (entryIndex : ℕ) : Mem × (ℕ → Option ℕ) :=
  let entry := read32 lnk (entries + 4 * entryIndex)
  let buf := if entry = indirectSymbolAbs ∨ entry = indirectSymbolLocal ∨ entry = 0 then
    write32 acc.1 (newEntries + 4 * entryIndex) entry else acc.1
  let r := lookupInsert acc.2 entry
  (write32 buf (newEntries + 4 * entryIndex) r.1, r.2)

def copyIndirectSymbolTable (s : Run) : Run :=
  match o.dySymTab with
  | none => s
  | some dy =>
    let n := read32 s.pages.hdr (dy + nindirectsyms)
    let r := (List.range n).foldl (indirectStep s.pages.lnk
      (o.linkeditFile + read32 s.pages.hdr (dy + indirectsymoff)) s.offset)
      (s.newLinkedit, s.newSymbolIndicies)
    let size := alignR (u32 (n * 4))
    { s with
      newLinkedit := r.1
      newSymbolIndicies := r.2
      extent := grow s.extent s.offset (4 * n)
      tracker := s.tracker.trackData ⟨dy + indirectsymoff, o.linkeditStart + s.offset, size⟩
      pages := { s.pages with
        hdr := write32 s.pages.hdr (dy + indirectsymoff) (o.linkeditOffset + s.offset) }
      offset := u32 (s.offset + size) }

/-- `copyStringPool`. The pool is written before `_symTab` is dereferenced. -/
def copyStringPool (s : Run) : Option Run := do
  let w := s.stringsPool.writeStrings s.newLinkedit s.offset
  let st ← o.symTab
  pure { s with
    newLinkedit := w.2
    extent := s.stringsPool.pool.foldl (fun e p => grow e (s.offset + p.2) p.1.length) s.extent
    pages := { s.pages with hdr := write32 (write32 s.pages.hdr (st + stroff)
      (o.linkeditOffset + s.offset)) (st + strsize) w.1 }
    tracker := s.tracker.trackData ⟨st + stroff, o.linkeditStart + s.offset, alignR w.1⟩
    offset := u32 (s.offset + alignR w.1) }

def updateLoadCommands (linkeditSeg : ℕ) (s : Run) : Run :=
  let hdr := writeLE s.pages.hdr (linkeditSeg + o.width.vmsizeOff) s.offset o.width.addrSize
  { s with
    pages := { s.pages with
      hdr := writeLE hdr (linkeditSeg + o.width.filesizeOff) s.offset o.width.addrSize } }

def passes (s : Run) : Option Run := do
  let s := o.startSymbolEntries (o.copyLazyBindingInfo (o.copyWeakBindingInfo (o.copyBindingInfo s)))
  let s ← o.searchRedactedSymbol s
  let s ← o.copyLocalSymbols s
  let s ← o.copyExportedSymbols s
  let s ← o.copyImportedSymbols s
  o.copyStringPool (o.copyIndirectSymbolTable (o.copyDataInCode (o.copyFunctionStarts
    (o.endSymbolEntries s))))

end LinkeditOptimizer

def Run.start (pg : Pages) (tracker : LinkeditTracker) (hasRedactedIndirect : Bool) : Run :=
  { pages := pg, newLinkedit := fun _ => 0, offset := 0, stringsPool := StringPool.new,
    symbolsCount := 0, newSymbolEntriesStart := 0, redactedSymbolsCount := 0,
    newSymbolIndicies := fun _ => none, tracker, hasRedactedIndirect, extent := 0 }

inductive LoadCommandKind where
  | noLinkeditData
  | handled
  | unhandled
  | unknown
  deriving DecidableEq, Repr

def noLinkeditDataCommands : List ℕ :=
  [lcSegment, lcSegment64, lcIdfvmlib, lcLoadfvmlib, lcIdDylib, lcLoadDylib, lcLoadWeakDylib,
    lcReexportDylib, lcLoadUpwardDylib, lcLazyLoadDylib, lcSubFramework, lcSubClient,
    lcSubUmbrella, lcSubLibrary, lcPreboundDylib, lcIdDylinker, lcLoadDylinker,
    lcDyldEnvironment, lcThread, lcUnixthread, lcRoutines, lcRoutines64, lcPrebindCksum, lcUuid,
    lcRpath, lcFilesetEntry, lcEncryptionInfo, lcEncryptionInfo64, lcVersionMinMacosx,
    lcVersionMinIphoneos, lcVersionMinWatchos, lcVersionMinTvos, lcBuildVersion,
    lcLinkerOption, lcIdent, lcFvmfile, lcMain, lcSourceVersion]

def handledCommands : List ℕ :=
  [lcSymtab, lcDysymtab, lcDyldExportsTrie, lcFunctionStarts, lcDataInCode, lcDyldInfo,
    lcDyldInfoOnly]

def unhandledCommands : List ℕ :=
  [lcTwolevelHints, lcCodeSignature, lcSegmentSplitInfo, lcDylibCodeSignDrs,
    lcLinkerOptimizationHint, lcDyldChainedFixups, lcSymseg, lcNote]

def classifyLoadCommand (cmd : ℕ) : LoadCommandKind :=
  if cmd ∈ noLinkeditDataCommands then .noLinkeditData
  else if cmd ∈ handledCommands then .handled
  else if cmd ∈ unhandledCommands then .unhandled
  else .unknown

def hex (n : ℕ) : String := "0x" ++ String.mk (Nat.toDigits 16 n)

def checkLoadCommands (mCtx : MachoContext) (hdr : Mem) : List String :=
  mCtx.loadCommands.filterMap fun lc =>
    match classifyLoadCommand (read32 hdr lc) with
    | .unhandled => some ("Unhandled load command: " ++ hex (read32 hdr lc) ++
        ", may contain linkedit data.")
    | .unknown => some ("Unknown load command: " ++ hex (read32 hdr lc) ++
        ", may contain linkedit data.")
    | _ => none

example : hex lcCodeSignature = "0x1d" := by decide

/-- How a run ends without a result: a `std::invalid_argument` with its message, a
dereference of a null command pointer, or an access past the `vmsize` bytes `calloc` gave the
scratch buffer. -/
inductive Failure where
  | invalidArgument (what : String)
  | nullDereference
  | bufferOverrun
  deriving DecidableEq, Repr

/-- `Converter::optimizeLinkedit`. `checkLoadCommands` only logs, so its warnings are not part
of the result. The scratch buffer is `calloc(vmsize, 1)`: a run whose writes, or whose final
`memcpy` of `offset` bytes, reach past it fails. -/
def optimizeLinkedit (eCtx : ExtractionContext) (pg : Pages) : Except Failure Run := do
  let tracker ← (LinkeditTracker.make eCtx.width eCtx.mCtx pg.hdr).mapError Failure.invalidArgument
  let some linkeditSeg := eCtx.mCtx.getSegment "__LINKEDIT"
    | throw (.invalidArgument "Mach-o file doesn\x27t have __LINKEDIT segment.")
  let vmsize := readLE pg.hdr (linkeditSeg + eCtx.width.vmsizeOff) eCtx.width.addrSize
  let o := LinkeditOptimizer.make eCtx pg.hdr linkeditSeg
  let some s := o.passes (Run.start pg tracker eCtx.hasRedactedIndirect)
    | throw .nullDereference
  if vmsize < s.extent ∨ vmsize < s.offset then throw .bufferOverrun
  let oldLinkedit := eCtx.mCtx.convertAddrP
    (readLE s.pages.hdr (linkeditSeg + vmaddrOff) eCtx.width.addrSize)
  pure (o.updateLoadCommands linkeditSeg
    { s with pages := { s.pages with lnk := copy s.pages.lnk oldLinkedit s.newLinkedit 0 s.offset } })

end DyldLinkedit.Optimizer
