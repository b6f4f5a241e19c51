import DyldLinkedit.Optimizer
import DyldLinkedit.Registry
import DyldLinkedit.Interning

/-!
# The layout the passes produce

What `optimizeLinkedit` builds, computed directly from the image it starts from: which
symbols it copies and in which order, where each region starts in the new LINKEDIT, the
registry it leaves, and the stores it makes to the load commands. `Pipeline` proves that a
run produces exactly this. The image's load commands are assumed well formed: disjoint,
each at least as long as its record.
-/

set_option autoImplicit false

namespace DyldLinkedit.Layout
open DyldLinkedit.Memory DyldLinkedit.MachO DyldLinkedit.Tracker DyldLinkedit.Strings
  DyldLinkedit.Optimizer DyldLinkedit.Registry DyldLinkedit.Interning

def segmentCommand : PointerWidth → ℕ
  | .pointer32 => lcSegment
  | .pointer64 => lcSegment64

def minCommandSize (P : PointerWidth) (cmd : ℕ) : ℕ :=
  if cmd = lcDyldInfo ∨ cmd = lcDyldInfoOnly then dyldInfoCommandSize
  else if cmd = lcSymtab then symtabCommandSize
  else if cmd = lcDysymtab then dysymtabCommandSize
  else if cmd = lcFunctionStarts ∨ cmd = lcDataInCode ∨ cmd = lcDyldExportsTrie then
    linkeditDataCommandSize
  else if cmd = segmentCommand P then P.segmentSize
  else 8

/-- Load commands as a Mach-O image has them: pairwise disjoint, each at least as long as
its record, and every segment the context returns one of them. -/
structure WellFormed (P : PointerWidth) (mCtx : MachoContext) (hdr : Mem) : Prop where
  disjoint : mCtx.loadCommands.Pairwise fun a b =>
    Apart a (read32 hdr (a + cmdsizeOff)) b (read32 hdr (b + cmdsizeOff))
  sized : ∀ lc ∈ mCtx.loadCommands, minCommandSize P (read32 hdr lc) ≤ read32 hdr (lc + cmdsizeOff)
  segment : ∀ name seg, mCtx.getSegment name = some seg →
    seg ∈ mCtx.loadCommands ∧ read32 hdr seg = segmentCommand P

/-- `alignR` with unbounded arithmetic. -/
def pad (x : ℕ) : ℕ := (x + 7) / 8 * 8

structure Source where
  mem : Mem
  entry : ℕ
  name : List UInt8

def sourcesAt (m : Mem) (strings stringsSize : ℕ) (entries : List ℕ) : List Source :=
  entries.map fun e => ⟨m, e, nameAt m strings stringsSize (read32 m e)⟩

/-- An image as the passes see it: the optimizer's members, the pages before the run, and
the `LC_SYMTAB` and `LC_DYSYMTAB` commands a successful run dereferences. -/
structure Image where
  o : LinkeditOptimizer
  hdr : Mem
  lnk : Mem
  st : ℕ
  dy : ℕ

namespace Image

variable (im : Image)

def sz : ℕ := im.o.width.nlistSize

def blobSize (cmd : Option ℕ) (sizeField : ℕ) : ℕ :=
  match cmd with
  | some c => read32 im.hdr (c + sizeField)
  | none => 0

def functionStarts : Option ℕ := im.o.mCtx.getLoadCommand im.hdr [lcFunctionStarts]

def dataInCode : Option ℕ := im.o.mCtx.getLoadCommand im.hdr [lcDataInCode]

def nIndirect : ℕ := read32 im.hdr (im.dy + nindirectsyms)

def oldIndirect (i : ℕ) : ℕ :=
  read32 im.lnk (im.o.linkeditFile + read32 im.hdr (im.dy + indirectsymoff) + 4 * i)

def redacted : ℕ := ((List.range im.nIndirect).filter fun i => im.oldIndirect i = 0).length

/-- One for the `<redacted>` placeholder, when there is one. -/
def placeholder : ℕ := if im.redacted = 0 then 0 else 1

def symbols : ℕ := im.o.linkeditFile + read32 im.hdr (im.st + symoff)

def strings : ℕ := im.o.linkeditFile + read32 im.hdr (im.st + stroff)

def stringsSize : ℕ := read32 im.hdr (im.st + strsize)

def publicLocals : List Source :=
  let nloc := read32 im.hdr (im.dy + nlocalsym)
  if nloc = 0 then [] else
  (sourcesAt im.lnk im.strings im.stringsSize ((List.range nloc).map fun k =>
      im.symbols + im.sz * read32 im.hdr (im.dy + ilocalsym) + im.sz * k)).filter
    fun x => x.name ≠ redactedName

/-- The locals `_copyRedactedLocalSymbols` recovers from the symbols subcache; `none` when
it dereferences a missing `__TEXT` segment. -/
def recoveredLocals? : Option (List Source) :=
  match im.o.dCtx.getSymbolsCache with
  | none => some []
  | some sc =>
    if sc.localSymbolsOffset = 0 then some [] else
    let info := sc.file + sc.localSymbolsOffset
    (im.o.findLocalSymbolEntries im.hdr sc info).map fun found =>
      sourcesAt sc.mem (info + read32 sc.mem (info + LocalSymbolsInfo.stringsOffset))
        (read32 sc.mem (info + LocalSymbolsInfo.stringsSize)) (im.o.redactedEntries found)

def recoveredLocals : List Source := im.recoveredLocals?.getD []

def rangeIndices (startField countField : ℕ) : List ℕ :=
  let a := read32 im.hdr (im.dy + startField)
  List.range' a (u32 (a + read32 im.hdr (im.dy + countField)) - a)

def rangeSources (idxs : List ℕ) : List Source :=
  sourcesAt im.lnk im.strings im.stringsSize (idxs.map fun i => im.symbols + im.sz * i)

def exported : List ℕ := im.rangeIndices iextdefsym nextdefsym

def imported : List ℕ := im.rangeIndices iundefsym nundefsym

/-- The symbols copied, in the order of the new table after the placeholder. -/
def copied : List Source :=
  im.publicLocals ++ im.recoveredLocals ++ im.rangeSources im.exported ++
    im.rangeSources im.imported

/-- The names interned, in order. -/
def names : List (List UInt8) :=
  (if im.redacted = 0 then [] else [redactedName]) ++ im.copied.map Source.name

def poolLength : ℕ := keysLength (insertKeys [[]] im.names)

def weakBindStart : ℕ := pad (im.blobSize im.o.dyldInfo bindSize)
def lazyBindStart : ℕ := im.weakBindStart + pad (im.blobSize im.o.dyldInfo weakBindSize)
def symbolsStart : ℕ := im.lazyBindStart + pad (im.blobSize im.o.dyldInfo lazyBindSize)
def symbolSlots : ℕ := im.placeholder + im.copied.length + im.redacted
def functionStartsStart : ℕ := im.symbolsStart + im.sz * im.symbolSlots
def dataInCodeStart : ℕ := im.functionStartsStart + pad (im.blobSize im.functionStarts datasize)
def indirectStart : ℕ := im.dataInCodeStart + pad (im.blobSize im.dataInCode datasize)
def poolStart : ℕ := im.indirectStart + pad (4 * im.nIndirect)

/-- The final cursor. -/
def layoutEnd : ℕ := im.poolStart + pad im.poolLength

def blobRegion (cmd : Option ℕ) (offField sizeField start : ℕ) : List LinkeditData :=
  match cmd with
  | some c => if read32 im.hdr (c + sizeField) = 0 then [] else
      [⟨c + offField, im.o.linkeditStart + start, pad (read32 im.hdr (c + sizeField))⟩]
  | none => []

/-- The regions the passes track, in the order they track them. -/
def regions : List LinkeditData :=
  im.blobRegion im.o.dyldInfo bindOff bindSize 0 ++
  im.blobRegion im.o.dyldInfo weakBindOff weakBindSize im.weakBindStart ++
  im.blobRegion im.o.dyldInfo lazyBindOff lazyBindSize im.lazyBindStart ++
  [⟨im.st + symoff, im.o.linkeditStart + im.symbolsStart, pad (im.sz * im.symbolSlots)⟩] ++
  im.blobRegion im.functionStarts dataoff datasize im.functionStartsStart ++
  im.blobRegion im.dataInCode dataoff datasize im.dataInCodeStart ++
  [⟨im.dy + indirectsymoff, im.o.linkeditStart + im.indirectStart, pad (4 * im.nIndirect)⟩,
    ⟨im.st + stroff, im.o.linkeditStart + im.poolStart, pad im.poolLength⟩]

def blobLog (cmd : Option ℕ) (offField sizeField start : ℕ) : List (ℕ × ℕ) :=
  match cmd with
  | some c => if read32 im.hdr (c + sizeField) = 0 then [] else
      [(c + offField, im.o.linkeditOffset + start)]
  | none => []

def rangeLog (startField countField start count : ℕ) : List (ℕ × ℕ) :=
  if count = 0 then [] else [(im.dy + startField, start), (im.dy + countField, count)]

def localsCount : ℕ := im.publicLocals.length + im.recoveredLocals.length

/-- The stores the passes make to the load commands, in order. -/
def log : List (ℕ × ℕ) :=
  im.blobLog im.o.dyldInfo bindOff bindSize 0 ++
  im.blobLog im.o.dyldInfo weakBindOff weakBindSize im.weakBindStart ++
  im.blobLog im.o.dyldInfo lazyBindOff lazyBindSize im.lazyBindStart ++
  im.rangeLog ilocalsym nlocalsym im.placeholder im.localsCount ++
  im.rangeLog iextdefsym nextdefsym (im.placeholder + im.localsCount) im.exported.length ++
  im.rangeLog iundefsym nundefsym (im.placeholder + im.localsCount + im.exported.length)
    im.imported.length ++
  [(im.st + symoff, im.o.linkeditOffset + im.symbolsStart),
    (im.st + nsyms, im.placeholder + im.copied.length)] ++
  im.blobLog im.functionStarts dataoff datasize im.functionStartsStart ++
  im.blobLog im.dataInCode dataoff datasize im.dataInCodeStart ++
  [(im.dy + indirectsymoff, im.o.linkeditOffset + im.indirectStart),
    (im.st + stroff, im.o.linkeditOffset + im.poolStart), (im.st + strsize, im.poolLength)]

/-- `_newSymbolIndicies` after the symbol passes: the new index of an exported or imported
symbol, the import's when a symbol is in both ranges. -/
def newIndex (k : ℕ) : Option ℕ :=
  if k ∈ im.imported then
    some (im.placeholder + im.localsCount + im.exported.length +
      (k - read32 im.hdr (im.dy + iundefsym)))
  else if k ∈ im.exported then
    some (im.placeholder + im.localsCount + (k - read32 im.hdr (im.dy + iextdefsym)))
  else none

def CursorFits : Prop := im.layoutEnd < 2 ^ 32

/-- The LINKEDIT's file offset is a `uint32_t` and stays one across the layout, so every
offset field a run stores names the place its region is written to. -/
def FileFits : Prop :=
  im.o.linkeditStart = im.o.linkeditFile + im.o.linkeditOffset ∧
    im.o.linkeditOffset + im.layoutEnd < 2 ^ 32

end Image

end DyldLinkedit.Layout
