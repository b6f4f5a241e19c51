import DyldLinkedit.Memory

/-!
# Mach-O records and the collaborators' interface

The record layouts the optimizer reads and writes, as `mach-o/loader.h` and
`dyld_cache_format.h` fix them: command identifiers, field offsets inside each command,
and the two `nlist` widths. The Mach-O and dyld contexts are declared outside the sources;
only the lookups the optimizer calls are modelled.
-/

set_option autoImplicit false

namespace DyldLinkedit.MachO
open DyldLinkedit.Memory

/-- The template parameter `P`: `Utils::Pointer32` or `Utils::Pointer64`. -/
inductive PointerWidth where
  | pointer32
  | pointer64
  deriving DecidableEq, Repr

namespace PointerWidth

def nlistSize : PointerWidth → ℕ
  | pointer32 => 12
  | pointer64 => 16

def headerSize : PointerWidth → ℕ
  | pointer32 => 28
  | pointer64 => 32

def addrSize : PointerWidth → ℕ
  | pointer32 => 4
  | pointer64 => 8

def vmsizeOff : PointerWidth → ℕ
  | pointer32 => 28
  | pointer64 => 32

def filesizeOff : PointerWidth → ℕ
  | pointer32 => 36
  | pointer64 => 48

def segmentSize : PointerWidth → ℕ
  | pointer32 => 56
  | pointer64 => 72

@[simp] theorem nlistSize_pos (P : PointerWidth) : 0 < P.nlistSize := by cases P <;> decide

end PointerWidth

/-! Command identifiers of `loader.h`. -/

def lcReqDyld : ℕ := 0x80000000
def lcSegment : ℕ := 0x1
def lcSymtab : ℕ := 0x2
def lcSymseg : ℕ := 0x3
def lcThread : ℕ := 0x4
def lcUnixthread : ℕ := 0x5
def lcLoadfvmlib : ℕ := 0x6
def lcIdfvmlib : ℕ := 0x7
def lcIdent : ℕ := 0x8
def lcFvmfile : ℕ := 0x9
def lcDysymtab : ℕ := 0xb
def lcLoadDylib : ℕ := 0xc
def lcIdDylib : ℕ := 0xd
def lcLoadDylinker : ℕ := 0xe
def lcIdDylinker : ℕ := 0xf
def lcPreboundDylib : ℕ := 0x10
def lcRoutines : ℕ := 0x11
def lcSubFramework : ℕ := 0x12
def lcSubUmbrella : ℕ := 0x13
def lcSubClient : ℕ := 0x14
def lcSubLibrary : ℕ := 0x15
def lcTwolevelHints : ℕ := 0x16
def lcPrebindCksum : ℕ := 0x17
def lcLoadWeakDylib : ℕ := 0x18 + lcReqDyld
def lcSegment64 : ℕ := 0x19
def lcRoutines64 : ℕ := 0x1a
def lcUuid : ℕ := 0x1b
def lcRpath : ℕ := 0x1c + lcReqDyld
def lcCodeSignature : ℕ := 0x1d
def lcSegmentSplitInfo : ℕ := 0x1e
def lcReexportDylib : ℕ := 0x1f + lcReqDyld
def lcLazyLoadDylib : ℕ := 0x20
def lcEncryptionInfo : ℕ := 0x21
def lcDyldInfo : ℕ := 0x22
def lcDyldInfoOnly : ℕ := 0x22 + lcReqDyld
def lcLoadUpwardDylib : ℕ := 0x23 + lcReqDyld
def lcVersionMinMacosx : ℕ := 0x24
def lcVersionMinIphoneos : ℕ := 0x25
def lcFunctionStarts : ℕ := 0x26
def lcDyldEnvironment : ℕ := 0x27
def lcMain : ℕ := 0x28 + lcReqDyld
def lcDataInCode : ℕ := 0x29
def lcSourceVersion : ℕ := 0x2a
def lcDylibCodeSignDrs : ℕ := 0x2b
def lcEncryptionInfo64 : ℕ := 0x2c
def lcLinkerOption : ℕ := 0x2d
def lcLinkerOptimizationHint : ℕ := 0x2e
def lcVersionMinTvos : ℕ := 0x2f
def lcVersionMinWatchos : ℕ := 0x30
def lcNote : ℕ := 0x31
def lcBuildVersion : ℕ := 0x32
def lcDyldExportsTrie : ℕ := 0x33 + lcReqDyld
def lcDyldChainedFixups : ℕ := 0x34 + lcReqDyld
def lcFilesetEntry : ℕ := 0x35 + lcReqDyld

def indirectSymbolLocal : ℕ := 0x80000000
def indirectSymbolAbs : ℕ := 0x40000000

/-! Field offsets. A command's field lives at the command's address plus its offset. -/

def cmdsizeOff : ℕ := 4

def ncmdsOff : ℕ := 16
def sizeofcmdsOff : ℕ := 20

def rebaseOff : ℕ := 8
def rebaseSize : ℕ := 12
def bindOff : ℕ := 16
def bindSize : ℕ := 20
def weakBindOff : ℕ := 24
def weakBindSize : ℕ := 28
def lazyBindOff : ℕ := 32
def lazyBindSize : ℕ := 36
def exportOff : ℕ := 40
def exportSize : ℕ := 44

def symoff : ℕ := 8
def nsyms : ℕ := 12
def stroff : ℕ := 16
def strsize : ℕ := 20

def ilocalsym : ℕ := 8
def nlocalsym : ℕ := 12
def iextdefsym : ℕ := 16
def nextdefsym : ℕ := 20
def iundefsym : ℕ := 24
def nundefsym : ℕ := 28
def tocoff : ℕ := 32
def ntoc : ℕ := 36
def modtaboff : ℕ := 40
def nmodtab : ℕ := 44
def extrefsymoff : ℕ := 48
def nextrefsyms : ℕ := 52
def indirectsymoff : ℕ := 56
def nindirectsyms : ℕ := 60
def extreloff : ℕ := 64
def nextrel : ℕ := 68
def locreloff : ℕ := 72
def nlocrel : ℕ := 76

def dataoff : ℕ := 8
def datasize : ℕ := 12

def vmaddrOff : ℕ := 24
def sectAddrOff : ℕ := 32

def dyldInfoCommandSize : ℕ := 48
def symtabCommandSize : ℕ := 24
def dysymtabCommandSize : ℕ := 80
def linkeditDataCommandSize : ℕ := 16

/-! `dyld_cache_local_symbols_info` and its two entry layouts. -/

namespace LocalSymbolsInfo
def nlistOffset : ℕ := 0
def stringsOffset : ℕ := 8
def stringsSize : ℕ := 12
def entriesOffset : ℕ := 16
def entriesCount : ℕ := 20
end LocalSymbolsInfo

/-! `dyld_cache_local_symbols_entry_64`: a 64-bit `dylibOffset`, then the slice. -/

namespace LocalSymbolsEntry64
def size : ℕ := 16
def nlistStartIndex : ℕ := 8
def nlistCount : ℕ := 12
end LocalSymbolsEntry64

/-! `dyld_cache_local_symbols_entry`: a 32-bit `dylibOffset`, then the slice. -/

namespace LocalSymbolsEntry
def size : ℕ := 12
def nlistStartIndex : ℕ := 4
def nlistCount : ℕ := 8
end LocalSymbolsEntry

/-- An `nlist<P>` record. `n_desc` and `n_value` are kept as naturals of their widths. -/
structure Nlist where
  nStrx : ℕ
  nType : UInt8
  nSect : UInt8
  nDesc : ℕ
  nValue : ℕ
  deriving DecidableEq, Repr

def Nlist.read (P : PointerWidth) (m : Mem) (a : ℕ) : Nlist :=
  ⟨read32 m a, m (a + 4), m (a + 5), readLE m (a + 6) 2, readLE m (a + 8) P.addrSize⟩

theorem Nlist.read_tail (P : PointerWidth) {m m' : Mem} {a b : ℕ}
    (h : ∀ i, 4 ≤ i → i < P.nlistSize → m (a + i) = m' (b + i)) :
    { Nlist.read P m a with nStrx := 0 } = { Nlist.read P m' b with nStrx := 0 } := by
  have hn : P.nlistSize = 8 + P.addrSize := by cases P <;> rfl
  have h6 : readLE m (a + 6) 2 = readLE m' (b + 6) 2 := readLE_congr 2 fun i hi => by
    simpa [Nat.add_assoc] using h (6 + i) (by omega) (by omega)
  have h8 : readLE m (a + 8) P.addrSize = readLE m' (b + 8) P.addrSize :=
    readLE_congr _ fun i hi => by simpa [Nat.add_assoc] using h (8 + i) (by omega) (by omega)
  simp only [Nlist.read, h6, h8, h 4 (by omega) (by omega), h 5 (by omega) (by omega)]

/-- The Mach-O context (`Macho::Context<false, P>`): where the header and load commands
are mapped, and the lookups the optimizer calls. Segment and section lookups return the
address of the command or section record; `convertAddr` maps a vmaddr to its file offset
and the base of the file holding it. -/
structure MachoContext where
  header : ℕ
  loadCommands : List ℕ
  getSegment : String → Option ℕ
  getSection : String → String → Option ℕ
  convertAddr : ℕ → ℕ × ℕ

/-- `convertAddrP`: the mapped address of a vmaddr. -/
def MachoContext.convertAddrP (c : MachoContext) (addr : ℕ) : ℕ :=
  (c.convertAddr addr).2 + (c.convertAddr addr).1

/-- `getLoadCommand<false, T>(cmds)`: the first load command whose `cmd` is one of `cmds`. -/
def MachoContext.getLoadCommand (c : MachoContext) (m : Mem) (cmds : List ℕ) : Option ℕ :=
  c.loadCommands.find? fun lc => cmds.contains (read32 m lc)

/-- The symbols subcache: its mapping, the base address of its file, and its header's
`localSymbolsOffset`. -/
structure SymbolsCache where
  mem : Mem
  file : ℕ
  localSymbolsOffset : ℕ

/-- The dyld context (`Dyld::Context`), read only. `headerContainsSymbolFileUUID` is the
answer of `headerContainsMember(offsetof(dyld_cache_header, symbolFileUUID))`. -/
structure DyldContext where
  headerContainsSymbolFileUUID : Bool
  sharedRegionStart : ℕ
  getSymbolsCache : Option SymbolsCache

end DyldLinkedit.MachO
