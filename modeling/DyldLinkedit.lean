import DyldLinkedit.Memory
import DyldLinkedit.MachO
import DyldLinkedit.Tracker
import DyldLinkedit.Registry
import DyldLinkedit.StringPool
import DyldLinkedit.Interning
import DyldLinkedit.Optimizer
import DyldLinkedit.Layout
import DyldLinkedit.Passes
import DyldLinkedit.Symbols
import DyldLinkedit.Tables
import DyldLinkedit.Commands
import DyldLinkedit.Pipeline
import DyldLinkedit.Result
import DyldLinkedit.IndirectTable
import DyldLinkedit.SymbolTable
import DyldLinkedit.Offsets
import DyldLinkedit.Regions
import DyldLinkedit.Insertion
import DyldLinkedit.TrackerInvariant
import DyldLinkedit.SymbolCursor
import DyldLinkedit.Capacity
import DyldLinkedit.Handoff
import DyldLinkedit.LinkeditBytes
import DyldLinkedit.ReadBack
import DyldLinkedit.CommandWalk
