import DyldLinkedit.Result

/-!
# The symbol cursor

From `startSymbolEntries` to `copyImportedSymbols` the passes write `nlist`s at the cursor
and count them in `_symbolsCount`. The cursor stays the symbol table's start plus one
`nlist` per symbol counted, as a `uint32_t`: `offset - _newSymbolEntriesStart` and
`sizeof(nlist<P>) * _symbolsCount` agree modulo 2^32 after every pass, and inside each copy
loop the write head stands at the slot the running count numbers. The two agree exactly
while the symbol table is below 4 GiB; past that the `uint32_t` cursor wraps and the
difference does not.
-/

set_option autoImplicit false

namespace DyldLinkedit.SymbolCursor
open DyldLinkedit.Memory DyldLinkedit.MachO DyldLinkedit.Tracker DyldLinkedit.Optimizer
  DyldLinkedit.Layout DyldLinkedit.Symbols DyldLinkedit.Result

theorem u32_u32_add (a b : ℕ) : u32 (u32 a + b) = u32 (a + b) := Nat.mod_add_mod a _ b

theorem u32_add_mul_u32 (a k b : ℕ) : u32 (a + k * u32 b) = u32 (a + k * b) := by
  unfold u32
  simp [Nat.add_mod, Nat.mul_mod]

/-- The cursor stands one `nlist` past the last symbol counted, as a `uint32_t`. -/
def LockStep (size : ℕ) (s : Run) : Prop :=
  s.symbolsCount < 2 ^ 32 ∧ s.offset = u32 (s.newSymbolEntriesStart + size * s.symbolsCount)

/-- A copy loop's write head stands at the slot its running count numbers, modulo 2^32. -/
def HeadAt (size start : ℕ) (acc : Run × ℕ × ℕ) : Prop :=
  u32 acc.2.1 = u32 (start + size * acc.1.symbolsCount)

section Copies

variable {size : ℕ} {s : Run} (h : LockStep size s)
include h

theorem headAt_copyAll (xs : List Source) (c : ℕ) :
    HeadAt size s.newSymbolEntriesStart (copyAll size s s.offset xs, s.offset + size * xs.length, c) := by
  unfold HeadAt
  rw [copyAll_symbolsCount size h.1, u32_add_mul_u32, h.2, u32_u32_add, Nat.mul_add, Nat.add_assoc]

theorem lockStep_of_copies (xs : List Source) {s' : Run}
    (hc : s'.symbolsCount = (copyAll size s s.offset xs).symbolsCount)
    (hst : s'.newSymbolEntriesStart = s.newSymbolEntriesStart)
    (ho : s'.offset = u32 (s.offset + size * u32 (0 + xs.length))) : LockStep size s' := by
  rw [copyAll_symbolsCount size h.1] at hc
  refine ⟨hc ▸ u32_lt _, ?_⟩
  rw [ho, hc, hst, u32_add_mul_u32, u32_add_mul_u32, h.2, u32_u32_add, Nat.zero_add, Nat.mul_add,
    Nat.add_assoc]

end Copies

section Loops

variable (o : LinkeditOptimizer) {s : Run} (h : LockStep o.width.nlistSize s)
include h

theorem headAt_publicLocalStep (strings stringsSize : ℕ) (es : List ℕ) :
    HeadAt o.width.nlistSize s.newSymbolEntriesStart
      (es.foldl (o.publicLocalStep strings stringsSize) (s, s.offset, 0)) := by
  rw [foldl_publicLocalStep o _ _ _ _ _ (show 0 < 2 ^ 32 by decide)]
  exact headAt_copyAll h _ _

theorem headAt_redactedLocalStep (m : Mem) (strings stringsSize : ℕ) (es : List ℕ) :
    HeadAt o.width.nlistSize s.newSymbolEntriesStart
      (es.foldl (o.redactedLocalStep m strings stringsSize) (s, s.offset, 0)) := by
  rw [foldl_redactedLocalStep o _ _ _ _ _ _ (show 0 < 2 ^ 32 by decide)]
  simpa only [sourcesAt, List.length_map] using headAt_copyAll h (sourcesAt m strings stringsSize es) 0

theorem headAt_rangeStep (syms strings stringsSize a n : ℕ) :
    HeadAt o.width.nlistSize s.newSymbolEntriesStart
      ((List.range' a n).foldl (o.rangeStep syms strings stringsSize) (s, s.offset, 0)) := by
  rw [foldl_rangeStep o _ _ _ _ _ s s.offset (show 0 < 2 ^ 32 by decide) h.1]
  simpa only [sourcesAt, List.length_map, List.length_range'] using
    headAt_copyAll h (sourcesAt s.pages.lnk strings stringsSize
      ((List.range' a n).map fun i => syms + o.width.nlistSize * i)) 0

/-- The export and import loops record, for old index `a + j`, the count the `j`-th copy was
given, and that copy's slot is the one that count numbers. -/
theorem rangeStep_records (syms strings stringsSize a n : ℕ) (j : Fin n) :
    ((List.range' a n).foldl (o.rangeStep syms strings stringsSize)
        (s, s.offset, 0)).1.newSymbolIndicies (a + j) = some (u32 (s.symbolsCount + j)) ∧
      u32 (s.offset + o.width.nlistSize * j) =
        u32 (s.newSymbolEntriesStart + o.width.nlistSize * u32 (s.symbolsCount + j)) := by
  rw [foldl_rangeStep o _ _ _ _ _ s s.offset (show 0 < 2 ^ 32 by decide) h.1]
  refine ⟨by simp [j.2], ?_⟩
  rw [u32_add_mul_u32, h.2, u32_u32_add, Nat.mul_add, Nat.add_assoc]

theorem lockStep_publicLocalLoop (strings stringsSize : ℕ) (es : List ℕ) :
    let r := es.foldl (o.publicLocalStep strings stringsSize) (s, s.offset, 0)
    LockStep o.width.nlistSize { r.1 with offset := u32 (r.1.offset + o.width.nlistSize * r.2.2) } := by
  rw [foldl_publicLocalStep o _ _ _ _ _ (show 0 < 2 ^ 32 by decide)]
  exact lockStep_of_copies h _ rfl (copyAll_frame _ _ _ _).2.2.2.1
    (by dsimp only; rw [(copyAll_frame _ _ _ _).2.1])

theorem lockStep_redactedLocalLoop (m : Mem) (strings stringsSize : ℕ) (es : List ℕ) :
    let r := es.foldl (o.redactedLocalStep m strings stringsSize) (s, s.offset, 0)
    LockStep o.width.nlistSize { r.1 with offset := u32 (r.1.offset + o.width.nlistSize * r.2.2) } := by
  rw [foldl_redactedLocalStep o _ _ _ _ _ _ (show 0 < 2 ^ 32 by decide)]
  exact lockStep_of_copies h _ rfl (copyAll_frame _ _ _ _).2.2.2.1
    (by dsimp only; rw [(copyAll_frame _ _ _ _).2.1, sourcesAt, List.length_map])

theorem lockStep_rangeLoop (syms strings stringsSize a n : ℕ) (pages : Pages) :
    let r := (List.range' a n).foldl (o.rangeStep syms strings stringsSize) (s, s.offset, 0)
    LockStep o.width.nlistSize
      { r.1 with pages, offset := u32 (r.1.offset + o.width.nlistSize * r.2.2) } := by
  rw [foldl_rangeStep o _ _ _ _ _ s s.offset (show 0 < 2 ^ 32 by decide) h.1]
  exact lockStep_of_copies h _ rfl (copyAll_frame _ _ _ _).2.2.2.1
    (by dsimp only; rw [(copyAll_frame _ _ _ _).2.1, sourcesAt, List.length_map, List.length_map,
      List.length_range'])

end Loops

section Passes

variable (o : LinkeditOptimizer) {s : Run}

theorem copyVerbatim_cursor (cmd : Option ℕ) (offField sizeField : ℕ) (hs : s.offset < 2 ^ 32) :
    (o.copyVerbatim cmd offField sizeField s).offset < 2 ^ 32 ∧
      (o.copyVerbatim cmd offField sizeField s).symbolsCount = s.symbolsCount := by
  unfold LinkeditOptimizer.copyVerbatim
  split
  · exact ⟨hs, rfl⟩
  · dsimp only
    split
    · exact ⟨hs, rfl⟩
    · exact ⟨u32_lt _, rfl⟩

theorem lockStep_startSymbolEntries (hs : s.offset < 2 ^ 32) (hc : s.symbolsCount = 0) :
    LockStep o.width.nlistSize (o.startSymbolEntries s) :=
  ⟨hc ▸ Nat.two_pow_pos 32, by simp [LinkeditOptimizer.startSymbolEntries, hc, u32_of_lt hs]⟩

theorem lockStep_searchRedactedSymbol (h : LockStep o.width.nlistSize s) {s' : Run}
    (hs : o.searchRedactedSymbol s = some s') : LockStep o.width.nlistSize s' := by
  unfold LinkeditOptimizer.searchRedactedSymbol at hs
  simp only [Option.bind_eq_bind, Option.bind_eq_some, Option.pure_def] at hs
  obtain ⟨dy, -, hs⟩ := hs
  split_ifs at hs
  · obtain rfl := Option.some.inj hs
    exact h
  · obtain rfl := Option.some.inj hs
    refine ⟨u32_lt _, ?_⟩
    dsimp only
    rw [u32_add_mul_u32, h.2, u32_u32_add, Nat.mul_add_one, Nat.add_assoc]

theorem lockStep_copyPublicLocalSymbols (h : LockStep o.width.nlistSize s) {r : Run × ℕ}
    (hr : o.copyPublicLocalSymbols s = some r) : LockStep o.width.nlistSize r.1 := by
  unfold LinkeditOptimizer.copyPublicLocalSymbols at hr
  split at hr
  · obtain rfl := Option.some.inj hr
    exact h
  · dsimp only at hr
    split_ifs at hr
    · obtain rfl := Option.some.inj hr
      exact h
    · simp only [Option.bind_eq_bind, Option.bind_eq_some, Option.pure_def, Option.some.injEq] at hr
      obtain ⟨st, -, rfl⟩ := hr
      exact lockStep_publicLocalLoop o h _ _ _

theorem lockStep_copyRedactedLocalSymbols (h : LockStep o.width.nlistSize s) {r : Run × ℕ}
    (hr : o.copyRedactedLocalSymbols s = some r) : LockStep o.width.nlistSize r.1 := by
  unfold LinkeditOptimizer.copyRedactedLocalSymbols at hr
  split at hr
  · obtain rfl := Option.some.inj hr
    exact h
  · split_ifs at hr
    · obtain rfl := Option.some.inj hr
      exact h
    · simp only [Option.bind_eq_bind, Option.bind_eq_some, Option.pure_def, Option.some.injEq] at hr
      obtain ⟨found, -, rfl⟩ := hr
      exact lockStep_redactedLocalLoop o h _ _ _ _

theorem lockStep_copyLocalSymbols (h : LockStep o.width.nlistSize s) {s' : Run}
    (hs : o.copyLocalSymbols s = some s') : LockStep o.width.nlistSize s' := by
  unfold LinkeditOptimizer.copyLocalSymbols at hs
  simp only [Option.bind_eq_bind, Option.bind_eq_some] at hs
  obtain ⟨r₁, h₁, r₂, h₂, hs⟩ := hs
  have h₂' := lockStep_copyRedactedLocalSymbols o (lockStep_copyPublicLocalSymbols o h h₁) h₂
  split at hs <;> (obtain rfl := Option.some.inj hs; exact h₂')

theorem lockStep_copySymbolRange (startField countField : ℕ) (h : LockStep o.width.nlistSize s)
    {s' : Run} (hs : o.copySymbolRange startField countField s = some s') :
    LockStep o.width.nlistSize s' := by
  unfold LinkeditOptimizer.copySymbolRange at hs
  split at hs
  · obtain rfl := Option.some.inj hs
    exact h
  · simp only [Option.bind_eq_bind, Option.bind_eq_some, Option.pure_def, Option.some.injEq] at hs
    obtain ⟨st, -, rfl⟩ := hs
    exact lockStep_rangeLoop o h _ _ _ _ _ _

/-- `copyExportedSymbols` and `copyImportedSymbols` move the cursor by one `nlist` per old
index of their range, as a `uint32_t`, and count as many symbols. -/
theorem copySymbolRange_cursor (startField countField : ℕ) {dy st : ℕ} (hdy : o.dySymTab = some dy)
    (hst : o.symTab = some st) (hc : s.symbolsCount < 2 ^ 32) :
    let a := read32 s.pages.hdr (dy + startField)
    let n := u32 (a + read32 s.pages.hdr (dy + countField)) - a
    ∃ s', o.copySymbolRange startField countField s = some s' ∧
      s'.offset = u32 (s.offset + o.width.nlistSize * u32 (0 + n)) ∧
      s'.symbolsCount = u32 (s.symbolsCount + n) ∧
      s'.newSymbolEntriesStart = s.newSymbolEntriesStart ∧
      ∀ b, s.extent ≤ b → s.offset + o.width.nlistSize * n ≤ b → s'.extent ≤ b := by
  unfold LinkeditOptimizer.copySymbolRange
  simp only [hdy, hst, Option.bind_eq_bind, Option.some_bind, Option.pure_def, Option.some.injEq,
    exists_eq_left']
  rw [foldl_rangeStep o _ _ _ _ _ s s.offset (show 0 < 2 ^ 32 by decide) hc]
  dsimp only
  rw [(copyAll_frame _ _ _ _).2.1, copyAll_symbolsCount _ hc, sourcesAt, List.length_map,
    List.length_map, List.length_range']
  exact ⟨rfl, rfl, (copyAll_frame _ _ _ _).2.2.2.1, fun b he hb =>
    copyAll_extent _ he (by rwa [List.length_map, List.length_map, List.length_range'])⟩

end Passes

/-- The runs `optimizeLinkedit` goes through from `startSymbolEntries` to
`copyImportedSymbols`, as far as the passes get: after `startSymbolEntries`,
`searchRedactedSymbol`, the two helpers of `copyLocalSymbols` (`_copyPublicLocalSymbols`,
then `_copyRedactedLocalSymbols`), `copyLocalSymbols`, `copyExportedSymbols` and
`copyImportedSymbols`. -/
def symbolStages (o : LinkeditOptimizer) (s : Run) : List Run :=
  let s₁ := o.startSymbolEntries (o.copyLazyBindingInfo (o.copyWeakBindingInfo (o.copyBindingInfo s)))
  let s₂ := o.searchRedactedSymbol s₁
  let r₁ := s₂.bind o.copyPublicLocalSymbols
  let r₂ := r₁.bind fun r => o.copyRedactedLocalSymbols r.1
  let s₃ := s₂.bind o.copyLocalSymbols
  let s₄ := s₃.bind o.copyExportedSymbols
  s₁ :: (s₂.toList ++ (r₁.map Prod.fst).toList ++ (r₂.map Prod.fst).toList ++ s₃.toList ++
    s₄.toList ++ (s₄.bind o.copyImportedSymbols).toList)

/-- Every stage keeps the lock-step, from a run whose cursor is a `uint32_t` and that has
counted no symbol. -/
theorem lockStep_symbolStages (o : LinkeditOptimizer) {s : Run} (hs : s.offset < 2 ^ 32)
    (hc : s.symbolsCount = 0) : ∀ r ∈ symbolStages o s, LockStep o.width.nlistSize r := by
  have v₁ := copyVerbatim_cursor o o.dyldInfo bindOff bindSize hs
  have v₂ := copyVerbatim_cursor o o.dyldInfo weakBindOff weakBindSize v₁.1
  have v₃ := copyVerbatim_cursor o o.dyldInfo lazyBindOff lazyBindSize v₂.1
  have h₁ := lockStep_startSymbolEntries o v₃.1 (by rw [v₃.2, v₂.2, v₁.2, hc])
  simp only [symbolStages, List.mem_cons, List.mem_append, Option.mem_toList, Option.mem_def,
    Option.map_eq_some', Option.bind_eq_some, or_assoc]
  rintro r (rfl | h₂ | ⟨_, ⟨s₂, h₂, h₃⟩, rfl⟩ | ⟨_, ⟨r₁, ⟨s₂, h₂, h₃⟩, h₄⟩, rfl⟩ | ⟨s₂, h₂, h₃⟩ |
    ⟨s₃, ⟨s₂, h₂, h₃⟩, h₄⟩ | ⟨s₄, ⟨s₃, ⟨s₂, h₂, h₃⟩, h₄⟩, h₅⟩)
  · exact h₁
  · exact lockStep_searchRedactedSymbol o h₁ h₂
  · exact lockStep_copyPublicLocalSymbols o (lockStep_searchRedactedSymbol o h₁ h₂) h₃
  · exact lockStep_copyRedactedLocalSymbols o
      (lockStep_copyPublicLocalSymbols o (lockStep_searchRedactedSymbol o h₁ h₂) h₃) h₄
  · exact lockStep_copyLocalSymbols o (lockStep_searchRedactedSymbol o h₁ h₂) h₃
  · exact lockStep_copySymbolRange o _ _
      (lockStep_copyLocalSymbols o (lockStep_searchRedactedSymbol o h₁ h₂) h₃) h₄
  · exact lockStep_copySymbolRange o _ _ (lockStep_copySymbolRange o _ _
      (lockStep_copyLocalSymbols o (lockStep_searchRedactedSymbol o h₁ h₂) h₃) h₄) h₅

/-- The cursor of `optimizeLinkedit` after each symbol pass, run from the image's pages: it is
the symbol table's start plus one `nlist` per symbol counted, modulo 2^32, and exactly while
that sum fits a `uint32_t`. Inside the copy loops, run from any of these stages, the write
head after any number of iterations stands at the slot the running count numbers; the export
and import loops record, for the `j`-th old index of their range, the count the `j`-th copy
was given, and that copy's slot, `j` `nlist`s past the cursor, is the one that count numbers. -/
theorem symbol_cursor_lockstep (eCtx : ExtractionContext) (pg : Pages) (t : LinkeditTracker)
    (seg : ℕ) :
    let o := LinkeditOptimizer.make eCtx pg.hdr seg
    ∀ r ∈ symbolStages o (Run.start pg t eCtx.hasRedactedIndirect),
      r.offset = u32 (r.newSymbolEntriesStart + o.width.nlistSize * r.symbolsCount) ∧
      (r.newSymbolEntriesStart + o.width.nlistSize * r.symbolsCount < 2 ^ 32 →
        r.offset - r.newSymbolEntriesStart = o.width.nlistSize * r.symbolsCount) ∧
      (∀ strings stringsSize (es : List ℕ), HeadAt o.width.nlistSize r.newSymbolEntriesStart
        (es.foldl (o.publicLocalStep strings stringsSize) (r, r.offset, 0))) ∧
      (∀ m strings stringsSize (es : List ℕ), HeadAt o.width.nlistSize r.newSymbolEntriesStart
        (es.foldl (o.redactedLocalStep m strings stringsSize) (r, r.offset, 0))) ∧
      ∀ syms strings stringsSize a n,
        HeadAt o.width.nlistSize r.newSymbolEntriesStart
          ((List.range' a n).foldl (o.rangeStep syms strings stringsSize) (r, r.offset, 0)) ∧
        ∀ j : Fin n, ((List.range' a n).foldl (o.rangeStep syms strings stringsSize)
            (r, r.offset, 0)).1.newSymbolIndicies (a + j) = some (u32 (r.symbolsCount + j)) ∧
          u32 (r.offset + o.width.nlistSize * j) =
            u32 (r.newSymbolEntriesStart + o.width.nlistSize * u32 (r.symbolsCount + j)) := by
  intro o r hr
  have h := lockStep_symbolStages o (Nat.two_pow_pos 32) rfl r hr
  refine ⟨h.2, fun hlt => ?_, headAt_publicLocalStep o h, headAt_redactedLocalStep o h,
    fun syms strings stringsSize a n => ⟨headAt_rangeStep o h _ _ _ _ _, rangeStep_records o h _ _ _ _ _⟩⟩
  rw [h.2, u32_of_lt hlt, Nat.add_sub_cancel_left]

/-- A flat 64-bit image with a 4 GiB LINKEDIT whose dysymtab exports 2^28 symbols from old
index 0, with no local, no indirect entry and no symbols subcache. -/
def manyExportsPages : Pages :=
  ⟨flatHeader 0x100 0 [(68, 1), (128 + nextdefsym, 2 ^ 28)], fun _ => 0⟩

def manyExportsOptimizer : LinkeditOptimizer :=
  LinkeditOptimizer.make (flatExtraction .pointer64 flatCommands 32) manyExportsPages.hdr 32

def manyExportsTracker : LinkeditTracker := ⟨0, 32, 2 ^ 32 - 7, 0x100, 0x100 + 2 ^ 32, []⟩

theorem manyExports_make :
    LinkeditTracker.make .pointer64 (flatContext flatCommands 32) manyExportsPages.hdr =
      .ok manyExportsTracker := rfl

def manyExportsStart : Run :=
  Run.start manyExportsPages manyExportsTracker
    (flatExtraction .pointer64 flatCommands 32).hasRedactedIndirect

/-- Its stage after `copyExportedSymbols`: every write so far lies in the scratch buffer, and
the cursor is back at the symbol table's start, 2^28 symbols later. -/
theorem manyExports_exported : ∃ r ∈ symbolStages manyExportsOptimizer manyExportsStart,
    r.extent ≤ 2 ^ 32 ∧ r.offset = 0 ∧ r.newSymbolEntriesStart = 0 ∧ r.symbolsCount = 2 ^ 28 := by
  obtain ⟨r, h₄, ho, hc, hs, he⟩ := copySymbolRange_cursor manyExportsOptimizer iextdefsym
    nextdefsym (s := manyExportsStart) (show _ = some 128 from rfl) (show _ = some 104 from rfl)
    (Nat.two_pow_pos 32)
  have h₁ : manyExportsOptimizer.startSymbolEntries (manyExportsOptimizer.copyLazyBindingInfo
      (manyExportsOptimizer.copyWeakBindingInfo (manyExportsOptimizer.copyBindingInfo
        manyExportsStart))) = manyExportsStart := rfl
  have h₂ : manyExportsOptimizer.searchRedactedSymbol manyExportsStart = some manyExportsStart := rfl
  have h₃ : manyExportsOptimizer.copyLocalSymbols manyExportsStart = some manyExportsStart := rfl
  refine ⟨r, ?_, he _ (Nat.zero_le _) (by decide), by rw [ho]; decide, hs, by rw [hc]; decide⟩
  simp [symbolStages, h₁, h₂, h₃, LinkeditOptimizer.copyExportedSymbols, h₄]

theorem symbol_cursor_lockstep_exports : ∃ r ∈ symbolStages manyExportsOptimizer manyExportsStart,
    r.symbolsCount = 2 ^ 28 ∧
      r.offset = u32 (r.newSymbolEntriesStart + manyExportsOptimizer.width.nlistSize * r.symbolsCount) := by
  obtain ⟨r, hr, -, -, -, hc⟩ := manyExports_exported
  exact ⟨r, hr, hc, (symbol_cursor_lockstep (flatExtraction .pointer64 flatCommands 32) manyExportsPages
    manyExportsTracker 32 r hr).1⟩

/-- On that image, from the tracker `optimizeLinkedit` makes, the cursor has wrapped after
`copyExportedSymbols` although every write so far lies inside the `vmsize` = 2^32 bytes of
the scratch buffer: `offset - _newSymbolEntriesStart` is 0 while
`sizeof(nlist<P>) * _symbolsCount` is 2^32. -/
theorem exported_cursor_wraps :
    LinkeditTracker.make .pointer64 (flatContext flatCommands 32) manyExportsPages.hdr =
        .ok manyExportsTracker ∧
      readLE manyExportsPages.hdr (32 + PointerWidth.pointer64.vmsizeOff) 8 = 2 ^ 32 ∧
      ∃ r ∈ symbolStages manyExportsOptimizer manyExportsStart, r.extent ≤ 2 ^ 32 ∧
        r.offset - r.newSymbolEntriesStart = 0 ∧
        manyExportsOptimizer.width.nlistSize * r.symbolsCount = 2 ^ 32 := by
  obtain ⟨r, hr, he, ho, hs, hc⟩ := manyExports_exported
  exact ⟨manyExports_make, by decide, r, hr, he, by rw [ho, hs], by rw [hc]; rfl⟩

end DyldLinkedit.SymbolCursor
