import DyldLinkedit.Commands

/-!
# A run of `optimizeLinkedit` produces the layout

The passes are composed in the order `optimizeLinkedit` calls them. Between two passes the
state is `Between` the image and the stores made so far, and each pass reads only fields no
earlier pass stored to (`Commands`). The result is the layout of `Layout`: the cursor ends
at `layoutEnd`, the registry holds `regions`, the load commands hold the stores of `log`
and the new segment size, and the rebuilt LINKEDIT holds every region where the layout puts
it.
-/

set_option autoImplicit false

namespace DyldLinkedit.Pipeline
open DyldLinkedit.Memory DyldLinkedit.MachO DyldLinkedit.Tracker DyldLinkedit.Strings
  DyldLinkedit.Optimizer DyldLinkedit.Registry DyldLinkedit.Interning DyldLinkedit.Layout
  DyldLinkedit.Passes DyldLinkedit.Symbols DyldLinkedit.Tables DyldLinkedit.Commands

/-- The image `optimizeLinkedit` runs on and its `__LINKEDIT` segment command, when it has the
`LC_SYMTAB` and `LC_DYSYMTAB` a successful run dereferences. -/
def imageOf (eCtx : ExtractionContext) (pg : Pages) : Option (Image × ℕ) := do
  let seg ← eCtx.mCtx.getSegment "__LINKEDIT"
  let o := LinkeditOptimizer.make eCtx pg.hdr seg
  let st ← o.symTab
  let dy ← o.dySymTab
  pure (⟨o, pg.hdr, pg.lnk, st, dy⟩, seg)

theorem imageOf_eq {eCtx : ExtractionContext} {pg : Pages} {im : Image} {seg : ℕ}
    (h : imageOf eCtx pg = some (im, seg)) :
    eCtx.mCtx.getSegment "__LINKEDIT" = some seg ∧ im.o = LinkeditOptimizer.make eCtx pg.hdr seg ∧
      im.hdr = pg.hdr ∧ im.lnk = pg.lnk ∧ im.o.symTab = some im.st ∧ im.o.dySymTab = some im.dy := by
  unfold imageOf at h
  cases hseg : eCtx.mCtx.getSegment "__LINKEDIT" with
  | none => simp [hseg] at h
  | some seg' =>
    cases hst : (LinkeditOptimizer.make eCtx pg.hdr seg').symTab with
    | none => simp [hseg, hst] at h
    | some st =>
      cases hdy : (LinkeditOptimizer.make eCtx pg.hdr seg').dySymTab with
      | none => simp [hseg, hst, hdy] at h
      | some dy =>
        simp only [hseg, hst, hdy, Option.bind_eq_bind, Option.some_bind, Option.pure_def,
          Option.some.injEq, Prod.mk.injEq] at h
        obtain ⟨rfl, rfl⟩ := h
        exact ⟨rfl, rfl, rfl, rfl, hst, hdy⟩

theorem placed_of_imageOf {eCtx : ExtractionContext} {pg : Pages} {im : Image} {seg : ℕ}
    (h : imageOf eCtx pg = some (im, seg)) (hwf : WellFormed eCtx.width eCtx.mCtx pg.hdr) :
    Placed im := by
  obtain ⟨-, ho, hh, -, hst, hdy⟩ := imageOf_eq h
  obtain ⟨o, hdr, lnk, st, dy⟩ := im
  dsimp only at ho hh hst hdy
  subst ho hh
  refine ⟨hwf, hst, hdy, fun k c hc => ?_⟩
  cases k with
  | dyldInfo => exact getLoadCommand_spec hc
  | symtab =>
    cases hc
    exact getLoadCommand_spec hst
  | dysymtab =>
    cases hc
    exact getLoadCommand_spec hdy
  | functionStarts => exact getLoadCommand_spec hc
  | dataInCode => exact getLoadCommand_spec hc

theorem starts_eq (im : Image) :
    im.weakBindStart = pad (im.blobSize im.o.dyldInfo bindSize) ∧
    im.lazyBindStart = im.weakBindStart + pad (im.blobSize im.o.dyldInfo weakBindSize) ∧
    im.symbolsStart = im.lazyBindStart + pad (im.blobSize im.o.dyldInfo lazyBindSize) ∧
    im.functionStartsStart = im.symbolsStart + im.sz * im.symbolSlots ∧
    im.dataInCodeStart = im.functionStartsStart + pad (im.blobSize im.functionStarts datasize) ∧
    im.indirectStart = im.dataInCodeStart + pad (im.blobSize im.dataInCode datasize) ∧
    im.poolStart = im.indirectStart + pad (4 * im.nIndirect) ∧
    im.layoutEnd = im.poolStart + pad im.poolLength :=
  ⟨rfl, rfl, rfl, rfl, rfl, rfl, rfl, rfl⟩

/-- The tracker a run starts from, with its registry. -/
def withTracked (t : LinkeditTracker) (ds : List LinkeditData) : LinkeditTracker :=
  { t with trackingData := trackAll t.trackingData ds }

section Binding

variable {im : Image} (hp : Placed im) (hfit : im.CursorFits)
include hp hfit

/-- The three binding passes from the start: each blob at its start, the cursor at the symbol
table's start. -/
theorem bindStage {s s' : Run} (hs : Between im [] s) (h0 : s.offset = 0)
    (hrun : im.o.startSymbolEntries (im.o.copyLazyBindingInfo (im.o.copyWeakBindingInfo
      (im.o.copyBindingInfo s))) = s') :
    Between im (im.blobLog im.o.dyldInfo bindOff bindSize 0 ++
        im.blobLog im.o.dyldInfo weakBindOff weakBindSize im.weakBindStart ++
        im.blobLog im.o.dyldInfo lazyBindOff lazyBindSize im.lazyBindStart) s' ∧
      s'.offset = im.symbolsStart ∧ s'.newSymbolEntriesStart = im.symbolsStart ∧
      s'.tracker = withTracked s.tracker (im.blobRegion im.o.dyldInfo bindOff bindSize 0 ++
        im.blobRegion im.o.dyldInfo weakBindOff weakBindSize im.weakBindStart ++
        im.blobRegion im.o.dyldInfo lazyBindOff lazyBindSize im.lazyBindStart) ∧
      s'.stringsPool = s.stringsPool ∧ s'.symbolsCount = s.symbolsCount ∧
      s'.redactedSymbolsCount = s.redactedSymbolsCount ∧
      s'.newSymbolIndicies = s.newSymbolIndicies ∧ s'.hasRedactedIndirect = s.hasRedactedIndirect ∧
      BlobAt im s'.newLinkedit im.o.dyldInfo bindOff bindSize 0 ∧
      BlobAt im s'.newLinkedit im.o.dyldInfo weakBindOff weakBindSize im.weakBindStart ∧
      BlobAt im s'.newLinkedit im.o.dyldInfo lazyBindOff lazyBindSize im.lazyBindStart := by
  obtain ⟨e₁, e₂, e₃, e₄, e₅, e₆, e₇, e₈⟩ := starts_eq im
  have hend : im.layoutEnd < 2 ^ 32 := hfit
  have hfit₃ := le_pad (im.blobSize im.o.dyldInfo lazyBindSize)
  change im.o.startSymbolEntries (im.o.copyVerbatim _ lazyBindOff lazyBindSize
    (im.o.copyVerbatim _ weakBindOff weakBindSize (im.o.copyVerbatim _ bindOff bindSize s))) = s' at hrun
  have hr₁ : ∀ c, im.o.dyldInfo = some c →
      read32 s.pages.hdr (c + bindSize) = read32 im.hdr (c + bindSize) ∧
      read32 s.pages.hdr (c + bindOff) = read32 im.hdr (c + bindOff) := fun _ _ => by
    rw [hs.hdr]
    exact ⟨rfl, rfl⟩
  obtain ⟨hb₁, ho₁, ht₁, hk₁⟩ := copyVerbatim_between im im.o.dyldInfo bindOff bindSize hs hr₁
    (by rw [h0]; omega)
  have hB₁ := copyVerbatim_blobAt im im.o.dyldInfo bindOff bindSize hs hr₁
  generalize hs₁ : im.o.copyVerbatim im.o.dyldInfo bindOff bindSize s = s₁ at *
  have hW₁ : StoresIn im ([] ++ im.blobLog im.o.dyldInfo bindOff bindSize s.offset)
      ([] ++ [(.dyldInfo, bindOff)]) := storesIn_nil.append (storesIn_blobLog .dyldInfo _ _ _)
  have hr₂ : ∀ c, im.o.dyldInfo = some c →
      read32 s₁.pages.hdr (c + weakBindSize) = read32 im.hdr (c + weakBindSize) ∧
      read32 s₁.pages.hdr (c + weakBindOff) = read32 im.hdr (c + weakBindOff) := fun c hc => by
    replace hc : cmdOf im .dyldInfo = some c := hc
    rw [hb₁.hdr]
    exact ⟨hp.read32_writeLog hW₁ (by decide) _ hc (by decide) (by decide),
      hp.read32_writeLog hW₁ (by decide) _ hc (by decide) (by decide)⟩
  obtain ⟨hb₂, ho₂, ht₂, hk₂⟩ := copyVerbatim_between im im.o.dyldInfo weakBindOff weakBindSize hb₁
    hr₂ (by rw [ho₁, h0]; omega)
  have hB₂ := copyVerbatim_blobAt im im.o.dyldInfo weakBindOff weakBindSize hb₁ hr₂
  generalize hs₂ : im.o.copyVerbatim im.o.dyldInfo weakBindOff weakBindSize s₁ = s₂ at *
  have hW₂ := hW₁.append
    (storesIn_blobLog .dyldInfo weakBindOff weakBindSize s₁.offset : StoresIn im _ _)
  have hr₃ : ∀ c, im.o.dyldInfo = some c →
      read32 s₂.pages.hdr (c + lazyBindSize) = read32 im.hdr (c + lazyBindSize) ∧
      read32 s₂.pages.hdr (c + lazyBindOff) = read32 im.hdr (c + lazyBindOff) := fun c hc => by
    replace hc : cmdOf im .dyldInfo = some c := hc
    rw [hb₂.hdr]
    exact ⟨hp.read32_writeLog hW₂ (by decide) _ hc (by decide) (by decide),
      hp.read32_writeLog hW₂ (by decide) _ hc (by decide) (by decide)⟩
  obtain ⟨hb₃, ho₃, ht₃, hk₃⟩ := copyVerbatim_between im im.o.dyldInfo lazyBindOff lazyBindSize hb₂
    hr₃ (by rw [ho₂, ho₁, h0]; omega)
  have hB₃ := copyVerbatim_blobAt im im.o.dyldInfo lazyBindOff lazyBindSize hb₂ hr₃
  generalize hs₃ : im.o.copyVerbatim im.o.dyldInfo lazyBindOff lazyBindSize s₂ = s₃ at *
  subst hrun
  have o₁ : s₁.offset = im.weakBindStart := by rw [ho₁, e₁, h0, Nat.zero_add]
  have o₂ : s₂.offset = im.lazyBindStart := by rw [ho₂, o₁, e₂]
  have o₃ : s₃.offset = im.symbolsStart := by rw [ho₃, o₂, e₃]
  rw [o₂, o₁, h0, List.nil_append] at hb₃
  have q₁ := copyVerbatim_sameSymbols im im.o.dyldInfo bindOff bindSize s
  have q₂ := copyVerbatim_sameSymbols im im.o.dyldInfo weakBindOff weakBindSize s₁
  have q₃ := copyVerbatim_sameSymbols im im.o.dyldInfo lazyBindOff lazyBindSize s₂
  rw [hs₁] at q₁
  rw [hs₂] at q₂
  rw [hs₃] at q₃
  have hq := q₁.trans (q₂.trans q₃)
  have hk₁₃ := hk₂.trans hk₃
  rw [h0] at hB₁
  rw [o₁] at hB₂
  rw [o₂] at hB₃
  refine ⟨hb₃.startSymbolEntries, o₃, o₃, ?_, hq.pool, hq.count, hq.redacted, hq.indices, hq.flag,
    hB₁.keep fun x hx => hk₁₃.2 x (by omega), hB₂.keep fun x hx => hk₃.2 x (by omega), hB₃⟩
  show s₃.tracker = _
  simp only [ht₃, ht₂, ht₁, o₁, o₂, h0, withTracked, trackAll_append]

end Binding

section SymbolPasses

variable {im : Image}

theorem sz_ge (im : Image) : 5 ≤ im.sz := by
  unfold Image.sz
  cases im.o.width <;> decide

theorem copied_length (im : Image) : im.copied.length =
    im.publicLocals.length + im.recoveredLocals.length + im.exported.length + im.imported.length := by
  simp [Image.copied, Image.rangeSources, sourcesAt, Nat.add_assoc]

theorem names_nulFree (im : Image) : ∀ n ∈ im.names, (0 : UInt8) ∉ n := by
  have hsrc : ∀ {m a k es x}, x ∈ sourcesAt m a k es → (0 : UInt8) ∉ x.name := fun hx => by
    obtain ⟨e, -, rfl⟩ := List.mem_map.mp hx
    exact zero_not_mem_cstr _ _ _
  have hL : ∀ x ∈ im.publicLocals, (0 : UInt8) ∉ x.name := fun x hx => by
    unfold Image.publicLocals at hx
    dsimp only at hx
    split at hx
    · simp at hx
    · exact hsrc (List.mem_of_mem_filter hx)
  have hQ : ∀ x ∈ im.recoveredLocals, (0 : UInt8) ∉ x.name := fun x hx => by
    unfold Image.recoveredLocals Image.recoveredLocals? at hx
    split at hx
    · simp at hx
    · split at hx
      · simp at hx
      · dsimp only at hx
        generalize im.o.findLocalSymbolEntries im.hdr _ _ = found at hx
        cases found with
        | none => simp at hx
        | some f => exact hsrc hx
  have hC : ∀ x ∈ im.copied, (0 : UInt8) ∉ x.name := by
    simp only [Image.copied, Image.rangeSources, List.mem_append]
    rintro x (((hx | hx) | hx) | hx)
    exacts [hL x hx, hQ x hx, hsrc hx, hsrc hx]
  intro n hn
  simp only [Image.names, List.mem_append, List.mem_map] at hn
  rcases hn with hn | ⟨x, hx, rfl⟩
  · split at hn
    · simp at hn
    · rw [List.mem_singleton.mp hn]
      decide
  · exact hC x hx

theorem newPool_packed (hfit : im.CursorFits) :
    Packed (addAll StringPool.new im.names) ∧
      (addAll StringPool.new im.names).stringsLength = im.poolLength := by
  have hpk := addAll_packed new_packed (names_nulFree im) (show im.poolLength < 2 ^ 32 by
    have := le_pad im.poolLength
    have := (starts_eq im).2.2.2.2.2.2.2
    unfold Image.CursorFits at hfit
    omega)
  exact ⟨hpk.1, by rw [stringsLength_eq hpk.1, hpk.2]; rfl⟩

/-- The scratch buffer holds the symbol table of the layout: the placeholder, each copied
`nlist` with its `n_strx` the offset of its name in the pool `sp`, then zeros up to the
function starts. -/
structure SymbolsAt (im : Image) (N : Mem) (sp : StringPool) : Prop where
  placeholder : im.redacted ≠ 0 →
    (∃ k, lookupIndex redactedName sp.pool = some k ∧ read32 N im.symbolsStart = k) ∧
      N (im.symbolsStart + 4) = 1 ∧ ∀ i, 5 ≤ i → i < im.sz → N (im.symbolsStart + i) = 0
  copied : ∀ j (hj : j < im.copied.length),
    (∀ i, 4 ≤ i → i < im.sz → N (im.symbolsStart + im.sz * (im.placeholder + j) + i) =
      im.copied[j].mem (im.copied[j].entry + i)) ∧
    ∃ k, lookupIndex im.copied[j].name sp.pool = some k ∧
      read32 N (im.symbolsStart + im.sz * (im.placeholder + j)) = k
  reserved : ∀ x, im.symbolsStart + im.sz * (im.placeholder + im.copied.length) ≤ x →
    x < im.functionStartsStart → N x = 0

theorem findLocalSymbolEntries_congr (o : LinkeditOptimizer) {m m' : Mem}
    (h : ∀ text, o.mCtx.getSegment "__TEXT" = some text →
      readLE m (text + vmaddrOff) o.width.addrSize = readLE m' (text + vmaddrOff) o.width.addrSize)
    (sc : SymbolsCache) (info : ℕ) :
    o.findLocalSymbolEntries m sc info = o.findLocalSymbolEntries m' sc info := by
  simp only [LinkeditOptimizer.findLocalSymbolEntries, Option.bind_eq_bind]
  exact Option.bind_congr fun text ht => by rw [h text ht]

theorem symbolSlots_lt (hfit : im.CursorFits) : im.symbolsStart + im.sz * im.symbolSlots < 2 ^ 32 := by
  obtain ⟨-, -, -, e₄, e₅, e₆, e₇, e₈⟩ := starts_eq im
  unfold Image.CursorFits at hfit
  omega

theorem recordRange_newIndex (hfit : im.CursorFits) :
    recordRange (recordRange (fun _ => none) im.exported (read32 im.hdr (im.dy + iextdefsym))
        (im.placeholder + im.localsCount)) im.imported (read32 im.hdr (im.dy + iundefsym))
        (im.placeholder + im.localsCount + im.exported.length) = im.newIndex := by
  have hslots := symbolSlots_lt hfit
  have hle : im.symbolSlots ≤ im.sz * im.symbolSlots :=
    Nat.le_mul_of_pos_left _ (by have := sz_ge im; omega)
  have hC : im.placeholder + im.localsCount + im.exported.length + im.imported.length ≤
      im.symbolSlots := by
    simp only [Image.symbolSlots, copied_length, Image.localsCount]
    omega
  funext k
  simp only [recordRange, Image.newIndex]
  split_ifs with hU hE
  · have hk : k - read32 im.hdr (im.dy + iundefsym) < im.imported.length := by
      simp only [Image.imported, Image.rangeIndices, List.mem_range'_1] at hU
      simp only [Image.imported, Image.rangeIndices, List.length_range']
      omega
    rw [u32_of_lt (by omega)]
  · have hk : k - read32 im.hdr (im.dy + iextdefsym) < im.exported.length := by
      simp only [Image.exported, Image.rangeIndices, List.mem_range'_1] at hE
      simp only [Image.exported, Image.rangeIndices, List.length_range']
      omega
    rw [u32_of_lt (by omega)]
  · rfl

theorem copied_slot (hfit : im.CursorFits) {s₄ s' : Run}
    (hv : copyView s' = copyView (copyAll im.sz s₄ s₄.offset im.copied))
    (ho : s₄.offset = im.symbolsStart + im.sz * im.placeholder)
    (hpool : s'.stringsPool = addAll StringPool.new im.names) {j : ℕ} (hj : j < im.copied.length) :
    (∀ i, 4 ≤ i → i < im.sz → s'.newLinkedit (im.symbolsStart + im.sz * (im.placeholder + j) + i) =
        im.copied[j].mem (im.copied[j].entry + i)) ∧
      ∃ k, lookupIndex im.copied[j].name s'.stringsPool.pool = some k ∧
        read32 s'.newLinkedit (im.symbolsStart + im.sz * (im.placeholder + j)) = k := by
  simp only [copyView, Prod.mk.injEq] at hv
  obtain ⟨hN, hP, -, -⟩ := hv
  obtain ⟨hb, k, hk, hr⟩ :=
    copyAll_slot im.sz (by have := sz_ge im; omega) s₄ s₄.offset im.copied hj
  have hpos : s₄.offset + im.sz * j = im.symbolsStart + im.sz * (im.placeholder + j) := by
    rw [ho, Nat.mul_add, Nat.add_assoc]
  have hk' : k < 2 ^ 32 := by
    have hpk := (newPool_packed hfit).1
    rw [← hpool, hP] at hpk
    have := (entry_le_packedEnd hpk.ends (lookupIndex_mem hk)).2
    have := hpk.fits
    omega
  rw [← hpos, hN, hP]
  exact ⟨hb, k, hk, by rw [hr, u32_of_lt hk']⟩

variable (hp : Placed im) (hfit : im.CursorFits)
include hp hfit

theorem copyRanges {log : List (ℕ × ℕ)} {W : List (Cmd × ℕ)} (hlog : StoresIn im log W)
    (hW : ∀ p ∈ W, p.1.Slot p.2)
    (hnot : ∀ p ∈ [((.dysymtab : Cmd), iextdefsym), (.dysymtab, nextdefsym), (.dysymtab, iundefsym),
      (.dysymtab, nundefsym), (.symtab, symoff), (.symtab, stroff), (.symtab, strsize)], p ∉ W)
    {s : Run} (hs : Between im log s) (hc : s.symbolsCount = im.placeholder + im.localsCount)
    (hfits : s.offset + im.sz * (im.exported.length + im.imported.length) < 2 ^ 32) :
    ∃ s', (do let s ← im.o.copyExportedSymbols s; im.o.copyImportedSymbols s) = some s' ∧
      Between im (log ++ im.rangeLog iextdefsym nextdefsym (im.placeholder + im.localsCount)
        im.exported.length ++ im.rangeLog iundefsym nundefsym
          (im.placeholder + im.localsCount + im.exported.length) im.imported.length) s' ∧
      Keeps s s' ∧ s'.offset = s.offset + im.sz * (im.exported.length + im.imported.length) ∧
      copyView s' = copyView (copyAll im.sz s s.offset
        (im.rangeSources im.exported ++ im.rangeSources im.imported)) ∧
      s'.newSymbolIndicies = recordRange (recordRange s.newSymbolIndicies im.exported
          (read32 im.hdr (im.dy + iextdefsym)) (im.placeholder + im.localsCount)) im.imported
          (read32 im.hdr (im.dy + iundefsym)) (im.placeholder + im.localsCount + im.exported.length) ∧
      s'.tracker = s.tracker ∧ s'.newSymbolEntriesStart = s.newSymbolEntriesStart ∧
      s'.redactedSymbolsCount = s.redactedSymbolsCount ∧
      s'.hasRedactedIndirect = s.hasRedactedIndirect := by
  have hslots := symbolSlots_lt hfit
  have hsl : im.symbolSlots ≤ im.sz * im.symbolSlots :=
    Nat.le_mul_of_pos_left _ (by have := sz_ge im; omega)
  have hC : im.placeholder + im.localsCount + im.exported.length + im.imported.length ≤
      im.symbolSlots := by
    simp only [Image.symbolSlots, copied_length, Image.localsCount]
    omega
  have hsub : ∀ {l : List (Cmd × ℕ)}, l ⊆ [((.dysymtab : Cmd), iextdefsym), (.dysymtab, nextdefsym),
      (.dysymtab, iundefsym), (.dysymtab, nundefsym), (.symtab, symoff), (.symtab, stroff),
      (.symtab, strsize)] → ∀ p ∈ l, p ∉ W := fun hl p hp => hnot p (hl hp)
  have hlen : ∀ idxs, (im.rangeSources idxs).length = idxs.length := fun _ => by
    simp [Image.rangeSources, sourcesAt]
  obtain ⟨s₁, h₁, hb₁, hk₁, ho₁, hv₁, hi₁, ht₁, hs₁, hr₁, hf₁⟩ :=
    copySymbolRange_spec iextdefsym nextdefsym hp.dySymTab hp.symTab hs
      (hp.reads_between hlog hW hs (by decide) (hsub (by decide)))
      (by show s.offset + im.sz * im.exported.length < 2 ^ 32; rw [Nat.mul_add] at hfits; omega)
      (by omega)
  have hc₁ : s₁.symbolsCount = im.placeholder + im.localsCount + im.exported.length := by
    simp only [copyView, Prod.mk.injEq] at hv₁
    rw [hv₁.2.2.1, copyAll_symbolsCount _ (by omega), hc, hlen]
    exact u32_of_lt (show _ + im.exported.length < 2 ^ 32 by omega)
  have hpair : ∀ p ∈ [((.dysymtab : Cmd), iextdefsym), (.dysymtab, nextdefsym)], p.1.Slot p.2 := by
    decide
  have hdis : ∀ p ∈ [((.dysymtab : Cmd), iundefsym), (.dysymtab, nundefsym), (.symtab, symoff),
      (.symtab, stroff), (.symtab, strsize)],
      p ∉ [((.dysymtab : Cmd), iextdefsym), (.dysymtab, nextdefsym)] := by
    decide
  obtain ⟨s₂, h₂, hb₂, hk₂, ho₂, hv₂, hi₂, ht₂, hs₂, hr₂, hf₂⟩ :=
    copySymbolRange_spec iundefsym nundefsym hp.dySymTab hp.symTab hb₁
      (hp.reads_between (hlog.append (storesIn_rangeLog _ _ _ _))
        (fun p hp' => (List.mem_append.mp hp').elim (hW p) (hpair p)) hb₁ (by decide)
        fun p hp' hpW => (List.mem_append.mp hpW).elim (hsub (by decide) p hp') (hdis p hp'))
      (by
        show s₁.offset + im.sz * im.imported.length < 2 ^ 32
        have : s₁.offset = s.offset + im.sz * im.exported.length := ho₁
        rw [Nat.mul_add] at hfits
        omega)
      (by omega)
  refine ⟨s₂, by simp only [h₁, h₂, Option.bind_eq_bind, Option.some_bind,
      LinkeditOptimizer.copyExportedSymbols, LinkeditOptimizer.copyImportedSymbols], ?_, hk₁.trans hk₂,
    ?_, copyView_trans im.sz hv₁ (by rw [hlen]; exact ho₁) hv₂, ?_, ht₂.trans ht₁, hs₂.trans hs₁,
    hr₂.trans hr₁, hf₂.trans hf₁⟩
  · rw [hc₁, hc] at hb₂
    exact hb₂
  · rw [show s₂.offset = s₁.offset + im.sz * im.imported.length from ho₂,
      show s₁.offset = s.offset + im.sz * im.exported.length from ho₁, Nat.mul_add, Nat.add_assoc]
  · rw [hi₂, hi₁, hc, hc₁]
    rfl

/-- The four symbol-copy passes after the binding passes: the placeholder, then every copied
symbol in layout order, each old index of a range mapped to its new one. -/
theorem copyStage {s : Run} {Q : List Source} (hQ : im.recoveredLocals? = some Q)
    (hs : Between im (im.blobLog im.o.dyldInfo bindOff bindSize 0 ++
      im.blobLog im.o.dyldInfo weakBindOff weakBindSize im.weakBindStart ++
      im.blobLog im.o.dyldInfo lazyBindOff lazyBindSize im.lazyBindStart) s)
    (ho : s.offset = im.symbolsStart) (hpool : s.stringsPool = StringPool.new)
    (hcount : s.symbolsCount = 0) (hred : s.redactedSymbolsCount = 0)
    (hidx : s.newSymbolIndicies = fun _ => none) :
    ∃ s', (do
        let s ← im.o.searchRedactedSymbol s
        let s ← im.o.copyLocalSymbols s
        let s ← im.o.copyExportedSymbols s
        im.o.copyImportedSymbols s) = some s' ∧
      Between im (im.blobLog im.o.dyldInfo bindOff bindSize 0 ++
        im.blobLog im.o.dyldInfo weakBindOff weakBindSize im.weakBindStart ++
        im.blobLog im.o.dyldInfo lazyBindOff lazyBindSize im.lazyBindStart ++
        im.rangeLog ilocalsym nlocalsym im.placeholder im.localsCount ++
        im.rangeLog iextdefsym nextdefsym (im.placeholder + im.localsCount) im.exported.length ++
        im.rangeLog iundefsym nundefsym (im.placeholder + im.localsCount + im.exported.length)
          im.imported.length) s' ∧
      s'.offset = im.symbolsStart + im.sz * (im.placeholder + im.copied.length) ∧ Keeps s s' ∧
      s'.stringsPool = addAll StringPool.new im.names ∧
      s'.symbolsCount = im.placeholder + im.copied.length ∧ s'.newSymbolIndicies = im.newIndex ∧
      s'.hasRedactedIndirect = (s.hasRedactedIndirect || decide (im.redacted ≠ 0)) ∧
      s'.tracker = s.tracker ∧ s'.newSymbolEntriesStart = s.newSymbolEntriesStart ∧
      s'.redactedSymbolsCount = im.redacted ∧
      (im.redacted ≠ 0 →
        (∃ k, lookupIndex redactedName s'.stringsPool.pool = some k ∧
          read32 s'.newLinkedit im.symbolsStart = k) ∧
        s'.newLinkedit (im.symbolsStart + 4) = 1 ∧
        ∀ i, 5 ≤ i → i < im.sz → s'.newLinkedit (im.symbolsStart + i) = 0) ∧
      ∀ j (hj : j < im.copied.length),
        (∀ i, 4 ≤ i → i < im.sz → s'.newLinkedit (im.symbolsStart + im.sz * (im.placeholder + j) + i) =
          im.copied[j].mem (im.copied[j].entry + i)) ∧
        ∃ k, lookupIndex im.copied[j].name s'.stringsPool.pool = some k ∧
          read32 s'.newLinkedit (im.symbolsStart + im.sz * (im.placeholder + j)) = k := by
  obtain ⟨-, -, -, e₄, e₅, e₆, e₇, e₈⟩ := starts_eq im
  have hsz := sz_ge im
  have hslots := symbolSlots_lt hfit
  have hQ' : im.recoveredLocals = Q := by simp [Image.recoveredLocals, hQ]
  have hlc : im.localsCount = im.publicLocals.length + Q.length := by
    rw [Image.localsCount, hQ']
  have hlen := copied_length im
  rw [hQ'] at hlen
  have hph1 : im.placeholder ≤ 1 := by unfold Image.placeholder; split <;> omega
  have hsplit : im.sz * (im.placeholder + im.copied.length) = im.sz * im.placeholder +
      im.sz * (im.publicLocals.length + Q.length) + im.sz * im.exported.length +
      im.sz * im.imported.length := by
    rw [hlen]
    simp only [Nat.mul_add]
    omega
  have hCs : im.placeholder + im.copied.length ≤ im.symbolSlots := by
    unfold Image.symbolSlots
    omega
  have hcop : im.sz * (im.placeholder + im.copied.length) ≤ im.sz * im.symbolSlots :=
    Nat.mul_le_mul_left _ hCs
  have hsl : im.symbolSlots ≤ im.sz * im.symbolSlots := Nat.le_mul_of_pos_left _ (by omega)
  have hW₃ : StoresIn im (im.blobLog im.o.dyldInfo bindOff bindSize 0 ++
      im.blobLog im.o.dyldInfo weakBindOff weakBindSize im.weakBindStart ++
      im.blobLog im.o.dyldInfo lazyBindOff lazyBindSize im.lazyBindStart)
      ([(.dyldInfo, bindOff)] ++ [(.dyldInfo, weakBindOff)] ++ [(.dyldInfo, lazyBindOff)]) :=
    ((storesIn_blobLog .dyldInfo _ _ _).append (storesIn_blobLog .dyldInfo _ _ _)).append
      (storesIn_blobLog .dyldInfo _ _ _)
  obtain ⟨s₄, h₄, hb₄, hk₄, ho₄, hr₄, hp₄, hc₄, hf₄, ht₄, hi₄, hs₄, hph₄⟩ :=
    searchRedactedSymbol_spec hp.dySymTab hs
      (hp.read_between_pair hW₃ (by decide) hs (rfl : cmdOf im .dysymtab = _) (by decide) (by decide))
      hred (by rw [hcount]; decide) (by
        have := Nat.mul_le_mul_left im.sz (Nat.le_add_right im.placeholder im.copied.length)
        omega) hsz
  have hc₄' : s₄.symbolsCount = im.placeholder := by
    rw [hc₄, hcount, Nat.zero_add, u32_of_lt (by omega)]
  have hfind : ∀ sc info, im.o.findLocalSymbolEntries s₄.pages.hdr sc info =
      im.o.findLocalSymbolEntries im.hdr sc info :=
    findLocalSymbolEntries_congr im.o fun text ht => by
      obtain ⟨hm, hid⟩ := hp.wf.segment _ _ ht
      rw [hb₄.hdr]
      exact hp.readLE_writeLog_segment hW₃ (by decide) im.hdr hm hid (by cases im.o.width <;> decide)
  obtain ⟨s₅, h₅, hb₅, hk₅, ho₅, hv₅, hu₅⟩ := copyLocalSymbols_spec hp.dySymTab hp.symTab hb₄
    (hp.reads_between hW₃ (by decide) hb₄ (by decide) (by decide)) hfind hQ (by rw [ho₄]; omega)
  have hv₅' := hv₅
  simp only [copyView, Prod.mk.injEq] at hv₅'
  have hc₅ : s₅.symbolsCount = im.placeholder + im.localsCount := by
    rw [hv₅'.2.2.1, copyAll_symbolsCount _ (by omega), hc₄', List.length_append, hlc,
      u32_of_lt (by omega)]
  obtain ⟨s₇, h₇, hb₇, hk₇, ho₇, hv₇, hi₇, ht₇, hs₇, hr₇, hf₇⟩ :=
    copyRanges hp hfit (hW₃.append (storesIn_rangeLog ilocalsym nlocalsym _ _)) (by decide)
      (by decide) hb₅ hc₅ (by
        have := Nat.mul_add im.sz im.exported.length im.imported.length
        rw [hsplit] at hcop
        omega)
  have hv : copyView s₇ = copyView (copyAll im.sz s₄ s₄.offset im.copied) := by
    rw [show im.copied = im.publicLocals ++ Q ++ (im.rangeSources im.exported ++
      im.rangeSources im.imported) by rw [Image.copied, hQ', List.append_assoc]]
    exact copyView_trans im.sz hv₅ (by rw [ho₅, List.length_append]) hv₇
  have hv' := hv
  simp only [copyView, Prod.mk.injEq] at hv'
  obtain ⟨-, hP, hC, -⟩ := hv'
  have hpool₇ : s₇.stringsPool = addAll StringPool.new im.names := by
    rw [hP, copyAll_pool, hp₄, hpool, Image.names, addAll_append]
  have hk₄₇ := hk₅.trans hk₇
  have ho₇' : s₇.offset = im.symbolsStart + im.sz * (im.placeholder + im.copied.length) := by
    have := Nat.mul_add im.sz im.exported.length im.imported.length
    rw [ho₇, ho₅, ho₄, ho, hsplit]
    omega
  refine ⟨s₇, ?_, ?_, ho₇', hk₄.trans hk₄₇, hpool₇, ?_, ?_, ?_, ?_, ?_, ?_, ?_,
    fun j hj => copied_slot hfit hv (by rw [ho₄, ho]) hpool₇ hj⟩
  · simpa only [h₄, h₅, Option.bind_eq_bind, Option.some_bind] using h₇
  · rw [hc₄', ← hlc] at hb₇
    exact hb₇
  · rw [hC, copyAll_symbolsCount _ (by omega), hc₄', u32_of_lt (by omega)]
  · rw [hi₇, hu₅.indices, hi₄, hidx]
    exact recordRange_newIndex hfit
  · rw [hf₇, hu₅.flag, hf₄]
  · rw [ht₇, hu₅.tracker, ht₄]
  · rw [hs₇, hu₅.start, hs₄]
  · rw [hr₇, hu₅.redacted, hr₄]
  · intro hR
    have hph : im.placeholder = 1 := by simp [Image.placeholder, hR]
    obtain ⟨hn₀, hn₄, hrest⟩ := hph₄ hR
    have hkeep : ∀ x < im.symbolsStart + im.sz, s₇.newLinkedit x = s₄.newLinkedit x :=
      fun x hx => hk₄₇.2 x (by rw [ho₄, ho, hph, Nat.mul_one]; exact hx)
    refine ⟨⟨(StringPool.new.addString redactedName).1, ?_, ?_⟩, ?_, fun i hi hi' => ?_⟩
    · rw [hpool₇, Image.names, if_neg hR, List.singleton_append, addAll_cons]
      exact lookupIndex_addAll_of_eq (lookupIndex_addString _ _) _
    · rw [read32_congr fun i hi => hkeep _ (by omega), ← ho, hn₀, hpool]
      decide
    · rw [hkeep _ (by omega), ← ho]
      exact hn₄
    · rw [hkeep _ (by omega), ← ho, hrest _ (by omega)]
      exact hs.zero _ (by omega)

end SymbolPasses

section TablePasses

variable {im : Image}

theorem pad_le (x : ℕ) : pad x ≤ x + 7 := by
  unfold pad
  omega

theorem poolLength_pos (im : Image) : 1 ≤ im.poolLength :=
  keysLength_le_insertKeys [[]] im.names

theorem newIndex_lt (hfit : im.CursorFits) {k v : ℕ} (h : im.newIndex k = some v) : v < 2 ^ 32 := by
  have hslots := symbolSlots_lt hfit
  have hle : im.symbolSlots ≤ im.sz * im.symbolSlots :=
    Nat.le_mul_of_pos_left _ (by have := sz_ge im; omega)
  have hC : im.placeholder + im.localsCount + im.exported.length + im.imported.length ≤
      im.symbolSlots := by
    simp only [Image.symbolSlots, copied_length, Image.localsCount]
    omega
  simp only [Image.newIndex] at h
  split_ifs at h with hU hE
  · have hk : k - read32 im.hdr (im.dy + iundefsym) < im.imported.length := by
      simp only [Image.imported, Image.rangeIndices, List.mem_range'_1] at hU
      simp only [Image.imported, Image.rangeIndices, List.length_range']
      omega
    cases h
    omega
  · have hk : k - read32 im.hdr (im.dy + iextdefsym) < im.exported.length := by
      simp only [Image.exported, Image.rangeIndices, List.mem_range'_1] at hE
      simp only [Image.exported, Image.rangeIndices, List.length_range']
      omega
    cases h
    omega

variable (hp : Placed im) (hfit : im.CursorFits)
include hp hfit

/-- The passes after the symbol copies: the symbol table closed and tracked, the two
`linkedit_data` blobs, the indirect table through `newIndex`, and the pool. -/
theorem tableStage {s : Run}
    (hs : Between im (im.blobLog im.o.dyldInfo bindOff bindSize 0 ++
      im.blobLog im.o.dyldInfo weakBindOff weakBindSize im.weakBindStart ++
      im.blobLog im.o.dyldInfo lazyBindOff lazyBindSize im.lazyBindStart ++
      im.rangeLog ilocalsym nlocalsym im.placeholder im.localsCount ++
      im.rangeLog iextdefsym nextdefsym (im.placeholder + im.localsCount) im.exported.length ++
      im.rangeLog iundefsym nundefsym (im.placeholder + im.localsCount + im.exported.length)
        im.imported.length) s)
    (ho : s.offset = im.symbolsStart + im.sz * (im.placeholder + im.copied.length))
    (hstart : s.newSymbolEntriesStart = im.symbolsStart) (hred : s.redactedSymbolsCount = im.redacted)
    (hcount : s.symbolsCount = im.placeholder + im.copied.length)
    (hpool : s.stringsPool = addAll StringPool.new im.names) (hidx : s.newSymbolIndicies = im.newIndex) :
    ∃ s', im.o.copyStringPool (im.o.copyIndirectSymbolTable (im.o.copyDataInCode
        (im.o.copyFunctionStarts (im.o.endSymbolEntries s)))) = some s' ∧
      Between im im.log s' ∧ s'.offset = im.layoutEnd ∧ Keeps s s' ∧
      s'.tracker = withTracked s.tracker
        ([⟨im.st + symoff, im.o.linkeditStart + im.symbolsStart, pad (im.sz * im.symbolSlots)⟩] ++
          im.blobRegion im.functionStarts dataoff datasize im.functionStartsStart ++
          im.blobRegion im.dataInCode dataoff datasize im.dataInCodeStart ++
          [⟨im.dy + indirectsymoff, im.o.linkeditStart + im.indirectStart, pad (4 * im.nIndirect)⟩,
            ⟨im.st + stroff, im.o.linkeditStart + im.poolStart, pad im.poolLength⟩]) ∧
      s'.stringsPool = s.stringsPool ∧ s'.hasRedactedIndirect = s.hasRedactedIndirect ∧
      (∀ x, s.offset ≤ x → x < im.functionStartsStart → s'.newLinkedit x = 0) ∧
      BlobAt im s'.newLinkedit im.functionStarts dataoff datasize im.functionStartsStart ∧
      BlobAt im s'.newLinkedit im.dataInCode dataoff datasize im.dataInCodeStart ∧
      (∀ i < im.nIndirect, read32 s'.newLinkedit (im.indirectStart + 4 * i) =
        (im.newIndex (im.oldIndirect i)).getD 0) ∧
      (∀ x, im.indirectStart + 4 * im.nIndirect ≤ x → x < im.poolStart → s'.newLinkedit x = 0) ∧
      (∀ x, im.poolStart + im.poolLength ≤ x → x < im.layoutEnd → s'.newLinkedit x = 0) ∧
      ∀ e ∈ s.stringsPool.pool, ∀ n, e.1.length < n →
        cstr s'.newLinkedit (im.poolStart + e.2) n = e.1 := by
  obtain ⟨-, -, -, e₄, e₅, e₆, e₇, e₈⟩ := starts_eq im
  have hend : im.layoutEnd < 2 ^ 32 := hfit
  have hpl := poolLength_pos im
  have hpad := pad_le (im.sz * im.symbolSlots)
  have hpad8 : 8 ≤ pad im.poolLength := by unfold pad; omega
  have hpk := newPool_packed hfit
  rw [← hpool] at hpk
  have hlen : s.stringsPool.stringsLength = im.poolLength := hpk.2
  have hinner : s.offset + im.sz * s.redactedSymbolsCount - s.newSymbolEntriesStart =
      im.sz * im.symbolSlots := by
    rw [ho, hred, hstart, Image.symbolSlots, Nat.mul_add im.sz (im.placeholder + _)]
    omega
  have hW₆ := (((((storesIn_blobLog .dyldInfo bindOff bindSize 0).append
    (storesIn_blobLog .dyldInfo weakBindOff weakBindSize im.weakBindStart)).append
    (storesIn_blobLog .dyldInfo lazyBindOff lazyBindSize im.lazyBindStart)).append
    (storesIn_rangeLog ilocalsym nlocalsym im.placeholder im.localsCount)).append
    (storesIn_rangeLog iextdefsym nextdefsym (im.placeholder + im.localsCount)
      im.exported.length)).append
    (storesIn_rangeLog iundefsym nundefsym (im.placeholder + im.localsCount + im.exported.length)
      im.imported.length : StoresIn im _ _)
  obtain ⟨hb₈, ho₈, ht₈, hk₈, hn₈, hq₈⟩ := endSymbolEntries_spec hp.symTab hs
    (by rw [hstart, ho]; omega) (by rw [hinner, hstart]; omega)
  generalize hs₈ : im.o.endSymbolEntries s = s₈ at *
  rw [hstart, hcount] at hb₈
  rw [hinner, hstart] at ht₈
  have o₈ : s₈.offset = im.functionStartsStart := by
    rw [ho₈, e₄, ← hinner, hstart, ho]
    omega
  have hW₇ := hW₆.append (storesIn_pair (rfl : cmdOf im .symtab = some im.st) symoff nsyms
    (im.o.linkeditOffset + im.symbolsStart) (im.placeholder + im.copied.length))
  rw [copyFunctionStarts_eq im fun lc hlc => by
    rw [hb₈.hdr]
    exact hp.read32_writeLog_cmd hW₇ (by decide) im.hdr hlc]
  have hr₉ : ∀ c, im.functionStarts = some c →
      read32 s₈.pages.hdr (c + datasize) = read32 im.hdr (c + datasize) ∧
      read32 s₈.pages.hdr (c + dataoff) = read32 im.hdr (c + dataoff) := fun c hc =>
    hp.read_between_pair hW₇ (by decide) hb₈ (show cmdOf im .functionStarts = some c from hc)
      (by decide) (by decide)
  obtain ⟨hb₉, ho₉, ht₉, hk₉⟩ := copyVerbatim_between im im.functionStarts dataoff datasize hb₈ hr₉
    (by rw [o₈]; omega)
  have hB₉ := copyVerbatim_blobAt im im.functionStarts dataoff datasize hb₈ hr₉
  have hq₉ := copyVerbatim_sameSymbols im im.functionStarts dataoff datasize s₈
  generalize hs₉ : im.o.copyVerbatim im.functionStarts dataoff datasize s₈ = s₉ at *
  have o₉ : s₉.offset = im.dataInCodeStart := by rw [ho₉, o₈, e₅]
  have hW₈ := hW₇.append (storesIn_blobLog .functionStarts dataoff datasize s₈.offset : StoresIn im _ _)
  rw [copyDataInCode_eq im fun lc hlc => by
    rw [hb₉.hdr]
    exact hp.read32_writeLog_cmd hW₈ (by decide) im.hdr hlc]
  have hr₁₀ : ∀ c, im.dataInCode = some c →
      read32 s₉.pages.hdr (c + datasize) = read32 im.hdr (c + datasize) ∧
      read32 s₉.pages.hdr (c + dataoff) = read32 im.hdr (c + dataoff) := fun c hc =>
    hp.read_between_pair hW₈ (by decide) hb₉ (show cmdOf im .dataInCode = some c from hc)
      (by decide) (by decide)
  obtain ⟨hb₁₀, ho₁₀, ht₁₀, hk₁₀⟩ := copyVerbatim_between im im.dataInCode dataoff datasize hb₉ hr₁₀
    (by rw [o₉]; omega)
  have hB₁₀ := copyVerbatim_blobAt im im.dataInCode dataoff datasize hb₉ hr₁₀
  have hq₁₀ := copyVerbatim_sameSymbols im im.dataInCode dataoff datasize s₉
  generalize hs₁₀ : im.o.copyVerbatim im.dataInCode dataoff datasize s₉ = s₁₀ at *
  have o₁₀ : s₁₀.offset = im.indirectStart := by rw [ho₁₀, o₉, e₆]
  have hW₉ := hW₈.append (storesIn_blobLog .dataInCode dataoff datasize s₉.offset : StoresIn im _ _)
  obtain ⟨hb₁₁, ho₁₁, ht₁₁, hk₁₁, hz₁₁, hin₁₁, hp₁₁, hf₁₁⟩ :=
    copyIndirectSymbolTable_spec hp.dySymTab hb₁₀
    (hp.read_between_pair hW₉ (by decide) hb₁₀ (rfl : cmdOf im .dysymtab = _) (by decide) (by decide))
    (by rw [o₁₀]; omega)
  have hidx₁₀ : s₁₀.newSymbolIndicies = im.newIndex := by
    rw [hq₁₀.indices, hq₉.indices, hq₈.indices, hidx]
  generalize hs₁₁ : im.o.copyIndirectSymbolTable s₁₀ = s₁₁ at *
  have o₁₁ : s₁₁.offset = im.poolStart := by rw [ho₁₁, o₁₀, e₇]
  have hpool₁₁ : s₁₁.stringsPool = s.stringsPool := by
    rw [hp₁₁, hq₁₀.pool, hq₉.pool, hq₈.pool]
  obtain ⟨s₁₂, h₁₂, hb₁₂, ho₁₂, ht₁₂, hk₁₂, hq₁₂, hz₁₂, hstr₁₂⟩ := copyStringPool_spec hp.symTab hb₁₁
    (by rw [hpool₁₁]; exact hpk.1) (by rw [o₁₁, hpool₁₁, hlen]; omega)
  simp only [hpool₁₁, hlen, o₁₁] at hb₁₂ ho₁₂ ht₁₂ hz₁₂ hstr₁₂
  have hk₁₂' := hk₁₁.trans hk₁₂
  have hk₉' := hk₉.trans (hk₁₀.trans hk₁₂')
  refine ⟨s₁₂, h₁₂, ?_, by rw [ho₁₂, e₈], hk₈.trans hk₉', ?_, by rw [hq₁₂.pool, hpool₁₁],
    by rw [hq₁₂.flag, hf₁₁, hq₁₀.flag, hq₉.flag, hq₈.flag], fun x hx hx' => ?_, ?_, ?_,
    fun i hi => ?_, fun x hx hx' => ?_, fun x hx hx' => ?_, hstr₁₂⟩
  · rw [o₈, o₉, o₁₀] at hb₁₂
    simpa only [Image.log, List.append_assoc, List.cons_append, List.singleton_append,
      List.nil_append] using hb₁₂
  · simp only [ht₁₂, ht₁₁, ht₁₀, ht₉, ht₈, o₈, o₉, o₁₀, withTracked, trackAll, List.foldl_append,
      List.foldl_cons, List.foldl_nil]
  · rw [hk₉'.2 x (by rw [o₈]; exact hx'), hn₈]
    exact hs.zero x hx
  · rw [o₈] at hB₉
    exact hB₉.keep fun x hx => (hk₁₀.trans hk₁₂').2 x (by rw [o₉, e₅]; exact hx)
  · rw [o₉] at hB₁₀
    exact hB₁₀.keep fun x hx => hk₁₂'.2 x (by rw [o₁₀, e₆]; exact hx)
  · have h := hin₁₁ i hi
    rw [o₁₀, hidx₁₀] at h
    have hle := le_pad (4 * im.nIndirect)
    rw [read32_congr fun j hj => hk₁₂.2 _ (by rw [o₁₁, e₇]; omega), h]
    cases hv : im.newIndex (im.oldIndirect i) with
    | none => rfl
    | some v => exact u32_of_lt (newIndex_lt hfit hv)
  · rw [hk₁₂.2 x (by rw [o₁₁]; exact hx'), hz₁₁ x (by rw [o₁₀]; exact hx)]
    exact hb₁₀.zero x (by rw [o₁₀]; omega)
  · rw [hz₁₂ x hx]
    exact hb₁₁.zero x (by rw [o₁₁]; omega)

end TablePasses

end DyldLinkedit.Pipeline
