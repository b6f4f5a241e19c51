import DyldLinkedit.Pipeline

/-!
# What `optimizeLinkedit` returns

The stage theorems of `Pipeline`, composed. From a well-formed image with a `__TEXT,__text`
section, whose recovered locals can be read and whose layout fits a `uint32_t` (`Prepared`),
the passes lay the image out; when the layout also fits in the segment's `vmsize` (`Runs`),
`optimizeLinkedit` returns, and what it returns is the layout of `Layout`: the scratch
buffer holds every region where the layout puts it (`Laid`), the registry holds `regions`,
the load commands hold the stores of `log` with `vmsize` and `filesize` set to the cursor,
and LINKEDIT begins with the first `layoutEnd` bytes of the scratch buffer.

Each field a run stores to is stored once (`StoresOnce`), so every store of `log` reads back
at the end.
-/

set_option autoImplicit false

namespace DyldLinkedit.Result
open DyldLinkedit.Memory DyldLinkedit.MachO DyldLinkedit.Tracker DyldLinkedit.Strings
  DyldLinkedit.Optimizer DyldLinkedit.Registry DyldLinkedit.Interning DyldLinkedit.Layout
  DyldLinkedit.Passes DyldLinkedit.Symbols DyldLinkedit.Commands DyldLinkedit.Pipeline

/-- The fields a run stores to, in the order it stores them. -/
def logFields : List (Cmd × ℕ) :=
  [(.dyldInfo, bindOff), (.dyldInfo, weakBindOff), (.dyldInfo, lazyBindOff),
    (.dysymtab, ilocalsym), (.dysymtab, nlocalsym), (.dysymtab, iextdefsym),
    (.dysymtab, nextdefsym), (.dysymtab, iundefsym), (.dysymtab, nundefsym),
    (.symtab, symoff), (.symtab, nsyms), (.functionStarts, dataoff), (.dataInCode, dataoff),
    (.dysymtab, indirectsymoff), (.symtab, stroff), (.symtab, strsize)]

theorem log_storesOnce (im : Image) : StoresOnce im im.log logFields := by
  unfold Image.log
  exact (((((((((storesOnce_blobLog .dyldInfo bindOff bindSize 0).append
    (storesOnce_blobLog .dyldInfo weakBindOff weakBindSize _)).append
    (storesOnce_blobLog .dyldInfo lazyBindOff lazyBindSize _)).append
    (storesOnce_rangeLog ilocalsym nlocalsym _ _)).append
    (storesOnce_rangeLog iextdefsym nextdefsym _ _)).append
    (storesOnce_rangeLog iundefsym nundefsym _ _)).append
    ((storesOnce_nil.cons (k := .symtab) rfl nsyms _).cons (k := .symtab) rfl symoff _)).append
    (storesOnce_blobLog .functionStarts dataoff datasize _)).append
    (storesOnce_blobLog .dataInCode dataoff datasize _)).append
    (((storesOnce_nil.cons (k := .symtab) rfl strsize _).cons (k := .symtab) rfl stroff _).cons
      (k := .dysymtab) rfl indirectsymoff _)

theorem log_storesIn (im : Image) : StoresIn im im.log logFields := by
  obtain ⟨V, hV, h⟩ := log_storesOnce im
  intro w hw
  obtain ⟨p, hp, c, hc, hw⟩ := exists_of_forall₂ h hw
  exact ⟨p.1, p.2, c, hV.subset hp, hc, hw⟩

theorem logFields_slot : ∀ p ∈ logFields, p.1.Slot p.2 := by decide

theorem read32_writeLog_log {im : Image} (hp : Placed im) (m : Mem) {w : ℕ × ℕ} (hw : w ∈ im.log) :
    read32 (writeLog m im.log) w.1 = u32 w.2 :=
  read32_writeLog_of_mem ((log_storesOnce im).pairwise hp logFields_slot (by decide)) hw

def newPool (im : Image) : StringPool := addAll StringPool.new im.names

/-- The scratch buffer, the registry and the flag at the end of the passes: every region at
its place in the layout. -/
structure Laid (im : Image) (t₀ : LinkeditTracker) (flag₀ : Bool) (s : Run) : Prop where
  offset : s.offset = im.layoutEnd
  tracker : s.tracker = withTracked t₀ im.regions
  flag : s.hasRedactedIndirect = (flag₀ || decide (im.redacted ≠ 0))
  bind : BlobAt im s.newLinkedit im.o.dyldInfo bindOff bindSize 0
  weakBind : BlobAt im s.newLinkedit im.o.dyldInfo weakBindOff weakBindSize im.weakBindStart
  lazyBind : BlobAt im s.newLinkedit im.o.dyldInfo lazyBindOff lazyBindSize im.lazyBindStart
  symbols : SymbolsAt im s.newLinkedit (newPool im)
  functionStarts : BlobAt im s.newLinkedit im.functionStarts dataoff datasize
    im.functionStartsStart
  dataInCode : BlobAt im s.newLinkedit im.dataInCode dataoff datasize im.dataInCodeStart
  indirect : ∀ i < im.nIndirect, read32 s.newLinkedit (im.indirectStart + 4 * i) =
    (im.newIndex (im.oldIndirect i)).getD 0
  strings : ∀ e ∈ (newPool im).pool, ∀ n, e.1.length < n →
    cstr s.newLinkedit (im.poolStart + e.2) n = e.1
  indirectPad : ∀ x, im.indirectStart + 4 * im.nIndirect ≤ x → x < im.poolStart →
    s.newLinkedit x = 0
  poolPad : ∀ x, im.poolStart + im.poolLength ≤ x → x < im.layoutEnd → s.newLinkedit x = 0

theorem passes_eq (o : LinkeditOptimizer) (s : Run) : o.passes s = (do
    let s ← o.searchRedactedSymbol (o.startSymbolEntries (o.copyLazyBindingInfo
      (o.copyWeakBindingInfo (o.copyBindingInfo s))))
    let s ← o.copyLocalSymbols s
    let s ← o.copyExportedSymbols s
    o.copyImportedSymbols s) >>= fun s => o.copyStringPool (o.copyIndirectSymbolTable
      (o.copyDataInCode (o.copyFunctionStarts (o.endSymbolEntries s)))) := by
  simp only [LinkeditOptimizer.passes, bind_assoc]

/-- The passes from the start of a run on the image's pages lay the image out. -/
theorem passes_spec {im : Image} (hp : Placed im) (hfit : im.CursorFits) {Q : List Source}
    (hQ : im.recoveredLocals? = some Q) {pg : Pages} (hhdr : pg.hdr = im.hdr)
    (hlnk : pg.lnk = im.lnk) (t₀ : LinkeditTracker) (flag₀ : Bool) :
    ∃ s, im.o.passes (Run.start pg t₀ flag₀) = some s ∧ Between im im.log s ∧
      Laid im t₀ flag₀ s := by
  obtain ⟨e₁, e₂, e₃, -⟩ := starts_eq im
  have h₀ : Between im [] (Run.start pg t₀ flag₀) := ⟨hlnk, hhdr, fun _ _ => rfl, le_rfl⟩
  obtain ⟨hb₁, ho₁, hst₁, ht₁, hp₁, hc₁, hr₁, hi₁, hf₁, hB₁, hB₂, hB₃⟩ :=
    bindStage hp hfit h₀ rfl rfl
  obtain ⟨s₂, h₂, hb₂, ho₂, hk₂, hp₂, hc₂, hi₂, hf₂, ht₂, hst₂, hr₂, hph₂, hcp₂⟩ :=
    copyStage hp hfit hQ hb₁ ho₁ hp₁ hc₁ hr₁ hi₁
  obtain ⟨s₃, h₃, hb₃, ho₃, hk₃, ht₃, -, hf₃, hz₃, hF₃, hD₃, hI₃, hP₃, hQ₃, hS₃⟩ :=
    tableStage hp hfit hb₂ ho₂ (hst₂.trans hst₁) hr₂ hc₂ hp₂ hi₂
  rw [hp₂] at hph₂ hcp₂ hS₃
  have hk := hk₂.trans hk₃
  have hbind : ∀ x, x < im.symbolsStart → s₃.newLinkedit x = _ := fun x hx => hk.2 x (ho₁ ▸ hx)
  have hslot : ∀ j, j < im.copied.length → ∀ i < im.sz,
      im.symbolsStart + im.sz * (im.placeholder + j) + i < s₂.offset := fun j hj i hi => by
    have := Nat.mul_le_mul_left im.sz
      (show im.placeholder + j + 1 ≤ im.placeholder + im.copied.length by omega)
    rw [Nat.mul_add_one] at this
    rw [ho₂]
    omega
  refine ⟨s₃, by rw [passes_eq, h₂]; exact h₃, hb₃, ho₃, ?_, by rw [hf₃, hf₂, hf₁]; rfl,
    hB₁.keep fun x hx => hbind x (by omega), hB₂.keep fun x hx => hbind x (by omega),
    hB₃.keep fun x hx => hbind x (by omega), ⟨fun hr => ?_, fun j hj => ?_, fun x hx => hz₃ x
      (ho₂ ▸ hx)⟩, hF₃, hD₃, hI₃, hS₃, hP₃, hQ₃⟩
  · rw [ht₃, ht₂, ht₁]
    simp only [withTracked, Image.regions, trackAll_append, List.append_assoc]
    rfl
  · obtain ⟨⟨k, hk, hread⟩, h4, h5⟩ := hph₂ hr
    have hph : im.placeholder = 1 := if_neg hr
    have hlt : ∀ i < im.sz, im.symbolsStart + i < s₂.offset := fun i hi => by
      have := Nat.mul_le_mul_left im.sz (show 1 ≤ im.placeholder + im.copied.length by omega)
      rw [ho₂]
      omega
    have hsz := sz_ge im
    refine ⟨⟨k, hk, ?_⟩, ?_, fun i hi hi' => ?_⟩
    · rw [← hread]
      exact read32_congr fun i hi => hk₃.2 _ (hlt i (by omega))
    · rw [hk₃.2 _ (hlt 4 (by omega)), h4]
    · rw [hk₃.2 _ (hlt i hi'), h5 i hi hi']
  · obtain ⟨hb, k, hk, hread⟩ := hcp₂ j hj
    have hsz := sz_ge im
    refine ⟨fun i hi hi' => ?_, k, hk, ?_⟩
    · rw [hk₃.2 _ (hslot j hj i hi'), hb i hi hi']
    · rw [← hread]
      exact read32_congr fun i hi => hk₃.2 _ (hslot j hj i (by omega))

theorem make_spec {P : PointerWidth} {mCtx : MachoContext} {hdr : Mem} {text seg : ℕ}
    (htext : mCtx.getSection "__TEXT" "__text" = some text)
    (hseg : mCtx.getSegment "__LINKEDIT" = some seg) :
    ∃ t, LinkeditTracker.make P mCtx hdr = .ok t ∧ t.trackingData = [] ∧
      t.linkeditStart = mCtx.convertAddrP (readLE hdr (seg + vmaddrOff) P.addrSize) ∧
      t.linkeditEnd = t.linkeditStart + readLE hdr (seg + P.vmsizeOff) P.addrSize := by
  simp only [LinkeditTracker.make, htext, hseg]
  exact ⟨_, rfl, rfl, rfl, rfl⟩

theorem vmaddr_le_segmentSize (P : PointerWidth) : vmaddrOff + P.addrSize ≤ P.segmentSize := by
  cases P <;> decide

/-- What a run on the image `im`, whose `__LINKEDIT` command is `seg`, computes from the
tracker `t₀`: the layout, the load commands with the stores of `log` and the segment's new size,
and LINKEDIT rebuilt from the scratch buffer. -/
structure Returned (im : Image) (seg : ℕ) (t₀ : LinkeditTracker) (flag₀ : Bool) (r : Run) :
    Prop where
  placed : Placed im
  fits : im.CursorFits
  segment : seg ∈ im.o.mCtx.loadCommands ∧ read32 im.hdr seg = segmentCommand im.o.width
  tracker₀ : t₀.trackingData = [] ∧ t₀.linkeditStart = im.o.linkeditStart ∧
    t₀.linkeditEnd = im.o.linkeditStart +
      readLE im.hdr (seg + im.o.width.vmsizeOff) im.o.width.addrSize
  laid : Laid im t₀ flag₀ r
  extent : r.extent ≤ im.layoutEnd
  hdr : r.pages.hdr = writeLE (writeLE (writeLog im.hdr im.log) (seg + im.o.width.vmsizeOff)
    im.layoutEnd im.o.width.addrSize) (seg + im.o.width.filesizeOff) im.layoutEnd
    im.o.width.addrSize
  lnk : r.pages.lnk = copy im.lnk im.o.linkeditStart r.newLinkedit 0 im.layoutEnd

theorem optimizeLinkedit_of_passes {eCtx : ExtractionContext} {pg : Pages} {t₀ : LinkeditTracker}
    {seg : ℕ} {s : Run} (ht₀ : LinkeditTracker.make eCtx.width eCtx.mCtx pg.hdr = .ok t₀)
    (hseg : eCtx.mCtx.getSegment "__LINKEDIT" = some seg)
    (hs : (LinkeditOptimizer.make eCtx pg.hdr seg).passes
      (Run.start pg t₀ eCtx.hasRedactedIndirect) = some s) :
    optimizeLinkedit eCtx pg =
      if readLE pg.hdr (seg + eCtx.width.vmsizeOff) eCtx.width.addrSize < s.extent ∨
          readLE pg.hdr (seg + eCtx.width.vmsizeOff) eCtx.width.addrSize < s.offset then
        .error .bufferOverrun
      else .ok ((LinkeditOptimizer.make eCtx pg.hdr seg).updateLoadCommands seg
        { s with pages := { s.pages with lnk := copy s.pages.lnk (eCtx.mCtx.convertAddrP
          (readLE s.pages.hdr (seg + vmaddrOff) eCtx.width.addrSize)) s.newLinkedit 0 s.offset } }) := by
  have hmk : (LinkeditTracker.make eCtx.width eCtx.mCtx pg.hdr).mapError Failure.invalidArgument =
      .ok t₀ := by rw [ht₀]; rfl
  simp only [optimizeLinkedit, hmk, hseg, bind, Except.bind, hs]
  split <;> rfl

/-- The images `optimizeLinkedit` gets through the passes on: `im` is the image `imageOf` finds,
its load commands are well formed, it has a `__text` section, its recovered locals can be
read, and its layout fits a `uint32_t`. -/
structure Prepared (eCtx : ExtractionContext) (pg : Pages) (im : Image) (seg : ℕ) : Prop where
  image : imageOf eCtx pg = some (im, seg)
  wf : WellFormed eCtx.width eCtx.mCtx pg.hdr
  text : eCtx.mCtx.getSection "__TEXT" "__text" ≠ none
  recovered : im.recoveredLocals? ≠ none
  fits : im.CursorFits

/-- On a prepared image the passes compute the layout, and `optimizeLinkedit` returns it exactly
when it fits in the `vmsize` bytes of the scratch buffer. -/
theorem Prepared.computes {eCtx : ExtractionContext} {pg : Pages} {im : Image} {seg : ℕ}
    (h : Prepared eCtx pg im seg) :
    ∃ t₀ r, LinkeditTracker.make eCtx.width eCtx.mCtx pg.hdr = .ok t₀ ∧
      Returned im seg t₀ eCtx.hasRedactedIndirect r ∧
      optimizeLinkedit eCtx pg =
        if readLE im.hdr (seg + im.o.width.vmsizeOff) im.o.width.addrSize < im.layoutEnd then
          .error .bufferOverrun
        else .ok r := by
  obtain ⟨hseg, ho, hh, hl, -, -⟩ := imageOf_eq h.image
  have hp := placed_of_imageOf h.image h.wf
  obtain ⟨text, htext⟩ := Option.ne_none_iff_exists'.mp h.text
  obtain ⟨Q, hQ⟩ := Option.ne_none_iff_exists'.mp h.recovered
  obtain ⟨t₀, ht₀, hd₀, hs₀, he₀⟩ := @make_spec eCtx.width eCtx.mCtx pg.hdr text seg htext hseg
  obtain ⟨s, hs, hb, hL⟩ := passes_spec hp h.fits hQ hh.symm hl.symm t₀ eCtx.hasRedactedIndirect
  have hw : im.o.width = eCtx.width := by rw [ho]; rfl
  have hc : im.o.mCtx = eCtx.mCtx := by rw [ho]; rfl
  obtain ⟨hmem, hid⟩ := hp.wf.segment _ _ (hc ▸ hseg)
  have hs₀' : t₀.linkeditStart = im.o.linkeditStart := by rw [hs₀, ho]; rfl
  have hold : eCtx.mCtx.convertAddrP (readLE s.pages.hdr (seg + vmaddrOff) eCtx.width.addrSize) =
      im.o.linkeditStart := by
    rw [hb.hdr, ← hw, hp.readLE_writeLog_segment (log_storesIn im) logFields_slot _ hmem hid
      (vmaddr_le_segmentSize _), hh, ← hs₀', hs₀, hw]
  have hext : s.extent ≤ im.layoutEnd := hL.offset ▸ hb.extent
  refine ⟨t₀, im.o.updateLoadCommands seg { s with pages := { s.pages with
    lnk := copy s.pages.lnk im.o.linkeditStart s.newLinkedit 0 s.offset } }, ht₀,
    ⟨hp, h.fits, ⟨hmem, hid⟩, ⟨hd₀, hs₀', by rw [he₀, hs₀', hw, hh]⟩, { hL with }, hext, ?_, ?_⟩,
    ?_⟩
  · simp only [LinkeditOptimizer.updateLoadCommands, hb.hdr, hL.offset]
  · simp only [LinkeditOptimizer.updateLoadCommands, hb.lnk, hL.offset]
  · rw [optimizeLinkedit_of_passes ht₀ hseg (by rw [← ho]; exact hs), hold, ← ho, hw, hh,
      hL.offset]
    exact if_congr (by omega) rfl rfl

/-- The images `optimizeLinkedit` returns on: prepared, with a layout that fits in the
segment's `vmsize`. -/
structure Runs (eCtx : ExtractionContext) (pg : Pages) (im : Image) (seg : ℕ) extends
    Prepared eCtx pg im seg : Prop where
  room : im.layoutEnd ≤ readLE im.hdr (seg + im.o.width.vmsizeOff) im.o.width.addrSize

theorem Runs.returns {eCtx : ExtractionContext} {pg : Pages} {im : Image} {seg : ℕ}
    (h : Runs eCtx pg im seg) :
    ∃ t₀ r, LinkeditTracker.make eCtx.width eCtx.mCtx pg.hdr = .ok t₀ ∧
      optimizeLinkedit eCtx pg = .ok r ∧ Returned im seg t₀ eCtx.hasRedactedIndirect r := by
  obtain ⟨t₀, r, ht₀, hr, hrun⟩ := h.computes
  exact ⟨t₀, r, ht₀, by rw [hrun, if_neg (not_lt.mpr h.room)], hr⟩

theorem Prepared.overruns {eCtx : ExtractionContext} {pg : Pages} {im : Image} {seg : ℕ}
    (h : Prepared eCtx pg im seg)
    (hover : readLE im.hdr (seg + im.o.width.vmsizeOff) im.o.width.addrSize < im.layoutEnd) :
    optimizeLinkedit eCtx pg = .error .bufferOverrun := by
  obtain ⟨t₀, r, -, -, hrun⟩ := h.computes
  rw [hrun, if_pos hover]

theorem vmsize_le_segmentSize (P : PointerWidth) : P.vmsizeOff + P.addrSize ≤ P.segmentSize := by
  cases P <;> decide

theorem filesize_le_segmentSize (P : PointerWidth) :
    P.filesizeOff + P.addrSize ≤ P.segmentSize := by
  cases P <;> decide

theorem sizes_apart (P : PointerWidth) (seg : ℕ) :
    Apart (seg + P.filesizeOff) P.addrSize (seg + P.vmsizeOff) P.addrSize := by
  unfold Apart
  cases P <;> simp only [PointerWidth.filesizeOff, PointerWidth.vmsizeOff,
    PointerWidth.addrSize] <;> omega

theorem two_pow_le_addrSize (P : PointerWidth) : 2 ^ 32 ≤ 256 ^ P.addrSize := by
  cases P <;> decide

theorem fileFits_addr {im : Image} (hf : im.FileFits) {x : ℕ} (hx : x ≤ im.layoutEnd) :
    im.o.linkeditFile + u32 (im.o.linkeditOffset + x) = im.o.linkeditStart + x := by
  unfold Image.FileFits at hf
  rw [u32_of_lt (by omega)]
  omega

/-- The image a reader sees after the run: the same load commands over the returned pages. -/
def output (im : Image) (r : Run) : Image := { im with hdr := r.pages.hdr, lnk := r.pages.lnk }

theorem output_lnk (im : Image) (r : Run) : (output im r).lnk = r.pages.lnk := rfl

theorem nlist_nStrx (P : PointerWidth) (m : Mem) (a : ℕ) : (Nlist.read P m a).nStrx = read32 m a :=
  rfl

theorem slot_lt {im : Image} {j : ℕ} (hj : j < im.symbolSlots) :
    im.symbolsStart + im.sz * j + im.sz ≤ im.functionStartsStart := by
  have := Nat.mul_le_mul_left im.sz (show j + 1 ≤ im.symbolSlots by omega)
  rw [Nat.mul_add_one] at this
  rw [(starts_eq im).2.2.2.1]
  omega

theorem readLE_zero (a n : ℕ) : readLE (fun _ => 0) a n = 0 := by
  induction n generalizing a with
  | zero => rfl
  | succ n ih => simp [readLE, ih]

namespace Returned

variable {im : Image} {seg : ℕ} {t₀ : LinkeditTracker} {flag₀ : Bool} {r : Run}
  (h : Returned im seg t₀ flag₀ r)
include h

theorem read32_field {k : Cmd} {c f : ℕ} (hc : cmdOf im k = some c) (hf : k.Slot f) :
    read32 r.pages.hdr (c + f) = read32 (writeLog im.hdr im.log) (c + f) := by
  have ap : ∀ f', f' + im.o.width.addrSize ≤ im.o.width.segmentSize →
      Apart (seg + f') im.o.width.addrSize (c + f) 4 := fun f' hn => by
    have := h.placed.apart_segment hc hf h.segment.1 h.segment.2 hn
    unfold Apart at this ⊢
    omega
  rw [h.hdr, read32, readLE_writeLE_of_apart _ _ (ap _ (filesize_le_segmentSize _)),
    readLE_writeLE_of_apart _ _ (ap _ (vmsize_le_segmentSize _))]
  rfl

theorem read32_log {a v : ℕ} (hw : (a, v) ∈ im.log) : read32 r.pages.hdr a = u32 v := by
  obtain ⟨k, f, c, hm, hc, hw1⟩ := log_storesIn im _ hw
  dsimp only at hw1
  have hread := read32_writeLog_log h.placed im.hdr hw
  rw [hw1, h.read32_field hc (logFields_slot _ hm), ← hw1]
  exact hread

theorem read32_unstored {k : Cmd} {c f : ℕ} (hc : cmdOf im k = some c) (hf : k.Slot f)
    (hnot : (k, f) ∉ logFields) : read32 r.pages.hdr (c + f) = read32 im.hdr (c + f) := by
  rw [h.read32_field hc hf, h.placed.read32_writeLog (log_storesIn im) logFields_slot _ hc hf hnot]

theorem vmsize :
    readLE r.pages.hdr (seg + im.o.width.vmsizeOff) im.o.width.addrSize = im.layoutEnd := by
  rw [h.hdr, readLE_writeLE_of_apart _ _ (sizes_apart _ _), readLE_writeLE_self,
    Nat.mod_eq_of_lt (lt_of_lt_of_le h.fits (two_pow_le_addrSize _))]

theorem lnk_at {x : ℕ} (hx : x < im.layoutEnd) :
    r.pages.lnk (im.o.linkeditStart + x) = r.newLinkedit x := by
  rw [h.lnk, copy_at _ _ _ _ _ hx, Nat.zero_add]

theorem readLE_lnk {x n : ℕ} (hx : x + n ≤ im.layoutEnd) :
    readLE r.pages.lnk (im.o.linkeditStart + x) n = readLE r.newLinkedit x n :=
  readLE_congr n fun i hi => by rw [Nat.add_assoc, h.lnk_at (by omega)]

theorem output_symbols (hf : im.FileFits) :
    (output im r).symbols = im.o.linkeditStart + im.symbolsStart := by
  obtain ⟨-, -, -, e₄, e₅, e₆, e₇, e₈⟩ := starts_eq im
  have hw : (im.st + symoff, im.o.linkeditOffset + im.symbolsStart) ∈ im.log := by
    simp [Image.log]
  show im.o.linkeditFile + read32 r.pages.hdr (im.st + symoff) = _
  rw [h.read32_log hw, fileFits_addr hf (by omega)]

theorem output_strings (hf : im.FileFits) :
    (output im r).strings = im.o.linkeditStart + im.poolStart := by
  have hw : (im.st + stroff, im.o.linkeditOffset + im.poolStart) ∈ im.log := by simp [Image.log]
  show im.o.linkeditFile + read32 r.pages.hdr (im.st + stroff) = _
  rw [h.read32_log hw, fileFits_addr hf (by have := (starts_eq im).2.2.2.2.2.2.2; omega)]

theorem output_stringsSize : (output im r).stringsSize = im.poolLength := by
  have hw : (im.st + strsize, im.poolLength) ∈ im.log := by simp [Image.log]
  have := le_pad im.poolLength
  have := (starts_eq im).2.2.2.2.2.2.2
  have := h.fits
  unfold Image.CursorFits at this
  show read32 r.pages.hdr (im.st + strsize) = _
  rw [h.read32_log hw]
  exact u32_of_lt (by omega)

theorem output_nsyms : read32 r.pages.hdr (im.st + nsyms) = im.placeholder + im.copied.length := by
  have hw : (im.st + nsyms, im.placeholder + im.copied.length) ∈ im.log := by simp [Image.log]
  have := symbolSlots_lt h.fits
  have : im.symbolSlots ≤ im.sz * im.symbolSlots :=
    Nat.le_mul_of_pos_left _ (by have := sz_ge im; omega)
  exact (h.read32_log hw).trans (u32_of_lt (by unfold Image.symbolSlots at *; omega))

theorem output_nIndirect : (output im r).nIndirect = im.nIndirect :=
  h.read32_unstored (k := .dysymtab) rfl (by decide) (by decide)

theorem output_indirect (hf : im.FileFits) {i : ℕ} (hi : i < im.nIndirect) :
    (output im r).oldIndirect i = (im.newIndex (im.oldIndirect i)).getD 0 := by
  obtain ⟨-, -, -, -, -, -, e₇, e₈⟩ := starts_eq im
  have hw : (im.dy + indirectsymoff, im.o.linkeditOffset + im.indirectStart) ∈ im.log := by
    simp [Image.log]
  have := le_pad (4 * im.nIndirect)
  have := le_pad im.poolLength
  show read32 r.pages.lnk (im.o.linkeditFile + read32 r.pages.hdr (im.dy + indirectsymoff) +
    4 * i) = _
  rw [h.read32_log hw, fileFits_addr hf (by omega), Nat.add_assoc, read32, h.readLE_lnk (by omega)]
  exact h.laid.indirect i hi

theorem output_symbols_at (hf : im.FileFits) {x : ℕ} (hx : im.symbolsStart + x < im.layoutEnd) :
    (output im r).lnk ((output im r).symbols + x) = r.newLinkedit (im.symbolsStart + x) := by
  rw [h.output_symbols hf, Nat.add_assoc]
  exact h.lnk_at hx

theorem output_name (hf : im.FileFits) {s : List UInt8} {k : ℕ}
    (hk : lookupIndex s (newPool im).pool = some k) :
    k < (output im r).stringsSize ∧
      nameAt (output im r).lnk (output im r).strings (output im r).stringsSize k = s := by
  obtain ⟨-, -, -, -, -, -, -, e₈⟩ := starts_eq im
  have hpk := newPool_packed h.fits
  have hkl : k + s.length + 1 ≤ im.poolLength :=
    hpk.2 ▸ (entry_le_packedEnd hpk.1.ends (lookupIndex_mem hk)).2
  have := le_pad im.poolLength
  have hs : cstr r.newLinkedit (im.poolStart + k) (im.poolLength - k) = s :=
    h.laid.strings (s, k) (lookupIndex_mem hk) (im.poolLength - k) (by
      show s.length < _
      omega)
  rw [h.output_stringsSize, h.output_strings hf, nameAt, output_lnk, ← hs]
  refine ⟨by omega, cstr_congr _ fun i hi => ?_⟩
  rw [show im.o.linkeditStart + im.poolStart + k + i =
    im.o.linkeditStart + (im.poolStart + k + i) by omega]
  exact h.lnk_at (by omega)

/-- Slot `placeholder + j` of the output's symbol table is the `j`-th copied `nlist`, but for
its `n_strx`, which names the symbol's name in the output's string table. -/
theorem output_copied (hf : im.FileFits) {j : ℕ} (hj : j < im.copied.length) :
    let e := Nlist.read im.o.width (output im r).lnk
      ((output im r).symbols + im.sz * (im.placeholder + j))
    { e with nStrx := 0 } = { Nlist.read im.o.width im.copied[j].mem im.copied[j].entry with
      nStrx := 0 } ∧ e.nStrx < (output im r).stringsSize ∧
      nameAt (output im r).lnk (output im r).strings (output im r).stringsSize e.nStrx =
        im.copied[j].name := by
  obtain ⟨hb, k, hk, hread⟩ := h.laid.symbols.copied j hj
  generalize im.copied[j] = src at hb hk ⊢
  obtain ⟨-, -, -, -, e₅, e₆, e₇, e₈⟩ := starts_eq im
  have hslot : im.symbolsStart + im.sz * (im.placeholder + j) + im.sz ≤ im.functionStartsStart :=
    slot_lt (by unfold Image.symbolSlots; omega)
  have hbytes : ∀ i < im.sz, (output im r).lnk ((output im r).symbols +
      im.sz * (im.placeholder + j) + i) =
        r.newLinkedit (im.symbolsStart + im.sz * (im.placeholder + j) + i) := fun i hi => by
    rw [Nat.add_assoc, h.output_symbols_at hf (by omega), ← Nat.add_assoc]
  have hstrx : (Nlist.read im.o.width (output im r).lnk
      ((output im r).symbols + im.sz * (im.placeholder + j))).nStrx = k :=
    (readLE_congr 4 fun i hi => hbytes i (by have := sz_ge im; omega)).trans hread
  dsimp only
  rw [hstrx]
  exact ⟨Nlist.read_tail _ fun i hi hi' => (hbytes i hi').trans (hb i hi hi'), h.output_name hf hk⟩

/-- When an indirect entry is 0, slot 0 of the output's symbol table is the placeholder: named
`<redacted>`, of type 1, every other field 0. -/
theorem output_placeholder (hf : im.FileFits) (hr : im.redacted ≠ 0) :
    let e := Nlist.read im.o.width (output im r).lnk (output im r).symbols
    { e with nStrx := 0 } = ⟨0, 1, 0, 0, 0⟩ ∧
      nameAt (output im r).lnk (output im r).strings (output im r).stringsSize e.nStrx =
        redactedName := by
  obtain ⟨⟨k, hk, hread⟩, h4, h5⟩ := h.laid.symbols.placeholder hr
  obtain ⟨-, -, -, -, e₅, e₆, e₇, e₈⟩ := starts_eq im
  have hslot : im.symbolsStart + im.sz * 0 + im.sz ≤ im.functionStartsStart :=
    slot_lt (by unfold Image.symbolSlots Image.placeholder at *; simp only [if_neg hr]; omega)
  have hn : im.sz = 8 + im.o.width.addrSize := by unfold Image.sz; cases im.o.width <;> rfl
  have hsz : 12 ≤ im.sz := by rw [hn]; cases im.o.width <;> decide
  have hbytes : ∀ i < im.sz, (output im r).lnk ((output im r).symbols + i) =
      r.newLinkedit (im.symbolsStart + i) := fun i hi => h.output_symbols_at hf (by omega)
  have hzero : ∀ i, 5 ≤ i → i < im.sz → (output im r).lnk ((output im r).symbols + i) = 0 :=
    fun i hi hi' => (hbytes i hi').trans (h5 i hi hi')
  have hz : ∀ a n, (∀ i < n, (output im r).lnk (a + i) = 0) → readLE (output im r).lnk a n = 0 :=
    fun a n hz => (@readLE_congr _ (fun _ => 0) a a n hz).trans (readLE_zero a n)
  dsimp only
  rw [show (Nlist.read im.o.width (output im r).lnk (output im r).symbols).nStrx = k from
    (readLE_congr 4 fun i hi => hbytes i (by omega)).trans hread]
  refine ⟨?_, (h.output_name hf hk).2⟩
  simp only [Nlist.read, Nlist.mk.injEq]
  refine ⟨trivial, by rw [hbytes 4 (by omega), h4], hzero 5 le_rfl (by omega),
    hz _ 2 fun i hi => ?_, hz _ _ fun i hi => ?_⟩
  · rw [Nat.add_assoc]
    exact hzero _ (by omega) (by omega)
  · rw [Nat.add_assoc]
    exact hzero _ (by omega) (by omega)

theorem output_reserved (hf : im.FileFits) {x : ℕ} (hx : x < im.sz * im.redacted) :
    (output im r).lnk ((output im r).symbols + im.sz * (im.placeholder + im.copied.length) + x) =
      0 := by
  obtain ⟨-, -, -, e₄, e₅, e₆, e₇, e₈⟩ := starts_eq im
  have he : im.sz * im.symbolSlots =
      im.sz * (im.placeholder + im.copied.length) + im.sz * im.redacted := by
    rw [Image.symbolSlots, Nat.mul_add]
  rw [Nat.add_assoc, h.output_symbols_at hf (by omega)]
  exact h.laid.symbols.reserved _ (by omega) (by omega)

end Returned

/-- A context with load commands `cmds`, `__LINKEDIT` command `seg`, and addresses that are
file offsets into one file at 0. -/
def flatContext (cmds : List ℕ) (seg : ℕ) : MachoContext where
  header := 0
  loadCommands := cmds
  getSegment := fun name => if name = "__LINKEDIT" then some seg else none
  getSection := fun _ _ => some 0
  convertAddr := fun a => (a, 0)

def flatExtraction (P : PointerWidth) (cmds : List ℕ) (seg : ℕ) : ExtractionContext :=
  ⟨P, flatContext cmds seg, ⟨false, 0, none⟩, false⟩

def flatImage (P : PointerWidth) (cmds : List ℕ) (seg st dy : ℕ) (pg : Pages) : Image :=
  ⟨LinkeditOptimizer.make (flatExtraction P cmds seg) pg.hdr seg, pg.hdr, pg.lnk, st, dy⟩

theorem flat_prepared {P : PointerWidth} {cmds : List ℕ} {seg st dy : ℕ} {pg : Pages}
    (himage : imageOf (flatExtraction P cmds seg) pg = some (flatImage P cmds seg st dy pg, seg))
    (hd : cmds.Pairwise fun a b =>
      Apart a (read32 pg.hdr (a + cmdsizeOff)) b (read32 pg.hdr (b + cmdsizeOff)))
    (hs : ∀ lc ∈ cmds, minCommandSize P (read32 pg.hdr lc) ≤ read32 pg.hdr (lc + cmdsizeOff))
    (hseg : seg ∈ cmds ∧ read32 pg.hdr seg = segmentCommand P)
    (hfit : (flatImage P cmds seg st dy pg).CursorFits) :
    Prepared (flatExtraction P cmds seg) pg (flatImage P cmds seg st dy pg) seg :=
  ⟨himage, ⟨hd, hs, fun name s h => by
    simp only [flatExtraction, flatContext] at h
    split_ifs at h
    obtain rfl := Option.some.inj h
    exact hseg⟩, Option.some_ne_none _, Option.some_ne_none _, hfit⟩

theorem flat_runs {P : PointerWidth} {cmds : List ℕ} {seg st dy : ℕ} {pg : Pages}
    (himage : imageOf (flatExtraction P cmds seg) pg = some (flatImage P cmds seg st dy pg, seg))
    (hd : cmds.Pairwise fun a b =>
      Apart a (read32 pg.hdr (a + cmdsizeOff)) b (read32 pg.hdr (b + cmdsizeOff)))
    (hs : ∀ lc ∈ cmds, minCommandSize P (read32 pg.hdr lc) ≤ read32 pg.hdr (lc + cmdsizeOff))
    (hseg : seg ∈ cmds ∧ read32 pg.hdr seg = segmentCommand P)
    (hfit : (flatImage P cmds seg st dy pg).CursorFits)
    (hroom : (flatImage P cmds seg st dy pg).layoutEnd ≤ readLE pg.hdr (seg + P.vmsizeOff) P.addrSize) :
    Runs (flatExtraction P cmds seg) pg (flatImage P cmds seg st dy pg) seg :=
  ⟨flat_prepared himage hd hs hseg hfit, hroom⟩

def flatCommands : List ℕ := [32, 104, 128]

/-- The load commands of a flat 64-bit image whose `__LINKEDIT` is mapped at `vmaddr` for
`vmsize` bytes, with the stores `fields` to its symbol tables. -/
def flatHeader (vmaddr vmsize : ℕ) (fields : List (ℕ × ℕ)) : Mem :=
  writeLog (fun _ => 0) ([(32, lcSegment64), (36, 72), (56, vmaddr), (64, vmsize),
    (104, lcSymtab), (108, 24), (128, lcDysymtab), (132, 80)] ++ fields)

end DyldLinkedit.Result
