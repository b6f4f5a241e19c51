import DyldLinkedit.Layout

/-!
# What each pass does

One lemma per pass, in the form the pipeline composes: the cursor's advance, the region it
tracks, the stores it makes to the load commands, and what it leaves alone. `Between` is
what holds between passes; `Keeps` says that a later state has the scratch bytes of an
earlier one below that one's cursor, which is how the content a pass writes survives the
passes after it.
-/

set_option autoImplicit false

namespace DyldLinkedit.Passes
open DyldLinkedit.Memory DyldLinkedit.MachO DyldLinkedit.Tracker DyldLinkedit.Strings
  DyldLinkedit.Optimizer DyldLinkedit.Registry DyldLinkedit.Interning DyldLinkedit.Layout

/-- A state between passes: LINKEDIT untouched, the load commands those of the image with
the stores of `log`, the scratch buffer zero from the cursor on and written only below it. -/
structure Between (im : Image) (log : List (ℕ × ℕ)) (s : Run) : Prop where
  lnk : s.pages.lnk = im.lnk
  hdr : s.pages.hdr = writeLog im.hdr log
  zero : ∀ x, s.offset ≤ x → s.newLinkedit x = 0
  extent : s.extent ≤ s.offset

/-- `s'` has the scratch bytes of `s` below the cursor of `s`, and its cursor is not behind. -/
def Keeps (s s' : Run) : Prop :=
  s.offset ≤ s'.offset ∧ ∀ x < s.offset, s'.newLinkedit x = s.newLinkedit x

/-- Between two passes, `startSymbolEntries` only marks where the symbol table starts. -/
theorem Between.startSymbolEntries {im : Image} {log : List (ℕ × ℕ)} {s : Run}
    (h : Between im log s) : Between im log (im.o.startSymbolEntries s) :=
  ⟨h.lnk, h.hdr, h.zero, h.extent⟩

theorem Keeps.refl (s : Run) : Keeps s s := ⟨le_rfl, fun _ _ => rfl⟩

theorem Keeps.trans {s₁ s₂ s₃ : Run} (h₁ : Keeps s₁ s₂) (h₂ : Keeps s₂ s₃) : Keeps s₁ s₃ :=
  ⟨h₁.1.trans h₂.1, fun x hx => (h₂.2 x (lt_of_lt_of_le hx h₁.1)).trans (h₁.2 x hx)⟩

/-- The members only the symbol passes change are those of `s`. -/
structure SameSymbols (s s' : Run) : Prop where
  pool : s'.stringsPool = s.stringsPool
  count : s'.symbolsCount = s.symbolsCount
  start : s'.newSymbolEntriesStart = s.newSymbolEntriesStart
  redacted : s'.redactedSymbolsCount = s.redactedSymbolsCount
  indices : s'.newSymbolIndicies = s.newSymbolIndicies
  flag : s'.hasRedactedIndirect = s.hasRedactedIndirect

theorem SameSymbols.refl (s : Run) : SameSymbols s s := ⟨rfl, rfl, rfl, rfl, rfl, rfl⟩

theorem SameSymbols.trans {s₁ s₂ s₃ : Run} (h₁ : SameSymbols s₁ s₂) (h₂ : SameSymbols s₂ s₃) :
    SameSymbols s₁ s₃ :=
  ⟨h₂.1.trans h₁.1, h₂.2.trans h₁.2, h₂.3.trans h₁.3, h₂.4.trans h₁.4, h₂.5.trans h₁.5,
    h₂.6.trans h₁.6⟩

theorem alignR_eq {x : ℕ} (h : pad x < 2 ^ 32) : alignR x = pad x := u32_of_lt h

theorem le_pad (x : ℕ) : x ≤ pad x := by unfold pad; omega

theorem pad_mod (x : ℕ) : pad x % 8 = 0 := by unfold pad; omega

theorem grow_le {e a n b : ℕ} (he : e ≤ b) (hn : a + n ≤ b) : grow e a n ≤ b := by
  unfold grow
  split <;> omega

theorem writeLog_rangeLog (im : Image) (m : Mem) (startField countField start count : ℕ) :
    writeLog m (im.rangeLog startField countField start count) =
      setRange m im.dy startField countField start count := by
  unfold Image.rangeLog setRange
  split <;> rfl

section Verbatim

variable (im : Image) {log : List (ℕ × ℕ)} {s : Run} (cmd : Option ℕ) (offField sizeField : ℕ)

/-- A verbatim pass over a state between passes. Its two reads must find the image's
values, and the padded blob must fit below `2^32`. -/
theorem copyVerbatim_between (hs : Between im log s)
    (hread : ∀ c, cmd = some c → read32 s.pages.hdr (c + sizeField) = read32 im.hdr (c + sizeField)
      ∧ read32 s.pages.hdr (c + offField) = read32 im.hdr (c + offField))
    (hfit : s.offset + pad (im.blobSize cmd sizeField) < 2 ^ 32) :
    let s' := im.o.copyVerbatim cmd offField sizeField s
    Between im (log ++ im.blobLog cmd offField sizeField s.offset) s' ∧
      s'.offset = s.offset + pad (im.blobSize cmd sizeField) ∧
      s'.tracker = { s.tracker with
        trackingData := trackAll s.tracker.trackingData (im.blobRegion cmd offField sizeField s.offset) } ∧
      Keeps s s' := by
  intro s'
  cases cmd with
  | none => exact ⟨by simpa [Image.blobLog] using hs, by simp [s', Image.blobSize, pad,
      LinkeditOptimizer.copyVerbatim], by simp [s', Image.blobRegion, trackAll,
      LinkeditOptimizer.copyVerbatim], Keeps.refl s⟩
  | some c =>
    obtain ⟨hsize, hoff⟩ := hread c rfl
    simp only [Image.blobSize] at hfit
    by_cases h0 : read32 im.hdr (c + sizeField) = 0
    · have hs' : s' = s := by simp [s', LinkeditOptimizer.copyVerbatim, hsize, h0]
      rw [hs']
      exact ⟨by simpa [Image.blobLog, h0] using hs, by simp [Image.blobSize, h0, pad], by
        simp [Image.blobRegion, h0, trackAll], Keeps.refl s⟩
    · have hpad : alignR (read32 im.hdr (c + sizeField)) = pad (read32 im.hdr (c + sizeField)) :=
        alignR_eq (by omega)
      have hle := le_pad (read32 im.hdr (c + sizeField))
      have hext := hs.extent
      simp only [s', LinkeditOptimizer.copyVerbatim, hsize, h0, if_false, hpad,
        u32_of_lt hfit]
      refine ⟨⟨hs.lnk, ?_, fun x hx => ?_, grow_le (by dsimp only; omega) (by dsimp only; omega)⟩,
        by simp [Image.blobSize], by simp [Image.blobRegion, h0, trackAll, LinkeditTracker.trackData],
        ⟨by dsimp only; omega, fun x hx => copy_of_apart _ _ _ _ _ (.inl hx)⟩⟩
      · simp [hs.hdr, Image.blobLog, h0, writeLog_append, write32]
      · dsimp only at hx ⊢
        rw [copy_of_apart _ _ _ _ _ (.inr (by omega))]
        exact hs.zero x (by omega)

theorem copyVerbatim_sameSymbols (s : Run) :
    SameSymbols s (im.o.copyVerbatim cmd offField sizeField s) := by
  unfold LinkeditOptimizer.copyVerbatim
  split
  · exact SameSymbols.refl s
  · dsimp only
    split
    · exact SameSymbols.refl s
    · exact ⟨rfl, rfl, rfl, rfl, rfl, rfl⟩

/-- The blob lands at the cursor. -/
theorem copyVerbatim_at {c : ℕ} (hc : cmd = some c) (s : Run) {j : ℕ}
    (hj : j < read32 s.pages.hdr (c + sizeField)) :
    (im.o.copyVerbatim cmd offField sizeField s).newLinkedit (s.offset + j) =
      s.pages.lnk (im.o.linkeditFile + read32 s.pages.hdr (c + offField) + j) := by
  subst hc
  have h0 : read32 s.pages.hdr (c + sizeField) ≠ 0 := by omega
  simp only [LinkeditOptimizer.copyVerbatim, h0, if_false]
  exact copy_at _ _ _ _ _ hj

/-- Past its blob, a verbatim pass leaves the buffer alone. -/
theorem copyVerbatim_of_ge {c : ℕ} (hc : cmd = some c) (s : Run) {x : ℕ}
    (hx : s.offset + read32 s.pages.hdr (c + sizeField) ≤ x) :
    (im.o.copyVerbatim cmd offField sizeField s).newLinkedit x = s.newLinkedit x := by
  subst hc
  simp only [LinkeditOptimizer.copyVerbatim]
  split_ifs
  · rfl
  · exact copy_of_apart _ _ _ _ _ (.inr hx)

/-- The scratch buffer `N` holds the blob of `cmd` at `start`, then zeros up to its padded end. -/
def BlobAt (N : Mem) (cmd : Option ℕ) (offField sizeField start : ℕ) : Prop :=
  ∀ c, cmd = some c →
    (∀ j < read32 im.hdr (c + sizeField),
      N (start + j) = im.lnk (im.o.linkeditFile + read32 im.hdr (c + offField) + j)) ∧
    ∀ j, read32 im.hdr (c + sizeField) ≤ j → j < pad (read32 im.hdr (c + sizeField)) →
      N (start + j) = 0

theorem BlobAt.keep {im : Image} {cmd : Option ℕ} {offField sizeField : ℕ} {N N' : Mem} {start : ℕ}
    (h : BlobAt im N cmd offField sizeField start)
    (hN : ∀ x < start + pad (im.blobSize cmd sizeField), N' x = N x) :
    BlobAt im N' cmd offField sizeField start := by
  intro c hc
  subst hc
  obtain ⟨h₁, h₂⟩ := h c rfl
  have hle := le_pad (read32 im.hdr (c + sizeField))
  simp only [Image.blobSize] at hN
  exact ⟨fun j hj => by rw [hN _ (by omega)]; exact h₁ j hj,
    fun j hj hj' => by rw [hN _ (by omega)]; exact h₂ j hj hj'⟩

/-- A verbatim pass leaves its blob at the cursor, and zeros after it up to its padded end. -/
theorem copyVerbatim_blobAt (hs : Between im log s)
    (hread : ∀ c, cmd = some c → read32 s.pages.hdr (c + sizeField) = read32 im.hdr (c + sizeField)
      ∧ read32 s.pages.hdr (c + offField) = read32 im.hdr (c + offField)) :
    BlobAt im (im.o.copyVerbatim cmd offField sizeField s).newLinkedit cmd offField sizeField
      s.offset := by
  intro c hc
  obtain ⟨hsize, hoff⟩ := hread c hc
  refine ⟨fun j hj => ?_, fun j hj _ => ?_⟩
  · rw [copyVerbatim_at im cmd offField sizeField hc s (by rw [hsize]; exact hj), hoff, hs.lnk]
  · rw [copyVerbatim_of_ge im cmd offField sizeField hc s (by omega)]
    exact hs.zero _ (by omega)

end Verbatim

end DyldLinkedit.Passes
