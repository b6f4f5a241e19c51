import DyldLinkedit.SymbolTable

/-!
# The new LINKEDIT, byte for byte

`Layout` places each region of the new LINKEDIT; `layoutByte` says what every byte of the
layout holds, from the image alone: each verbatim stream, then zeros up to its 8-byte
boundary; the symbol slots (the placeholder, each copied `nlist` with the `n_strx` of its name
in the new pool, then zero slots); the new indirect table, then zeros; the string table, the
distinct names in order of first use each with its terminator, then zeros.

A run writes exactly these bytes from the start of LINKEDIT up to the final cursor, so nothing
of the old LINKEDIT and nothing the passes wrote and moved past shows through.
-/

set_option autoImplicit false

namespace DyldLinkedit.LinkeditBytes
open DyldLinkedit.Memory DyldLinkedit.MachO DyldLinkedit.Tracker DyldLinkedit.Strings
  DyldLinkedit.Optimizer DyldLinkedit.Interning DyldLinkedit.Layout DyldLinkedit.Passes
  DyldLinkedit.Pipeline DyldLinkedit.Result DyldLinkedit.SymbolTable

/-- Byte `i` of the little-endian encoding of `v`. -/
def leByte (v i : ℕ) : UInt8 := UInt8.ofNat (v / 256 ^ i)

/-- Byte `j` of a verbatim region: the stream's bytes, then zeros. -/
def blobByte (im : Image) (cmd : Option ℕ) (offField sizeField j : ℕ) : UInt8 :=
  match cmd with
  | some c => if j < read32 im.hdr (c + sizeField) then
      im.lnk (im.o.linkeditFile + read32 im.hdr (c + offField) + j) else 0
  | none => 0

/-- The `n_strx` a name gets: its offset in the new pool. -/
def strx (im : Image) (s : List UInt8) : ℕ := (lookupIndex s (newPool im).pool).getD 0

/-- Byte `i` of symbol slot `j`: the placeholder, the copies, then zero slots. -/
def slotByte (im : Image) (j i : ℕ) : UInt8 :=
  if j < im.placeholder then
    if i < 4 then leByte (strx im redactedName) i else if i = 4 then 1 else 0
  else
    match im.copied[j - im.placeholder]? with
    | some src => if i < 4 then leByte (strx im src.name) i else src.mem (src.entry + i)
    | none => 0

/-- Byte `j` of the indirect table: entry `j / 4` through `newIndex`, then zeros. -/
def indirectByte (im : Image) (j : ℕ) : UInt8 :=
  if j < 4 * im.nIndirect then leByte ((im.newIndex (im.oldIndirect (j / 4))).getD 0) (j % 4)
  else 0

/-- Byte `j` of the string table: the names, each with its terminator, then zeros. -/
def poolByte (im : Image) (j : ℕ) : UInt8 :=
  (((insertKeys [[]] im.names).map fun s => s ++ [0]).flatten).getD j 0

/-- Byte `x` of the new LINKEDIT, region by region. -/
def layoutByte (im : Image) (x : ℕ) : UInt8 :=
  if x < im.weakBindStart then blobByte im im.o.dyldInfo bindOff bindSize x
  else if x < im.lazyBindStart then
    blobByte im im.o.dyldInfo weakBindOff weakBindSize (x - im.weakBindStart)
  else if x < im.symbolsStart then
    blobByte im im.o.dyldInfo lazyBindOff lazyBindSize (x - im.lazyBindStart)
  else if x < im.functionStartsStart then
    slotByte im ((x - im.symbolsStart) / im.sz) ((x - im.symbolsStart) % im.sz)
  else if x < im.dataInCodeStart then
    blobByte im im.functionStarts dataoff datasize (x - im.functionStartsStart)
  else if x < im.indirectStart then
    blobByte im im.dataInCode dataoff datasize (x - im.dataInCodeStart)
  else if x < im.poolStart then indirectByte im (x - im.indirectStart)
  else poolByte im (x - im.poolStart)

section Regions

variable {im : Image} {N : Mem}

theorem blob_bytes {cmd : Option ℕ} {offField sizeField start : ℕ}
    (hB : BlobAt im N cmd offField sizeField start) {j : ℕ}
    (hj : j < pad (im.blobSize cmd sizeField)) :
    N (start + j) = blobByte im cmd offField sizeField j := by
  cases cmd with
  | none => exact absurd hj (by simp [Image.blobSize, pad])
  | some c =>
    obtain ⟨hin, hpad⟩ := hB c rfl
    dsimp only [blobByte]
    split_ifs with h
    · exact hin j h
    · exact hpad j (Nat.le_of_not_lt h) hj

theorem slot_bytes (hS : SymbolsAt im N (newPool im)) {x : ℕ} (h₁ : im.symbolsStart ≤ x)
    (h₂ : x < im.functionStartsStart) :
    N x = slotByte im ((x - im.symbolsStart) / im.sz) ((x - im.symbolsStart) % im.sz) := by
  have hsz := sz_ge im
  have hx : x = im.symbolsStart + im.sz * ((x - im.symbolsStart) / im.sz) +
      (x - im.symbolsStart) % im.sz := by
    have := Nat.div_add_mod (x - im.symbolsStart) im.sz
    omega
  have hi : (x - im.symbolsStart) % im.sz < im.sz := Nat.mod_lt _ (by omega)
  generalize (x - im.symbolsStart) / im.sz = j at hx
  generalize (x - im.symbolsStart) % im.sz = i at hx hi
  subst hx
  unfold slotByte
  by_cases hj : j < im.placeholder
  · rw [if_pos hj]
    have hR : im.redacted ≠ 0 := fun h0 => by simp [Image.placeholder, h0] at hj
    have hj0 : j = 0 := by unfold Image.placeholder at hj; simp only [if_neg hR] at hj; omega
    subst hj0
    obtain ⟨⟨k, hk, hread⟩, h4, h5⟩ := hS.placeholder hR
    simp only [Nat.mul_zero, Nat.add_zero] at h4 h5 ⊢
    split_ifs with hi4 hi4'
    · rw [byte_of_read32 N _ hi4, hread, strx, hk]
      rfl
    · rw [hi4', h4]
    · exact h5 i (by omega) hi
  · rw [if_neg hj]
    cases hc : im.copied[j - im.placeholder]? with
    | none =>
      have hlen : im.copied.length ≤ j - im.placeholder := List.getElem?_eq_none_iff.mp hc
      have := Nat.mul_le_mul_left im.sz (show im.placeholder + im.copied.length ≤ j by omega)
      exact hS.reserved _ (by omega) h₂
    | some src =>
      obtain ⟨hlt, rfl⟩ := List.getElem?_eq_some_iff.mp hc
      obtain ⟨hb, k, hk, hread⟩ := hS.copied (j - im.placeholder) hlt
      rw [show im.placeholder + (j - im.placeholder) = j by omega] at hb hread
      dsimp only
      split_ifs with hi4
      · rw [byte_of_read32 N _ hi4, hread, strx, hk]
        rfl
      · exact hb i (by omega) hi

theorem indirect_bytes
    (hI : ∀ i < im.nIndirect, read32 N (im.indirectStart + 4 * i) =
      (im.newIndex (im.oldIndirect i)).getD 0)
    (hpad : ∀ x, im.indirectStart + 4 * im.nIndirect ≤ x → x < im.poolStart → N x = 0) {j : ℕ}
    (hj : j < pad (4 * im.nIndirect)) : N (im.indirectStart + j) = indirectByte im j := by
  unfold indirectByte
  split_ifs with h
  · have hx : im.indirectStart + j = im.indirectStart + 4 * (j / 4) + j % 4 := by omega
    rw [hx, byte_of_read32 N _ (Nat.mod_lt j (by omega)), hI _ (by omega)]
    rfl
  · exact hpad _ (by omega) (by rw [(starts_eq im).2.2.2.2.2.2.1]; omega)

end Regions

theorem pool_byte {im : Image} {seg : ℕ} {t₀ : LinkeditTracker} {flag₀ : Bool} {r : Run}
    (h : Returned im seg t₀ flag₀ r) {y : ℕ} (hy : y < pad im.poolLength) :
    r.newLinkedit (im.poolStart + y) = poolByte im y := by
  have hb := pool_bytes h
  unfold poolByte
  rw [← hb]
  by_cases hl : y < im.poolLength
  · simp [List.getD_eq_getElem?_getD, hl]
  · rw [List.getD_eq_default _ _ (by simpa using hl)]
    exact h.laid.poolPad _ (by omega) (by rw [(starts_eq im).2.2.2.2.2.2.2]; omega)

theorem layout_written {im : Image} {seg : ℕ} {t₀ : LinkeditTracker} {flag₀ : Bool} {r : Run}
    (h : Returned im seg t₀ flag₀ r) {x : ℕ} (hx : x < im.layoutEnd) :
    r.pages.lnk (im.o.linkeditStart + x) = layoutByte im x := by
  obtain ⟨e₁, e₂, e₃, e₄, e₅, e₆, e₇, e₈⟩ := starts_eq im
  rw [h.lnk_at hx]
  unfold layoutByte
  have hL := h.laid
  have hat : ∀ a, a ≤ x → r.newLinkedit (a + (x - a)) = r.newLinkedit x :=
    fun a ha => by rw [Nat.add_sub_cancel' ha]
  by_cases h₁ : x < im.weakBindStart
  · rw [if_pos h₁]
    simpa only [Nat.zero_add] using blob_bytes hL.bind (show x < _ by omega)
  rw [if_neg h₁]
  by_cases h₂ : x < im.lazyBindStart
  · rw [if_pos h₂]
    exact (hat _ (by omega)).symm.trans
      (blob_bytes hL.weakBind (show x - im.weakBindStart < _ by omega))
  rw [if_neg h₂]
  by_cases h₃ : x < im.symbolsStart
  · rw [if_pos h₃]
    exact (hat _ (by omega)).symm.trans
      (blob_bytes hL.lazyBind (show x - im.lazyBindStart < _ by omega))
  rw [if_neg h₃]
  by_cases h₄ : x < im.functionStartsStart
  · rw [if_pos h₄]
    exact slot_bytes hL.symbols (by omega) h₄
  rw [if_neg h₄]
  by_cases h₅ : x < im.dataInCodeStart
  · rw [if_pos h₅]
    exact (hat _ (by omega)).symm.trans
      (blob_bytes hL.functionStarts (show x - im.functionStartsStart < _ by omega))
  rw [if_neg h₅]
  by_cases h₆ : x < im.indirectStart
  · rw [if_pos h₆]
    exact (hat _ (by omega)).symm.trans
      (blob_bytes hL.dataInCode (show x - im.dataInCodeStart < _ by omega))
  rw [if_neg h₆]
  by_cases h₇ : x < im.poolStart
  · rw [if_pos h₇]
    exact (hat _ (by omega)).symm.trans
      (indirect_bytes hL.indirect hL.indirectPad (show x - im.indirectStart < _ by omega))
  rw [if_neg h₇]
  exact (hat _ (by omega)).symm.trans (pool_byte h (show x - im.poolStart < _ by omega))

/-- From the start of LINKEDIT up to the final cursor, `optimizeLinkedit` leaves exactly the
bytes of the layout. -/
theorem linkedit_bytes {eCtx : ExtractionContext} {pg : Pages} {im : Image} {seg : ℕ}
    (hr : Runs eCtx pg im seg) :
    ∃ r, optimizeLinkedit eCtx pg = .ok r ∧
      ∀ x < im.layoutEnd, r.pages.lnk (im.o.linkeditStart + x) = layoutByte im x := by
  obtain ⟨t₀, r, -, hok, h⟩ := hr.returns
  exact ⟨r, hok, fun x hx => layout_written h hx⟩

theorem linkedit_bytes_exported :
    ∃ r, optimizeLinkedit (flatExtraction .pointer64 flatCommands 32)
      IndirectTable.exportedPages = .ok r ∧
      ∀ x < IndirectTable.exportedImage.layoutEnd,
        r.pages.lnk (IndirectTable.exportedImage.o.linkeditStart + x) =
          layoutByte IndirectTable.exportedImage x :=
  linkedit_bytes IndirectTable.exportedImage_runs

end DyldLinkedit.LinkeditBytes
