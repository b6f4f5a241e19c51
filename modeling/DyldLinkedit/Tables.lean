import DyldLinkedit.Symbols

/-!
# The table passes

The passes after the symbol copies: `endSymbolEntries` closes the symbol table, the two
`linkedit_data` blobs are found by command and copied verbatim, `copyIndirectSymbolTable`
rewrites the indirect table through the index map, and `copyStringPool` writes the pool.
Each lemma has the shape of those in `Passes`: the stores to the load commands, the cursor's
advance, the region tracked, and what the scratch buffer holds afterwards.
-/

set_option autoImplicit false

namespace DyldLinkedit.Tables
open DyldLinkedit.Memory DyldLinkedit.MachO DyldLinkedit.Tracker DyldLinkedit.Strings
  DyldLinkedit.Optimizer DyldLinkedit.Registry DyldLinkedit.Interning DyldLinkedit.Layout
  DyldLinkedit.Passes

section Passes

variable {im : Image} {log : List (ℕ × ℕ)} {s : Run}

/-- `endSymbolEntries` reserves the slots of the zero indirect entries and tracks the symbol
table from its start to the cursor, padded; the cursor itself is not padded. -/
theorem endSymbolEntries_spec (hst : im.o.symTab = some im.st) (hs : Between im log s)
    (hstart : s.newSymbolEntriesStart ≤ s.offset)
    (hfit : s.newSymbolEntriesStart +
      pad (s.offset + im.sz * s.redactedSymbolsCount - s.newSymbolEntriesStart) < 2 ^ 32) :
    let s' := im.o.endSymbolEntries s
    Between im (log ++ [(im.st + symoff, im.o.linkeditOffset + s.newSymbolEntriesStart),
        (im.st + nsyms, s.symbolsCount)]) s' ∧
      s'.offset = s.offset + im.sz * s.redactedSymbolsCount ∧
      s'.tracker = { s.tracker with
        trackingData := trackAll s.tracker.trackingData
          [⟨im.st + symoff, im.o.linkeditStart + s.newSymbolEntriesStart,
            pad (s.offset + im.sz * s.redactedSymbolsCount - s.newSymbolEntriesStart)⟩] } ∧
      Keeps s s' ∧ s'.newLinkedit = s.newLinkedit ∧ SameSymbols s s' := by
  intro s'
  have hle := le_pad (s.offset + im.sz * s.redactedSymbolsCount - s.newSymbolEntriesStart)
  have hend : s.offset + im.sz * s.redactedSymbolsCount < 2 ^ 32 := by omega
  have hoff : u32 (s.offset + im.o.width.nlistSize * s.redactedSymbolsCount) =
      s.offset + im.sz * s.redactedSymbolsCount := u32_of_lt hend
  have hsize : alignR (u32 (s.offset + im.sz * s.redactedSymbolsCount + 2 ^ 32 -
      s.newSymbolEntriesStart)) =
      pad (s.offset + im.sz * s.redactedSymbolsCount - s.newSymbolEntriesStart) := by
    rw [show s.offset + im.sz * s.redactedSymbolsCount + 2 ^ 32 - s.newSymbolEntriesStart =
        (s.offset + im.sz * s.redactedSymbolsCount - s.newSymbolEntriesStart) + 2 ^ 32 by omega,
      u32, Nat.add_mod_right, Nat.mod_eq_of_lt (by omega)]
    exact alignR_eq (by omega)
  have hext := hs.extent
  simp only [s', LinkeditOptimizer.endSymbolEntries, hst, hoff]
  rw [hsize]
  refine ⟨⟨hs.lnk, by simp [hs.hdr, writeLog_append], fun x hx => hs.zero x (by dsimp only at hx; omega),
    by dsimp only; omega⟩, trivial, rfl, ⟨by dsimp only; omega, fun _ _ => rfl⟩, trivial,
    ⟨rfl, rfl, rfl, rfl, rfl, rfl⟩⟩

end Passes

/-- `getLoadCommand` reads only the `cmd` word of each command. -/
theorem getLoadCommand_congr (c : MachoContext) {m m' : Mem}
    (h : ∀ lc ∈ c.loadCommands, read32 m lc = read32 m' lc) (cmds : List ℕ) :
    c.getLoadCommand m cmds = c.getLoadCommand m' cmds := by
  unfold MachoContext.getLoadCommand
  generalize c.loadCommands = lcs at h
  induction lcs with
  | nil => rfl
  | cons lc lcs ih =>
    simp only [List.mem_cons, forall_eq_or_imp] at h
    simp only [List.find?_cons, h.1, ih h.2]

theorem copyFunctionStarts_eq (im : Image) {s : Run}
    (h : ∀ lc ∈ im.o.mCtx.loadCommands, read32 s.pages.hdr lc = read32 im.hdr lc) :
    im.o.copyFunctionStarts s = im.o.copyVerbatim im.functionStarts dataoff datasize s := by
  rw [LinkeditOptimizer.copyFunctionStarts, getLoadCommand_congr _ h]
  rfl

theorem copyDataInCode_eq (im : Image) {s : Run}
    (h : ∀ lc ∈ im.o.mCtx.loadCommands, read32 s.pages.hdr lc = read32 im.hdr lc) :
    im.o.copyDataInCode s = im.o.copyVerbatim im.dataInCode dataoff datasize s := by
  rw [LinkeditOptimizer.copyDataInCode, getLoadCommand_congr _ h]
  rfl

/-- What lookups through `operator[]` make of a map: a key absent from `m` may have been
inserted with value 0, and nothing else changed. -/
def Extends (m m' : ℕ → Option ℕ) : Prop := ∀ k, m' k = m k ∨ m k = none ∧ m' k = some 0

theorem Extends.refl (m : ℕ → Option ℕ) : Extends m m := fun _ => .inl rfl

theorem Extends.trans {m₁ m₂ m₃ : ℕ → Option ℕ} (h₁ : Extends m₁ m₂) (h₂ : Extends m₂ m₃) :
    Extends m₁ m₃ := fun k => by
  rcases h₁ k with h | h <;> rcases h₂ k with h' | h'
  · exact .inl (h'.trans h)
  · exact .inr ⟨h ▸ h'.1, h'.2⟩
  · exact .inr ⟨h.1, h'.trans h.2⟩
  · exact absurd (h'.1.symm.trans h.2) (by simp)

/-- An extended map gives every key the value `operator[]` read from the original. -/
theorem Extends.getD {m m' : ℕ → Option ℕ} (h : Extends m m') (k : ℕ) :
    (m' k).getD 0 = (m k).getD 0 := by
  rcases h k with h | h
  · rw [h]
  · rw [h.1, h.2]
    rfl

theorem lookupInsert_fst (m : ℕ → Option ℕ) (key : ℕ) : (lookupInsert m key).1 = (m key).getD 0 := by
  unfold lookupInsert
  split <;> simp_all

theorem lookupInsert_extends (m : ℕ → Option ℕ) (key : ℕ) : Extends m (lookupInsert m key).2 := by
  intro k
  unfold lookupInsert
  split
  · exact .inl rfl
  · by_cases hk : k = key
    · subst hk
      exact .inr ⟨‹_›, by simp⟩
    · exact .inl (by simp [hk])

/-- The loop of `copyIndirectSymbolTable`: entry `i` of the new table is what `operator[]`
finds for the old entry in the map the loop started from, sentinels included. -/
theorem foldl_indirectStep (lnk : Mem) (entries ne : ℕ) (buf : Mem) (m : ℕ → Option ℕ) (n : ℕ) :
    let r := (List.range n).foldl (LinkeditOptimizer.indirectStep lnk entries ne) (buf, m)
    Extends m r.2 ∧ (∀ x, x < ne ∨ ne + 4 * n ≤ x → r.1 x = buf x) ∧
      ∀ i < n, read32 r.1 (ne + 4 * i) = u32 ((m (read32 lnk (entries + 4 * i))).getD 0) := by
  induction n with
  | zero => exact ⟨Extends.refl m, fun _ _ => rfl, fun i hi => absurd hi (Nat.not_lt_zero _)⟩
  | succ n ih =>
    obtain ⟨he, hout, hin⟩ := ih
    dsimp only
    rw [List.range_succ, List.foldl_append, List.foldl_cons, List.foldl_nil]
    generalize (List.range n).foldl (LinkeditOptimizer.indirectStep lnk entries ne) (buf, m) = r at he hout hin
    let e := read32 lnk (entries + 4 * n)
    let b := if e = indirectSymbolAbs ∨ e = indirectSymbolLocal ∨ e = 0 then
      write32 r.1 (ne + 4 * n) e else r.1
    have hb : ∀ x, x < ne + 4 * n ∨ ne + 4 * n + 4 ≤ x → b x = r.1 x := fun x hx => by
      simp only [b]
      split
      · exact writeLE_of_apart _ _ _ _ hx
      · rfl
    have hstep : LinkeditOptimizer.indirectStep lnk entries ne r n =
        (write32 b (ne + 4 * n) (lookupInsert r.2 e).1, (lookupInsert r.2 e).2) := rfl
    rw [hstep]
    dsimp only
    refine ⟨he.trans (lookupInsert_extends _ _), fun x hx => ?_, fun i hi => ?_⟩
    · rw [write32, writeLE_of_apart _ _ _ _ (by omega), hb x (by omega), hout x (by omega)]
    · rcases Nat.lt_succ_iff_lt_or_eq.mp hi with hi | rfl
      · rw [read32_write32_of_apart _ _ (by unfold Apart; omega),
          read32_congr fun j hj => hb _ (by omega), hin i hi]
      · rw [read32_write32_self, lookupInsert_fst, he.getD]

section Indirect

variable {im : Image} {log : List (ℕ × ℕ)} {s : Run}

/-- `copyIndirectSymbolTable` writes the new table at the cursor, each entry the value of
`operator[]` for the old one, and tracks it with its size padded. -/
theorem copyIndirectSymbolTable_spec (hdy : im.o.dySymTab = some im.dy) (hs : Between im log s)
    (hreads : read32 s.pages.hdr (im.dy + indirectsymoff) = read32 im.hdr (im.dy + indirectsymoff) ∧
      read32 s.pages.hdr (im.dy + nindirectsyms) = read32 im.hdr (im.dy + nindirectsyms))
    (hfit : s.offset + pad (4 * im.nIndirect) < 2 ^ 32) :
    let s' := im.o.copyIndirectSymbolTable s
    Between im (log ++ [(im.dy + indirectsymoff, im.o.linkeditOffset + s.offset)]) s' ∧
      s'.offset = s.offset + pad (4 * im.nIndirect) ∧
      s'.tracker = { s.tracker with
        trackingData := trackAll s.tracker.trackingData
          [⟨im.dy + indirectsymoff, im.o.linkeditStart + s.offset, pad (4 * im.nIndirect)⟩] } ∧
      Keeps s s' ∧ (∀ x, s.offset + 4 * im.nIndirect ≤ x → s'.newLinkedit x = s.newLinkedit x) ∧
      (∀ i < im.nIndirect, read32 s'.newLinkedit (s.offset + 4 * i) =
        u32 ((s.newSymbolIndicies (im.oldIndirect i)).getD 0)) ∧
      s'.stringsPool = s.stringsPool ∧ s'.hasRedactedIndirect = s.hasRedactedIndirect := by
  intro s'
  have hle := le_pad (4 * im.nIndirect)
  have hsize : alignR (u32 (im.nIndirect * 4)) = pad (4 * im.nIndirect) := by
    rw [Nat.mul_comm, u32_of_lt (by omega)]
    exact alignR_eq (by omega)
  obtain ⟨he, hout, hin⟩ := foldl_indirectStep s.pages.lnk
    (im.o.linkeditFile + read32 im.hdr (im.dy + indirectsymoff)) s.offset s.newLinkedit
    s.newSymbolIndicies im.nIndirect
  have hext := hs.extent
  simp only [s', LinkeditOptimizer.copyIndirectSymbolTable, hdy, hreads.1, hreads.2]
  rw [show read32 im.hdr (im.dy + nindirectsyms) = im.nIndirect from rfl, hsize,
    u32_of_lt hfit]
  refine ⟨⟨hs.lnk, by simp [hs.hdr, writeLog_append], fun x hx => ?_, ?_⟩, rfl, rfl,
    ⟨by dsimp only; omega, fun x hx => hout x (.inl hx)⟩, fun x hx => hout x (.inr hx),
    fun i hi => ?_, trivial, trivial⟩
  · dsimp only at hx ⊢
    rw [hout x (.inr (by omega))]
    exact hs.zero x (by omega)
  · dsimp only
    exact grow_le (by omega) (by omega)
  · rw [hin i hi, hs.lnk]
    rfl

end Indirect

theorem foldl_grow_le (es : List (List UInt8 × ℕ)) {a b e : ℕ} (he : e ≤ b)
    (h : ∀ p ∈ es, a + p.2 + p.1.length ≤ b) :
    es.foldl (fun e p => grow e (a + p.2) p.1.length) e ≤ b := by
  induction es generalizing e with
  | nil => exact he
  | cons p es ih =>
    simp only [List.mem_cons, forall_eq_or_imp] at h
    exact ih (grow_le he h.1) h.2

section Pool

variable {im : Image} {log : List (ℕ × ℕ)} {s : Run}

/-- `copyStringPool` writes every name of a packed pool at the cursor plus its offset, each
followed by the NUL the zeroed buffer already holds, and tracks the pool padded. -/
theorem copyStringPool_spec (hst : im.o.symTab = some im.st) (hs : Between im log s)
    (hp : Packed s.stringsPool) (hfit : s.offset + pad s.stringsPool.stringsLength < 2 ^ 32) :
    ∃ s', im.o.copyStringPool s = some s' ∧
      Between im (log ++ [(im.st + stroff, im.o.linkeditOffset + s.offset),
        (im.st + strsize, s.stringsPool.stringsLength)]) s' ∧
      s'.offset = s.offset + pad s.stringsPool.stringsLength ∧
      s'.tracker = { s.tracker with
        trackingData := trackAll s.tracker.trackingData
          [⟨im.st + stroff, im.o.linkeditStart + s.offset, pad s.stringsPool.stringsLength⟩] } ∧
      Keeps s s' ∧ SameSymbols s s' ∧
      (∀ x, s.offset + s.stringsPool.stringsLength ≤ x → s'.newLinkedit x = s.newLinkedit x) ∧
      ∀ e ∈ s.stringsPool.pool, ∀ n, e.1.length < n → cstr s'.newLinkedit (s.offset + e.2) n = e.1 := by
  have hle := le_pad s.stringsPool.stringsLength
  have hw := writeStrings_fst hp s.newLinkedit s.offset
  have hin : ∀ p ∈ s.stringsPool.pool, p.2 + p.1.length + 1 ≤ s.stringsPool.stringsLength :=
    fun p hp' => (entry_le_packedEnd hp.ends hp').2
  have hext := hs.extent
  refine ⟨_, by simp only [LinkeditOptimizer.copyStringPool, hst, Option.bind_eq_bind,
    Option.some_bind, Option.pure_def]; rfl, ?_⟩
  simp only [hw, alignR_eq (show pad s.stringsPool.stringsLength < 2 ^ 32 by omega),
    u32_of_lt hfit]
  refine ⟨⟨hs.lnk, by simp [hs.hdr, writeLog_append], fun x hx => ?_, ?_⟩, trivial, rfl,
    ⟨by dsimp only; omega, fun x hx => writeStrings_of_apart _ fun p _ => .inl (by omega)⟩,
    ⟨rfl, rfl, rfl, rfl, rfl, rfl⟩, fun x hx => writeStrings_of_apart _ fun p hp' => .inr (by
      have := hin p hp'
      omega), fun e he n hn => ?_⟩
  · dsimp only at hx ⊢
    rw [writeStrings_of_apart _ fun p hp' => .inr (by have := hin p hp'; omega)]
    exact hs.zero x (by omega)
  · dsimp only
    exact foldl_grow_le _ (by omega) fun p hp' => by have := hin p hp'; omega
  · exact cstr_writeStrings hp (fun f _ => hs.zero _ (by omega)) he hn

end Pool

end DyldLinkedit.Tables
