import DyldLinkedit.Passes

/-!
# The symbol-copy loops

The four loops of the symbol passes share one body, `Run.copyEntry`. `copyAll` is that body
run over a list of sources from a write head; each loop is `copyAll` over the sources it
selects. The lemmas say where each copy lands, what its `n_strx` holds, and what the pool
becomes.
-/

set_option autoImplicit false

namespace DyldLinkedit.Symbols
open DyldLinkedit.Memory DyldLinkedit.MachO DyldLinkedit.Tracker DyldLinkedit.Strings
  DyldLinkedit.Optimizer DyldLinkedit.Interning DyldLinkedit.Layout DyldLinkedit.Passes

/-- `copyEntry` of each source in turn, the write head advancing by `size`. -/
def copyAll (size : ℕ) : Run → ℕ → List Source → Run
  | s, _, [] => s
  | s, head, x :: xs => copyAll size (s.copyEntry size head x.mem x.entry x.name) (head + size) xs

@[simp] theorem copyEntry_pages (s : Run) (size head : ℕ) (m : Mem) (src : ℕ) (name : List UInt8) :
    (s.copyEntry size head m src name).pages = s.pages := rfl

section CopyAll

variable (size : ℕ)

theorem copyAll_frame (s : Run) (head : ℕ) (xs : List Source) :
    (copyAll size s head xs).pages = s.pages ∧ (copyAll size s head xs).offset = s.offset ∧
      (copyAll size s head xs).tracker = s.tracker ∧
      (copyAll size s head xs).newSymbolEntriesStart = s.newSymbolEntriesStart ∧
      (copyAll size s head xs).redactedSymbolsCount = s.redactedSymbolsCount ∧
      (copyAll size s head xs).newSymbolIndicies = s.newSymbolIndicies ∧
      (copyAll size s head xs).hasRedactedIndirect = s.hasRedactedIndirect := by
  induction xs generalizing s head with
  | nil => exact ⟨rfl, rfl, rfl, rfl, rfl, rfl, rfl⟩
  | cons x xs ih => exact ih _ _

theorem copyAll_symbolsCount {s : Run} (hs : s.symbolsCount < 2 ^ 32) (head : ℕ)
    (xs : List Source) : (copyAll size s head xs).symbolsCount = u32 (s.symbolsCount + xs.length) := by
  induction xs generalizing s head with
  | nil => exact (u32_of_lt hs).symm
  | cons x xs ih =>
    rw [copyAll, ih (u32_lt _)]
    simp only [Run.copyEntry, u32, List.length_cons]
    omega

theorem copyAll_pool (s : Run) (head : ℕ) (xs : List Source) :
    (copyAll size s head xs).stringsPool = addAll s.stringsPool (xs.map Source.name) := by
  induction xs generalizing s head with
  | nil => rfl
  | cons x xs ih => exact ih _ _

theorem copyAll_of_apart (hsize : 4 ≤ size) (s : Run) (head : ℕ) (xs : List Source) {x : ℕ}
    (hx : x < head ∨ head + size * xs.length ≤ x) :
    (copyAll size s head xs).newLinkedit x = s.newLinkedit x := by
  induction xs generalizing s head with
  | nil => rfl
  | cons y xs ih =>
    rw [copyAll, ih _ _ (by simp only [List.length_cons, Nat.mul_succ] at hx; omega)]
    simp only [Run.copyEntry, write32]
    simp only [List.length_cons, Nat.mul_succ] at hx
    rw [writeLE_of_apart _ _ _ _ (by omega), copy_of_apart _ _ _ _ _ (by omega)]

theorem copyAll_slot (hsize : 4 ≤ size) (s : Run) (head : ℕ) (xs : List Source) {j : ℕ}
    (hj : j < xs.length) :
    (∀ i, 4 ≤ i → i < size →
      (copyAll size s head xs).newLinkedit (head + size * j + i) = xs[j].mem (xs[j].entry + i)) ∧
    ∃ k, lookupIndex xs[j].name (copyAll size s head xs).stringsPool.pool = some k ∧
      read32 (copyAll size s head xs).newLinkedit (head + size * j) = u32 k := by
  induction xs generalizing s head j with
  | nil => simp at hj
  | cons y xs ih =>
    cases j with
    | zero =>
      have hkeep : ∀ i < size, (copyAll size (s.copyEntry size head y.mem y.entry y.name)
          (head + size) xs).newLinkedit (head + i) =
          (s.copyEntry size head y.mem y.entry y.name).newLinkedit (head + i) :=
        fun i hi => copyAll_of_apart size hsize _ _ _ (.inl (by omega))
      refine ⟨fun i hi4 hi => ?_, ⟨(s.stringsPool.addString y.name).1, ?_, ?_⟩⟩
      · simp only [copyAll, Nat.mul_zero, Nat.add_zero, hkeep i hi]
        simp only [Run.copyEntry, write32]
        rw [writeLE_of_apart _ _ _ _ (by omega), copy_at _ _ _ _ _ hi]
        rfl
      · rw [copyAll, copyAll_pool]
        exact lookupIndex_addAll_of_eq (lookupIndex_addString _ _) _
      · rw [copyAll, Nat.mul_zero, Nat.add_zero, read32_congr fun i hi => hkeep i (by omega)]
        exact read32_write32_self _ _ _
    | succ j =>
      have hj' : j < xs.length := by simpa using hj
      have h := ih (s.copyEntry size head y.mem y.entry y.name) (head + size) hj'
      refine ⟨fun i hi4 hi => ?_, ?_⟩
      · rw [show head + size * (j + 1) + i = head + size + size * j + i by rw [Nat.mul_succ]; omega]
        exact h.1 i hi4 hi
      · rw [show head + size * (j + 1) = head + size + size * j by rw [Nat.mul_succ]; omega]
        exact h.2

theorem copyAll_setIndices (s : Run) (m : ℕ → Option ℕ) (head : ℕ) (xs : List Source) :
    copyAll size { s with newSymbolIndicies := m } head xs =
      { copyAll size s head xs with newSymbolIndicies := m } := by
  induction xs generalizing s head with
  | nil => rfl
  | cons x xs ih => exact ih (s.copyEntry size head x.mem x.entry x.name) (head + size)

theorem copyAll_append (s : Run) (head : ℕ) (xs ys : List Source) :
    copyAll size s head (xs ++ ys) = copyAll size (copyAll size s head xs) (head + size * xs.length) ys := by
  induction xs generalizing s head with
  | nil => simp [copyAll]
  | cons x xs ih =>
    rw [List.cons_append, copyAll, copyAll, ih, List.length_cons, Nat.mul_succ]
    congr 1
    omega

theorem copyAll_extent {s : Run} {head b : ℕ} {xs : List Source} (he : s.extent ≤ b)
    (hb : head + size * xs.length ≤ b) : (copyAll size s head xs).extent ≤ b := by
  induction xs generalizing s head with
  | nil => exact he
  | cons x xs ih =>
    simp only [List.length_cons, Nat.mul_succ] at hb
    exact ih (grow_le he (by omega)) (by omega)

/-- What the copy body reads and writes. -/
def copyView (s : Run) : Mem × StringPool × ℕ × ℕ :=
  (s.newLinkedit, s.stringsPool, s.symbolsCount, s.extent)

theorem copyView_offset (s : Run) (o : ℕ) : copyView { s with offset := o } = copyView s := rfl

theorem copyAll_copyView {s s' : Run} (h : copyView s = copyView s') (head : ℕ) (xs : List Source) :
    copyView (copyAll size s head xs) = copyView (copyAll size s' head xs) := by
  induction xs generalizing s s' head with
  | nil => exact h
  | cons x xs ih =>
    simp only [copyView, Prod.mk.injEq] at h
    obtain ⟨h1, h2, h3, h4⟩ := h
    exact ih (by simp [copyView, Run.copyEntry, h1, h2, h3, h4]) _

theorem copyView_trans {s₀ s₁ s₂ : Run} {head : ℕ} {xs ys : List Source}
    (h₁ : copyView s₁ = copyView (copyAll size s₀ head xs)) (ho : s₁.offset = head + size * xs.length)
    (h₂ : copyView s₂ = copyView (copyAll size s₁ s₁.offset ys)) :
    copyView s₂ = copyView (copyAll size s₀ head (xs ++ ys)) := by
  rw [copyAll_append, h₂, ho]
  exact copyAll_copyView size h₁ _ ys

end CopyAll

section Loops

variable (o : LinkeditOptimizer)

theorem foldl_publicLocalStep (strings stringsSize : ℕ) (entries : List ℕ) (s : Run) (head : ℕ)
    {c : ℕ} (hc : c < 2 ^ 32) :
    entries.foldl (o.publicLocalStep strings stringsSize) (s, head, c) =
      let xs := (sourcesAt s.pages.lnk strings stringsSize entries).filter
        fun x => x.name ≠ redactedName
      (copyAll o.width.nlistSize s head xs, head + o.width.nlistSize * xs.length,
        u32 (c + xs.length)) := by
  induction entries generalizing s head c with
  | nil => simp [copyAll, sourcesAt, u32_of_lt hc]
  | cons e es ih =>
    rw [List.foldl_cons]
    by_cases hr : nameAt s.pages.lnk strings stringsSize (read32 s.pages.lnk e) = redactedName
    · rw [show o.publicLocalStep strings stringsSize (s, head, c) e = (s, head, c) by
        simp [LinkeditOptimizer.publicLocalStep, hr], ih s head hc]
      simp [sourcesAt, hr]
    · rw [show o.publicLocalStep strings stringsSize (s, head, c) e =
          (s.copyEntry o.width.nlistSize head s.pages.lnk e
            (nameAt s.pages.lnk strings stringsSize (read32 s.pages.lnk e)),
            head + o.width.nlistSize, u32 (c + 1)) by
        simp [LinkeditOptimizer.publicLocalStep, hr], ih _ _ (u32_lt _)]
      simp only [sourcesAt, List.map_cons, List.filter_cons, hr, ne_eq, not_false_eq_true,
        decide_True, if_true, copyAll, List.length_cons, copyEntry_pages]
      refine Prod.ext rfl (Prod.ext ?_ ?_)
      · dsimp only
        rw [Nat.mul_succ]
        omega
      · simp only [u32]
        omega

theorem foldl_redactedLocalStep (m : Mem) (strings stringsSize : ℕ) (entries : List ℕ) (s : Run)
    (head : ℕ) {c : ℕ} (hc : c < 2 ^ 32) :
    entries.foldl (o.redactedLocalStep m strings stringsSize) (s, head, c) =
      (copyAll o.width.nlistSize s head (sourcesAt m strings stringsSize entries),
        head + o.width.nlistSize * entries.length, u32 (c + entries.length)) := by
  induction entries generalizing s head c with
  | nil => simp [copyAll, sourcesAt, u32_of_lt hc]
  | cons e es ih =>
    rw [List.foldl_cons, LinkeditOptimizer.redactedLocalStep, ih _ _ (u32_lt _)]
    simp only [sourcesAt, List.map_cons, copyAll, List.length_cons]
    refine Prod.ext rfl (Prod.ext ?_ ?_)
    · dsimp only
      rw [Nat.mul_succ]
      omega
    · simp only [u32]
      omega

/-- The loop of `copyExportedSymbols` and `copyImportedSymbols` over `[a, a + n)`: the copies,
and each old index mapped to the running count it was copied at. -/
theorem foldl_rangeStep (syms strings stringsSize : ℕ) (a n : ℕ) (s : Run) (head : ℕ) {c : ℕ}
    (hc : c < 2 ^ 32) (hcount : s.symbolsCount < 2 ^ 32) :
    (List.range' a n).foldl (o.rangeStep syms strings stringsSize) (s, head, c) =
      ({ copyAll o.width.nlistSize s head (sourcesAt s.pages.lnk strings stringsSize
            ((List.range' a n).map fun i => syms + o.width.nlistSize * i)) with
          newSymbolIndicies := fun k => if a ≤ k ∧ k < a + n then
            some (u32 (s.symbolsCount + (k - a))) else s.newSymbolIndicies k },
        head + o.width.nlistSize * n, u32 (c + n)) := by
  induction n generalizing a s head c with
  | zero =>
    have hm : (fun k => if a ≤ k ∧ k < a then some (u32 (s.symbolsCount + (k - a)))
        else s.newSymbolIndicies k) = s.newSymbolIndicies := funext fun k => if_neg (by omega)
    simp only [List.range'_zero, List.foldl_nil, List.map_nil, sourcesAt, copyAll, Nat.add_zero,
      Nat.mul_zero, u32_of_lt hc, hm]
  | succ n ih =>
    rw [List.range'_succ, List.foldl_cons, LinkeditOptimizer.rangeStep]
    dsimp only
    rw [ih _ _ _ (u32_lt _) (u32_lt _), copyAll_setIndices]
    simp only [copyEntry_pages, List.map_cons, sourcesAt, copyAll]
    refine Prod.ext ?_ (Prod.ext ?_ ?_)
    · simp only [Run.mk.injEq, true_and, and_true]
      funext k
      simp only [Run.copyEntry]
      by_cases hk : k = a
      · subst hk
        simp [u32_of_lt hcount]
      · by_cases hk' : a + 1 ≤ k ∧ k < a + 1 + n
        · rw [if_pos hk', if_pos (by omega)]
          simp only [u32, Option.some.injEq]
          omega
        · rw [if_neg hk', if_neg hk, if_neg (by omega)]
    · dsimp only
      rw [Nat.mul_succ]
      omega
    · simp only [u32]
      omega

end Loops

section Passes

variable {im : Image} {log : List (ℕ × ℕ)} {s : Run}

theorem redacted_le (im : Image) : im.redacted ≤ im.nIndirect :=
  (List.length_filter_le _ _).trans (List.length_range _).le

theorem redacted_lt (im : Image) : im.redacted < 2 ^ 32 :=
  lt_of_le_of_lt (redacted_le im) (read32_lt _ _)

/-- `searchRedactedSymbol` counts the zero indirect entries and, when there is one, writes the
placeholder at the cursor: `n_strx` the offset of `<redacted>`, `n_type` 1. -/
theorem searchRedactedSymbol_spec (hdy : im.o.dySymTab = some im.dy) (hs : Between im log s)
    (hreads : read32 s.pages.hdr (im.dy + indirectsymoff) = read32 im.hdr (im.dy + indirectsymoff) ∧
      read32 s.pages.hdr (im.dy + nindirectsyms) = read32 im.hdr (im.dy + nindirectsyms))
    (h0 : s.redactedSymbolsCount = 0) (hcount : s.symbolsCount < 2 ^ 32)
    (hfit : s.offset + im.sz * im.placeholder < 2 ^ 32) (hsz : 5 ≤ im.sz) :
    ∃ s', im.o.searchRedactedSymbol s = some s' ∧ Between im log s' ∧ Keeps s s' ∧
      s'.offset = s.offset + im.sz * im.placeholder ∧ s'.redactedSymbolsCount = im.redacted ∧
      s'.stringsPool = addAll s.stringsPool (if im.redacted = 0 then [] else [redactedName]) ∧
      s'.symbolsCount = u32 (s.symbolsCount + im.placeholder) ∧
      s'.hasRedactedIndirect = (s.hasRedactedIndirect || decide (im.redacted ≠ 0)) ∧
      s'.tracker = s.tracker ∧ s'.newSymbolIndicies = s.newSymbolIndicies ∧
      s'.newSymbolEntriesStart = s.newSymbolEntriesStart ∧
      (im.redacted ≠ 0 → read32 s'.newLinkedit s.offset = u32 (s.stringsPool.addString redactedName).1 ∧
        s'.newLinkedit (s.offset + 4) = 1 ∧
        ∀ x, s.offset + 5 ≤ x → s'.newLinkedit x = s.newLinkedit x) := by
  have hzeros : ((List.range (read32 s.pages.hdr (im.dy + nindirectsyms))).filter fun i =>
      read32 s.pages.lnk (im.o.linkeditFile + read32 s.pages.hdr (im.dy + indirectsymoff) + 4 * i)
        = 0).length = im.redacted := by
    rw [hreads.1, hreads.2, hs.lnk]
    rfl
  have hR : u32 (s.redactedSymbolsCount + im.redacted) = im.redacted := by
    rw [h0, Nat.zero_add, u32_of_lt (redacted_lt im)]
  by_cases hr : im.redacted = 0
  · refine ⟨{ s with redactedSymbolsCount := im.redacted }, ?_, ⟨hs.lnk, hs.hdr, hs.zero, hs.extent⟩,
      ⟨le_rfl, fun _ _ => rfl⟩, by simp [Image.placeholder, hr], rfl, by simp [hr],
      by simp [Image.placeholder, hr, u32_of_lt hcount],
      by cases s.hasRedactedIndirect <;> simp [hr], rfl, rfl, rfl, fun h => absurd hr h⟩
    simp [LinkeditOptimizer.searchRedactedSymbol, hdy, hzeros, h0, hr, u32]
  · have hph : im.placeholder = 1 := by simp [Image.placeholder, hr]
    rw [hph, Nat.mul_one] at hfit
    have hext := hs.extent
    let r := s.stringsPool.addString redactedName
    have hoff : u32 (s.offset + im.o.width.nlistSize) = s.offset + im.sz := u32_of_lt hfit
    have hsz' : 5 ≤ im.o.width.nlistSize := hsz
    refine ⟨{ s with
      redactedSymbolsCount := im.redacted
      stringsPool := r.2
      symbolsCount := u32 (s.symbolsCount + 1)
      newLinkedit := writeLE (write32 s.newLinkedit s.offset r.1) (s.offset + 4) 1 1
      extent := grow s.extent s.offset 5
      offset := u32 (s.offset + im.o.width.nlistSize)
      hasRedactedIndirect := true }, ?_, ?_, ?_, ?_, rfl, by simp [hr, r], by simp [hph],
      by simp [hr], rfl, rfl, rfl, fun _ => ?_⟩
    · simp [LinkeditOptimizer.searchRedactedSymbol, hdy, hzeros, hR, hr, r]
    · refine ⟨hs.lnk, hs.hdr, fun x hx => ?_, ?_⟩
      · dsimp only at hx ⊢
        rw [hoff] at hx
        unfold Image.sz at hx
        rw [writeLE_of_apart _ _ _ _ (by omega), write32, writeLE_of_apart _ _ _ _ (by omega)]
        exact hs.zero x (by omega)
      · show grow s.extent s.offset 5 ≤ u32 (s.offset + im.o.width.nlistSize)
        rw [hoff]
        exact grow_le (by omega) (by unfold Image.sz; omega)
    · refine ⟨by dsimp only; omega, fun x hx => ?_⟩
      dsimp only
      rw [writeLE_of_apart _ _ _ _ (by omega), write32, writeLE_of_apart _ _ _ _ (by omega)]
    · dsimp only
      rw [hoff, hph, Nat.mul_one]
    · dsimp only
      refine ⟨?_, ?_, fun x hx => ?_⟩
      · rw [read32_congr fun i hi => writeLE_of_apart _ _ _ _ (by omega)]
        exact read32_write32_self _ _ _
      · simpa using writeLE_at (write32 s.newLinkedit s.offset r.1) (s.offset + 4) 1 (i := 0)
          (by omega)
      · rw [writeLE_of_apart _ _ _ _ (by omega), write32, writeLE_of_apart _ _ _ _ (by omega)]

theorem between_copyAll {size : ℕ} (hsize : 4 ≤ size) (hs : Between im log s) (xs : List Source) :
    let s' := { copyAll size s s.offset xs with offset := s.offset + size * xs.length }
    Between im log s' ∧ Keeps s s' := by
  obtain ⟨hp, ho, -⟩ := copyAll_frame size s s.offset xs
  have hext := hs.extent
  refine ⟨⟨by simp [hp, hs.lnk], by simp [hp, hs.hdr], fun x hx => ?_, ?_⟩, by simp, fun x hx => ?_⟩
  · rw [copyAll_of_apart size hsize _ _ _ (.inr hx)]
    exact hs.zero x (by dsimp only at hx; omega)
  · show (copyAll size s s.offset xs).extent ≤ s.offset + size * xs.length
    exact copyAll_extent size (by omega) le_rfl
  · exact copyAll_of_apart size hsize _ _ _ (.inl hx)

theorem publicLocals_eq (hlnk : s.pages.lnk = im.lnk)
    (hreads : ∀ x ∈ [im.dy + nlocalsym, im.dy + ilocalsym, im.st + symoff, im.st + stroff,
      im.st + strsize], read32 s.pages.hdr x = read32 im.hdr x) :
    (if read32 s.pages.hdr (im.dy + nlocalsym) = 0 then [] else
      (sourcesAt s.pages.lnk (im.o.linkeditFile + read32 s.pages.hdr (im.st + stroff))
        (read32 s.pages.hdr (im.st + strsize)) ((List.range (read32 s.pages.hdr (im.dy + nlocalsym))).map
          fun k => im.o.linkeditFile + read32 s.pages.hdr (im.st + symoff) +
            im.o.width.nlistSize * read32 s.pages.hdr (im.dy + ilocalsym) +
            im.o.width.nlistSize * k)).filter fun x => x.name ≠ redactedName) = im.publicLocals := by
  simp only [List.mem_cons, List.mem_singleton, forall_eq_or_imp, forall_eq] at hreads
  obtain ⟨h1, h2, h3, h4, h5, -⟩ := hreads
  simp only [Image.publicLocals, Image.symbols, Image.strings, Image.stringsSize, Image.sz, h1, h2, h3,
    h4, h5, hlnk]

theorem copyPublicLocalSymbols_eq (hdy : im.o.dySymTab = some im.dy)
    (hst : im.o.symTab = some im.st) (hlnk : s.pages.lnk = im.lnk)
    (hreads : ∀ x ∈ [im.dy + nlocalsym, im.dy + ilocalsym, im.st + symoff, im.st + stroff,
      im.st + strsize], read32 s.pages.hdr x = read32 im.hdr x)
    (hfit : s.offset + im.sz * im.publicLocals.length < 2 ^ 32) :
    im.o.copyPublicLocalSymbols s = some ({ copyAll im.sz s s.offset im.publicLocals with
      offset := s.offset + im.sz * im.publicLocals.length }, im.publicLocals.length) := by
  have hL := publicLocals_eq hlnk hreads
  have hlt : im.publicLocals.length < 2 ^ 32 := by
    have := Nat.le_mul_of_pos_left im.publicLocals.length (PointerWidth.nlistSize_pos im.o.width)
    unfold Image.sz at hfit
    omega
  unfold LinkeditOptimizer.copyPublicLocalSymbols
  rw [hdy]
  dsimp only
  split
  · rename_i h0
    rw [if_pos h0] at hL
    rw [← hL]
    simp [copyAll]
  · rename_i h0
    rw [if_neg h0] at hL
    simp only [hst, Option.bind_eq_bind, Option.some_bind, Option.pure_def]
    rw [foldl_publicLocalStep _ _ _ _ _ _ (by decide)]
    have hfit' : s.offset + im.o.width.nlistSize * im.publicLocals.length < 2 ^ 32 := hfit
    simp only [hL, Image.sz, (copyAll_frame _ s s.offset im.publicLocals).2.1, Nat.zero_add,
      u32_of_lt hlt, u32_of_lt hfit']

theorem copyAll_nil_offset (size : ℕ) (s : Run) :
    { copyAll size s s.offset [] with offset := s.offset + size * ([] : List Source).length } = s := by
  simp [copyAll]

theorem copyRedactedLocalSymbols_eq {Q : List Source}
    (hfind : ∀ sc info, im.o.findLocalSymbolEntries s.pages.hdr sc info =
      im.o.findLocalSymbolEntries im.hdr sc info)
    (hQ : im.recoveredLocals? = some Q) (hfit : s.offset + im.sz * Q.length < 2 ^ 32) :
    im.o.copyRedactedLocalSymbols s =
      some ({ copyAll im.sz s s.offset Q with offset := s.offset + im.sz * Q.length }, Q.length) := by
  have hlt : Q.length < 2 ^ 32 := by
    have := Nat.le_mul_of_pos_left Q.length (PointerWidth.nlistSize_pos im.o.width)
    unfold Image.sz at hfit
    omega
  unfold LinkeditOptimizer.copyRedactedLocalSymbols
  unfold Image.recoveredLocals? at hQ
  split
  · rename_i h
    rw [h] at hQ
    cases hQ
    rw [copyAll_nil_offset]
    rfl
  · rename_i sc h
    rw [h] at hQ
    dsimp only at hQ ⊢
    split
    · rename_i h0
      rw [if_pos h0] at hQ
      cases hQ
      rw [copyAll_nil_offset]
      rfl
    · rename_i h0
      rw [if_neg h0, Option.map_eq_some'] at hQ
      obtain ⟨found, hf, rfl⟩ := hQ
      have hfit' : s.offset + im.o.width.nlistSize * (im.o.redactedEntries found).length < 2 ^ 32 := by
        simpa [sourcesAt] using hfit
      simp only [hfind, hf, Option.bind_eq_bind, Option.some_bind, Option.pure_def]
      rw [foldl_redactedLocalStep _ _ _ _ _ _ _ (by decide)]
      have hlt' : (im.o.redactedEntries found).length < 2 ^ 32 := by simpa [sourcesAt] using hlt
      simp only [Image.sz, sourcesAt, List.length_map, (copyAll_frame _ _ _ _).2.1, Nat.zero_add,
        u32_of_lt hlt', u32_of_lt hfit']

/-- The members no symbol-copy loop touches. -/
structure Untouched (s s' : Run) : Prop where
  tracker : s'.tracker = s.tracker
  indices : s'.newSymbolIndicies = s.newSymbolIndicies
  start : s'.newSymbolEntriesStart = s.newSymbolEntriesStart
  redacted : s'.redactedSymbolsCount = s.redactedSymbolsCount
  flag : s'.hasRedactedIndirect = s.hasRedactedIndirect

theorem untouched_copyAll (size : ℕ) (s : Run) (head : ℕ) (xs : List Source) (o : ℕ) :
    Untouched s { copyAll size s head xs with offset := o } :=
  have h := copyAll_frame size s head xs
  ⟨h.2.2.1, h.2.2.2.2.2.1, h.2.2.2.1, h.2.2.2.2.1, h.2.2.2.2.2.2⟩

/-- `copyLocalSymbols`: the public locals then the recovered ones at the cursor, and the local
range of the dysymtab rewritten when there is one. -/
theorem copyLocalSymbols_spec {Q : List Source} (hdy : im.o.dySymTab = some im.dy)
    (hst : im.o.symTab = some im.st) (hs : Between im log s)
    (hreads : ∀ x ∈ [im.dy + nlocalsym, im.dy + ilocalsym, im.st + symoff, im.st + stroff,
      im.st + strsize], read32 s.pages.hdr x = read32 im.hdr x)
    (hfind : ∀ sc info, im.o.findLocalSymbolEntries s.pages.hdr sc info =
      im.o.findLocalSymbolEntries im.hdr sc info)
    (hQ : im.recoveredLocals? = some Q)
    (hfit : s.offset + im.sz * (im.publicLocals.length + Q.length) < 2 ^ 32) :
    ∃ s', im.o.copyLocalSymbols s = some s' ∧
      Between im (log ++ im.rangeLog ilocalsym nlocalsym s.symbolsCount
        (im.publicLocals.length + Q.length)) s' ∧ Keeps s s' ∧
      s'.offset = s.offset + im.sz * (im.publicLocals.length + Q.length) ∧
      copyView s' = copyView (copyAll im.sz s s.offset (im.publicLocals ++ Q)) ∧ Untouched s s' := by
  have hsz : 4 ≤ im.sz := by unfold Image.sz; cases im.o.width <;> decide
  let r1 := { copyAll im.sz s s.offset im.publicLocals with
    offset := s.offset + im.sz * im.publicLocals.length }
  let r2 := { copyAll im.sz r1 r1.offset Q with offset := r1.offset + im.sz * Q.length }
  have h1 := copyPublicLocalSymbols_eq hdy hst hs.lnk hreads (by rw [Nat.mul_add] at hfit; omega)
  have hp1 : r1.pages = s.pages := (copyAll_frame im.sz s s.offset im.publicLocals).1
  have h2 : im.o.copyRedactedLocalSymbols r1 = some (r2, Q.length) :=
    copyRedactedLocalSymbols_eq (by rw [hp1]; exact hfind) hQ (by
      show s.offset + im.sz * im.publicLocals.length + im.sz * Q.length < 2 ^ 32
      rw [Nat.mul_add] at hfit; omega)
  obtain ⟨hb1, hk1⟩ := between_copyAll hsz hs im.publicLocals
  obtain ⟨hb2, hk2⟩ := between_copyAll hsz hb1 Q
  have hview : copyView r2 = copyView (copyAll im.sz s s.offset (im.publicLocals ++ Q)) :=
    copyView_trans im.sz (copyView_offset _ _) rfl (copyView_offset _ _)
  have hoff : r2.offset = s.offset + im.sz * (im.publicLocals.length + Q.length) := by
    show s.offset + im.sz * im.publicLocals.length + im.sz * Q.length = _
    rw [Nat.mul_add, Nat.add_assoc]
  have hu : Untouched s r2 :=
    have a := untouched_copyAll im.sz s s.offset im.publicLocals (s.offset + im.sz * im.publicLocals.length)
    have b := untouched_copyAll im.sz r1 r1.offset Q (r1.offset + im.sz * Q.length)
    ⟨b.1.trans a.1, b.2.trans a.2, b.3.trans a.3, b.4.trans a.4, b.5.trans a.5⟩
  have hn : u32 (im.publicLocals.length + Q.length) = im.publicLocals.length + Q.length :=
    u32_of_lt (by
      have := Nat.le_mul_of_pos_left (im.publicLocals.length + Q.length)
        (PointerWidth.nlistSize_pos im.o.width)
      unfold Image.sz at hfit
      omega)
  refine ⟨{ r2 with pages := { r2.pages with
                hdr := setRange r2.pages.hdr im.dy ilocalsym nlocalsym
                  s.symbolsCount (im.publicLocals.length + Q.length) } },
    ?_, ⟨hb2.lnk, ?_, hb2.zero, hb2.extent⟩, hk1.trans hk2, hoff, hview, ⟨hu.1, hu.2, hu.3, hu.4, hu.5⟩⟩
  · simp [LinkeditOptimizer.copyLocalSymbols, h1, h2, hdy, hn]
  · show setRange r2.pages.hdr _ _ _ _ _ = _
    rw [hb2.hdr, writeLog_append, writeLog_rangeLog]

/-- The index map after a range loop over `idxs`, the range starting at old index `a` and
the loop at running count `count`. -/
def recordRange (m : ℕ → Option ℕ) (idxs : List ℕ) (a count : ℕ) (k : ℕ) : Option ℕ :=
  if k ∈ idxs then some (u32 (count + (k - a))) else m k

/-- `copyExportedSymbols` and `copyImportedSymbols`: the range's symbols at the cursor, each old
index mapped to its new one, and the range's fields rewritten when it copied something. -/
theorem copySymbolRange_spec (startField countField : ℕ) (hdy : im.o.dySymTab = some im.dy)
    (hst : im.o.symTab = some im.st) (hs : Between im log s)
    (hreads : ∀ x ∈ [im.dy + startField, im.dy + countField, im.st + symoff, im.st + stroff,
      im.st + strsize], read32 s.pages.hdr x = read32 im.hdr x)
    (hfit : s.offset + im.sz * (im.rangeIndices startField countField).length < 2 ^ 32)
    (hcount : s.symbolsCount < 2 ^ 32) :
    ∃ s', im.o.copySymbolRange startField countField s = some s' ∧
      Between im (log ++ im.rangeLog startField countField s.symbolsCount
        (im.rangeIndices startField countField).length) s' ∧ Keeps s s' ∧
      s'.offset = s.offset + im.sz * (im.rangeIndices startField countField).length ∧
      copyView s' = copyView (copyAll im.sz s s.offset
        (im.rangeSources (im.rangeIndices startField countField))) ∧
      s'.newSymbolIndicies = recordRange s.newSymbolIndicies (im.rangeIndices startField countField)
        (read32 im.hdr (im.dy + startField)) s.symbolsCount ∧
      s'.tracker = s.tracker ∧ s'.newSymbolEntriesStart = s.newSymbolEntriesStart ∧
      s'.redactedSymbolsCount = s.redactedSymbolsCount ∧
      s'.hasRedactedIndirect = s.hasRedactedIndirect := by
  have hsz : 4 ≤ im.sz := by unfold Image.sz; cases im.o.width <;> decide
  simp only [List.mem_cons, List.mem_singleton, forall_eq_or_imp, forall_eq] at hreads
  obtain ⟨h1, h2, h3, h4, h5, -⟩ := hreads
  have hn : u32 (read32 im.hdr (im.dy + startField) + read32 im.hdr (im.dy + countField)) -
      read32 im.hdr (im.dy + startField) = (im.rangeIndices startField countField).length := by
    simp [Image.rangeIndices]
  have hidx : im.rangeIndices startField countField = List.range' (read32 im.hdr (im.dy + startField))
      (im.rangeIndices startField countField).length := by
    simp [Image.rangeIndices]
  generalize im.rangeIndices startField countField = idxs at hfit hn hidx ⊢
  generalize read32 im.hdr (im.dy + startField) = a at h1 hn hidx ⊢
  have hlt : idxs.length < 2 ^ 32 := by
    have := Nat.le_mul_of_pos_left idxs.length (PointerWidth.nlistSize_pos im.o.width)
    unfold Image.sz at hfit
    omega
  have hfit' : s.offset + im.o.width.nlistSize * idxs.length < 2 ^ 32 := hfit
  have hmem : ∀ k, k ∈ idxs ↔ a ≤ k ∧ k < a + idxs.length := fun k => by
    conv_lhs => rw [hidx]
    exact List.mem_range'_1
  have hsrc : sourcesAt s.pages.lnk (im.o.linkeditFile + read32 im.hdr (im.st + stroff))
      (read32 im.hdr (im.st + strsize)) ((List.range' a idxs.length).map fun i =>
        im.o.linkeditFile + read32 im.hdr (im.st + symoff) + im.o.width.nlistSize * i) =
      im.rangeSources idxs := by
    rw [hs.lnk, ← hidx]
    rfl
  have hmap : (fun k => if a ≤ k ∧ k < a + idxs.length then some (u32 (s.symbolsCount + (k - a)))
      else s.newSymbolIndicies k) = recordRange s.newSymbolIndicies idxs a s.symbolsCount := by
    funext k
    simp only [recordRange, hmem]
  have hlen : (im.rangeSources idxs).length = idxs.length := by simp [Image.rangeSources, sourcesAt]
  obtain ⟨hb, hk⟩ := between_copyAll hsz hs (im.rangeSources idxs)
  have hu := untouched_copyAll im.sz s s.offset (im.rangeSources idxs)
    (s.offset + im.sz * idxs.length)
  have hpass : im.o.copySymbolRange startField countField s = some
      { copyAll im.sz s s.offset (im.rangeSources idxs) with
        pages := { s.pages with
                   hdr := setRange s.pages.hdr im.dy startField countField s.symbolsCount
                     idxs.length }
        offset := s.offset + im.sz * idxs.length
        newSymbolIndicies := recordRange s.newSymbolIndicies idxs a s.symbolsCount } := by
    unfold LinkeditOptimizer.copySymbolRange
    rw [hdy]
    simp only [hst, Option.bind_eq_bind, Option.some_bind, Option.pure_def, h1, h2, h3, h4, h5, hn]
    rw [foldl_rangeStep _ _ _ _ a idxs.length s s.offset (by decide) hcount, hsrc, hmap]
    simp only [(copyAll_frame _ _ _ _).1, (copyAll_frame _ _ _ _).2.1, Nat.zero_add, u32_of_lt hlt,
      u32_of_lt hfit', Image.sz]
  rw [hlen] at hb hk
  refine ⟨_, hpass, ⟨hs.lnk, ?_, hb.zero, hb.extent⟩, hk, rfl, rfl, rfl, hu.tracker, hu.start,
    hu.redacted, hu.flag⟩
  show setRange s.pages.hdr _ _ _ _ _ = _
  rw [hs.hdr, writeLog_append, writeLog_rangeLog]

end Passes

end DyldLinkedit.Symbols
