import DyldLinkedit.StringPool

/-!
# Interning laws of the string pool

While no length wraps, the pool's entries sit back to back from offset 0 in the order
their names were first added, each followed by one terminator byte, and no name is
recorded twice. From that invariant: `addString` returns the offset the name keeps from
then on, and `writeStrings` copies every name to its offset, so that the C string read at
an offset returned for a name is the name. Fed a sequence of names from a fresh pool and
written over a zeroed buffer, the pool is an encoding that decodes back: one offset per
distinct name, the empty name at 0, and the buffer's length the sum of the distinct names'
lengths and terminators.
-/

set_option autoImplicit false

namespace DyldLinkedit.Interning
open DyldLinkedit.Memory DyldLinkedit.Strings

/-- The end of entries laid back to back from `start`, if each sits where the one before
it ends, terminator included. -/
def packedEnd : List (List UInt8 × ℕ) → ℕ → Option ℕ
  | [], start => some start
  | e :: es, start => if e.2 = start then packedEnd es (start + e.1.length + 1) else none

/-- The pool invariant: packed from 0 up to `stringsLength`, distinct names, none holding
a NUL byte. -/
structure Packed (sp : StringPool) : Prop where
  ends : packedEnd sp.pool 0 = some sp.stringsLength
  keys : (sp.pool.map Prod.fst).Nodup
  nulFree : ∀ e ∈ sp.pool, (0 : UInt8) ∉ e.1
  fits : sp.stringsLength < 2 ^ 32

theorem packedEnd_append (es : List (List UInt8 × ℕ)) (s : List UInt8) {start e : ℕ}
    (h : packedEnd es start = some e) : packedEnd (es ++ [(s, e)]) start = some (e + s.length + 1) := by
  induction es generalizing start with
  | nil => simp_all [packedEnd]
  | cons x es ih =>
    simp only [List.cons_append, packedEnd] at h ⊢
    split at h
    · rw [if_pos ‹_›]
      exact ih h
    · cases h

theorem le_packedEnd {es : List (List UInt8 × ℕ)} {start e : ℕ} (h : packedEnd es start = some e) :
    start ≤ e := by
  induction es generalizing start with
  | nil => simp_all [packedEnd]
  | cons x es ih =>
    simp only [packedEnd] at h
    split at h
    · have := ih h
      omega
    · cases h

theorem entry_le_packedEnd {es : List (List UInt8 × ℕ)} {start e : ℕ}
    (h : packedEnd es start = some e) {x : List UInt8 × ℕ} (hx : x ∈ es) :
    start ≤ x.2 ∧ x.2 + x.1.length + 1 ≤ e := by
  induction es generalizing start with
  | nil => simp at hx
  | cons y es ih =>
    simp only [packedEnd] at h
    split at h
    · rcases List.mem_cons.mp hx with rfl | hx
      · have := le_packedEnd h
        omega
      · have := ih h hx
        omega
    · cases h

theorem lookupIndex_append (es : List (List UInt8 × ℕ)) (s t : List UInt8) (i : ℕ) :
    lookupIndex s (es ++ [(t, i)]) = (lookupIndex s es).or (if t = s then some i else none) := by
  induction es with
  | nil => rfl
  | cons e es ih =>
    simp only [List.cons_append, lookupIndex]
    split <;> simp [ih]

theorem lookupIndex_mem {es : List (List UInt8 × ℕ)} {s : List UInt8} {i : ℕ}
    (h : lookupIndex s es = some i) : (s, i) ∈ es := by
  induction es with
  | nil => cases h
  | cons e es ih =>
    simp only [lookupIndex] at h
    split at h
    · cases h
      exact List.mem_cons.mpr (.inl (by subst ‹e.1 = s›; rfl))
    · exact List.mem_cons_of_mem _ (ih h)

theorem lookupIndex_eq_none {es : List (List UInt8 × ℕ)} {s : List UInt8}
    (h : lookupIndex s es = none) : s ∉ es.map Prod.fst := by
  induction es with
  | nil => simp
  | cons e es ih =>
    simp only [lookupIndex] at h
    split at h
    · cases h
    · simp only [List.map_cons, List.mem_cons, not_or]
      exact ⟨fun he => ‹¬e.1 = s› he.symm, ih h⟩

theorem new_packed : Packed StringPool.new :=
  ⟨rfl, by simp [StringPool.new], by simp [StringPool.new], by decide⟩

theorem addString_packed {sp : StringPool} (h : Packed sp) {s : List UInt8} (hs : (0 : UInt8) ∉ s)
    (hfit : sp.stringsLength + s.length + 1 < 2 ^ 32) : Packed (sp.addString s).2 := by
  unfold StringPool.addString
  split
  · exact h
  · rename_i hl
    refine ⟨?_, ?_, ?_, ?_⟩
    · rw [u32_of_lt hfit]
      exact packedEnd_append _ _ h.ends
    · simpa [List.nodup_append] using ⟨h.keys, fun i hi =>
        lookupIndex_eq_none hl (List.mem_map.mpr ⟨_, hi, rfl⟩)⟩
    · intro e he
      rcases List.mem_append.mp he with he | he
      · exact h.nulFree e he
      · simp only [List.mem_singleton] at he
        subst he
        exact hs
    · exact u32_lt _

theorem lookupIndex_addString (sp : StringPool) (s : List UInt8) :
    lookupIndex s (sp.addString s).2.pool = some (sp.addString s).1 := by
  unfold StringPool.addString
  split
  · assumption
  · simp [lookupIndex_append, *]

theorem lookupIndex_addString_of_eq {sp : StringPool} {t : List UInt8} {i : ℕ}
    (h : lookupIndex t sp.pool = some i) (s : List UInt8) :
    lookupIndex t (sp.addString s).2.pool = some i := by
  unfold StringPool.addString
  split
  · exact h
  · simp [lookupIndex_append, h]

theorem packedEnd_pairwise {es : List (List UInt8 × ℕ)} {start e : ℕ}
    (h : packedEnd es start = some e) : es.Pairwise fun a b => a.2 + a.1.length + 1 ≤ b.2 := by
  induction es generalizing start with
  | nil => simp
  | cons x es ih =>
    simp only [packedEnd] at h
    split at h
    · exact List.pairwise_cons.mpr ⟨fun y hy => by
        have := entry_le_packedEnd h hy
        omega, ih h⟩
    · cases h

def keysLength : List (List UInt8) → ℕ
  | [] => 0
  | k :: ks => k.length + 1 + keysLength ks

theorem keysLength_append (l₁ l₂ : List (List UInt8)) :
    keysLength (l₁ ++ l₂) = keysLength l₁ + keysLength l₂ := by
  induction l₁ with
  | nil => simp [keysLength]
  | cons k l ih =>
    rw [List.cons_append, keysLength, keysLength, ih]
    omega

theorem packedEnd_eq {es : List (List UInt8 × ℕ)} {start e : ℕ} (h : packedEnd es start = some e) :
    e = start + keysLength (es.map Prod.fst) := by
  induction es generalizing start with
  | nil => simp_all [packedEnd, keysLength]
  | cons x es ih =>
    simp only [packedEnd] at h
    split at h
    · rw [ih h, List.map_cons, keysLength]
      omega
    · cases h

theorem packedEnd_bytes {es : List (List UInt8 × ℕ)} {start e : ℕ} (h : packedEnd es start = some e)
    {m : Mem} {d : ℕ}
    (hs : ∀ f ∈ es, (List.range (f.1.length + 1)).map (fun j => m (d + f.2 + j)) = f.1 ++ [0]) :
    (List.range (e - start)).map (fun x => m (d + start + x)) =
      (es.map fun f => f.1 ++ [0]).flatten := by
  induction es generalizing start with
  | nil =>
    obtain rfl : start = e := by simpa [packedEnd] using h
    simp
  | cons f es ih =>
    simp only [packedEnd] at h
    split at h
    · rename_i hf
      have hle := le_packedEnd h
      rw [show e - start = (f.1.length + 1) + (e - (start + f.1.length + 1)) by omega,
        List.range_add, List.map_append, List.map_map, List.map_cons, List.flatten_cons,
        ← hs f (List.mem_cons_self _ _), hf, ← ih h fun g hg => hs g (List.mem_cons_of_mem _ hg)]
      congr 2
      funext x
      simp only [Function.comp]
      congr 1
      omega
    · cases h

/-- The pool after `addString` of each name in turn. -/
def addAll (sp : StringPool) (names : List (List UInt8)) : StringPool :=
  names.foldl (fun sp s => (sp.addString s).2) sp

/-- The names of `ks`, then those of `names` not met before, in order of first occurrence. -/
def insertKeys (ks names : List (List UInt8)) : List (List UInt8) :=
  names.foldl (fun ks s => if s ∈ ks then ks else ks ++ [s]) ks

@[simp] theorem addAll_nil (sp : StringPool) : addAll sp [] = sp := rfl

@[simp] theorem addAll_cons (sp : StringPool) (s : List UInt8) (names : List (List UInt8)) :
    addAll sp (s :: names) = addAll (sp.addString s).2 names := rfl

theorem addAll_append (sp : StringPool) (l₁ l₂ : List (List UInt8)) :
    addAll sp (l₁ ++ l₂) = addAll (addAll sp l₁) l₂ := List.foldl_append _ _ _ _

theorem keysLength_le_insertKeys (ks names : List (List UInt8)) :
    keysLength ks ≤ keysLength (insertKeys ks names) := by
  induction names generalizing ks with
  | nil => exact le_rfl
  | cons s names ih =>
    refine le_trans ?_ (ih _)
    by_cases hs : s ∈ ks <;> simp [hs, keysLength_append]

theorem stringsLength_eq {sp : StringPool} (h : Packed sp) :
    sp.stringsLength = keysLength (sp.pool.map Prod.fst) := by
  simpa using packedEnd_eq h.ends

theorem addString_of_mem {sp : StringPool} {s : List UInt8} (hs : s ∈ sp.pool.map Prod.fst) :
    (sp.addString s).2 = sp := by
  unfold StringPool.addString
  split
  · rfl
  · exact absurd hs (lookupIndex_eq_none ‹_›)

theorem keys_addString_of_not_mem {sp : StringPool} {s : List UInt8}
    (hs : s ∉ sp.pool.map Prod.fst) :
    (sp.addString s).2.pool.map Prod.fst = sp.pool.map Prod.fst ++ [s] := by
  unfold StringPool.addString
  split
  · exact absurd (List.mem_map.mpr ⟨_, lookupIndex_mem ‹_›, rfl⟩) hs
  · simp

/-- While the distinct names fit in `2^32` bytes, additions keep the invariant and record
the names in order of first occurrence. -/
theorem addAll_packed {sp : StringPool} (h : Packed sp) {names : List (List UInt8)}
    (hfree : ∀ s ∈ names, (0 : UInt8) ∉ s)
    (hfit : keysLength (insertKeys (sp.pool.map Prod.fst) names) < 2 ^ 32) :
    Packed (addAll sp names) ∧
      (addAll sp names).pool.map Prod.fst = insertKeys (sp.pool.map Prod.fst) names := by
  induction names generalizing sp with
  | nil => exact ⟨h, rfl⟩
  | cons s names ih =>
    simp only [List.mem_cons, forall_eq_or_imp] at hfree
    by_cases hs : s ∈ sp.pool.map Prod.fst
    · have hk : insertKeys (sp.pool.map Prod.fst) (s :: names) =
          insertKeys (sp.pool.map Prod.fst) names := by simp [insertKeys, hs]
      rw [addAll_cons, addString_of_mem hs, hk]
      exact ih h hfree.2 (by rwa [hk] at hfit)
    · have hk : insertKeys (sp.pool.map Prod.fst) (s :: names) =
          insertKeys (sp.pool.map Prod.fst ++ [s]) names := by simp [insertKeys, hs]
      rw [hk] at hfit ⊢
      have hle := keysLength_le_insertKeys (sp.pool.map Prod.fst ++ [s]) names
      have h' := addString_packed h hfree.1 (by
        rw [stringsLength_eq h]
        simp only [keysLength_append, keysLength] at hle
        omega)
      rw [addAll_cons, ← keys_addString_of_not_mem hs]
      exact ih h' hfree.2 (by rwa [keys_addString_of_not_mem hs])

theorem lookupIndex_addAll_of_eq {sp : StringPool} {t : List UInt8} {i : ℕ}
    (h : lookupIndex t sp.pool = some i) (names : List (List UInt8)) :
    lookupIndex t (addAll sp names).pool = some i := by
  induction names generalizing sp with
  | nil => exact h
  | cons s names ih => exact ih (lookupIndex_addString_of_eq h s)

theorem packed_apart {sp : StringPool} (h : Packed sp) {e f : List UInt8 × ℕ} (he : e ∈ sp.pool)
    (hf : f ∈ sp.pool) (hne : e ≠ f) :
    e.2 + e.1.length + 1 ≤ f.2 ∨ f.2 + f.1.length + 1 ≤ e.2 := by
  have hp : sp.pool.Pairwise fun a b =>
      a.2 + a.1.length + 1 ≤ b.2 ∨ b.2 + b.1.length + 1 ≤ a.2 :=
    (packedEnd_pairwise h.ends).imp Or.inl
  exact hp.forall (fun _ _ => Or.symm) he hf hne

theorem sorted_eq {sp : StringPool} (h : Packed sp) : sp.sorted = sp.pool.map fun e => (e.2, e.1) :=
  List.Sorted.insertionSort_eq (List.pairwise_map.mpr ((packedEnd_pairwise h.ends).imp
    fun hab => Or.inl (by omega)))

theorem packedEnd_getLast {es : List (List UInt8 × ℕ)} {start e : ℕ} (h : packedEnd es start = some e)
    (hne : es ≠ []) : (es.getLast hne).2 + (es.getLast hne).1.length + 1 = e := by
  induction es generalizing start with
  | nil => exact absurd rfl hne
  | cons x es ih =>
    simp only [packedEnd] at h
    split at h
    · cases es with
      | nil => simp_all [packedEnd]
      | cons y es => simpa using ih h (List.cons_ne_nil y es)
    · cases h

theorem writeStrings_fst {sp : StringPool} (h : Packed sp) (dest : Mem) (d : ℕ) :
    (sp.writeStrings dest d).1 = sp.stringsLength := by
  simp only [StringPool.writeStrings, sorted_eq h, List.getLast_map]
  rw [packedEnd_getLast h.ends, u32_of_lt h.fits]

theorem foldl_copyBytes_of_apart (es : List (ℕ × List UInt8)) {dest : Mem} {d x : ℕ}
    (hx : ∀ e ∈ es, x < d + e.1 ∨ d + e.1 + e.2.length ≤ x) :
    es.foldl (fun m e => copyBytes m (d + e.1) e.2) dest x = dest x := by
  induction es generalizing dest with
  | nil => rfl
  | cons e es ih =>
    simp only [List.mem_cons, forall_eq_or_imp] at hx
    rw [List.foldl_cons, ih hx.2, copyBytes_of_apart _ _ _ hx.1]

theorem foldl_copyBytes_at {es : List (List UInt8 × ℕ)}
    (hp : es.Pairwise fun a b => a.2 + a.1.length + 1 ≤ b.2) (dest : Mem) (d : ℕ)
    {e : List UInt8 × ℕ} (he : e ∈ es) {j : ℕ} (hj : j < e.1.length) :
    (es.map fun e => (e.2, e.1)).foldl (fun m e => copyBytes m (d + e.1) e.2) dest (d + e.2 + j) =
      e.1.getD j 0 := by
  induction es generalizing dest with
  | nil => simp at he
  | cons f es ih =>
    rw [List.pairwise_cons] at hp
    rw [List.map_cons, List.foldl_cons]
    rcases List.mem_cons.mp he with rfl | he
    · rw [foldl_copyBytes_of_apart _ fun g hg => ?_, copyBytes_at _ _ _ hj]
      obtain ⟨k, hk, rfl⟩ := List.mem_map.mp hg
      have := hp.1 k hk
      omega
    · exact ih hp.2 _ he

/-- `writeStrings` writes nothing outside the names' bytes. -/
theorem writeStrings_of_apart (sp : StringPool) {dest : Mem} {d x : ℕ}
    (hx : ∀ e ∈ sp.pool, x < d + e.2 ∨ d + e.2 + e.1.length ≤ x) :
    (sp.writeStrings dest d).2 x = dest x := by
  refine foldl_copyBytes_of_apart _ fun e he => ?_
  obtain ⟨f, hf, rfl⟩ := List.mem_map.mp ((List.perm_insertionSort _ _).mem_iff.mp he)
  exact hx f hf

theorem writeStrings_at {sp : StringPool} (h : Packed sp) (dest : Mem) (d : ℕ)
    {e : List UInt8 × ℕ} (he : e ∈ sp.pool) {j : ℕ} (hj : j < e.1.length) :
    (sp.writeStrings dest d).2 (d + e.2 + j) = e.1.getD j 0 := by
  simp only [StringPool.writeStrings, sorted_eq h]
  exact foldl_copyBytes_at (packedEnd_pairwise h.ends) dest d he hj

/-- Written over a buffer that is zero where the terminators go, the C string at the
offset of a name is the name. -/
theorem cstr_writeStrings {sp : StringPool} (h : Packed sp) {dest : Mem} {d : ℕ}
    (hz : ∀ f ∈ sp.pool, dest (d + f.2 + f.1.length) = 0)
    {e : List UInt8 × ℕ} (he : e ∈ sp.pool) {n : ℕ} (hn : e.1.length < n) :
    cstr (sp.writeStrings dest d).2 (d + e.2) n = e.1 := by
  refine cstr_eq_of_bytes (fun j hj => writeStrings_at h dest d he hj) ?_ (h.nulFree e he) hn
  rw [writeStrings_of_apart sp fun f hf => ?_, hz e he]
  by_cases hfe : f = e
  · subst hfe
    omega
  · have := packed_apart h hf he hfe
    omega

/-- The offsets `addString` returns for `names` added in turn, and the pool it leaves. -/
def addStrings (sp : StringPool) : List (List UInt8) → List ℕ × StringPool
  | [] => ([], sp)
  | s :: names =>
    let r := addStrings (sp.addString s).2 names
    ((sp.addString s).1 :: r.1, r.2)

theorem addStrings_snd (sp : StringPool) (names : List (List UInt8)) :
    (addStrings sp names).2 = addAll sp names := by
  induction names generalizing sp with
  | nil => rfl
  | cons s names ih => exact ih _

theorem addStrings_length (sp : StringPool) (names : List (List UInt8)) :
    (addStrings sp names).1.length = names.length := by
  induction names generalizing sp with
  | nil => rfl
  | cons s names ih => simp [addStrings, ih]

theorem lookupIndex_addStrings (sp : StringPool) (names : List (List UInt8)) :
    ∀ p ∈ names.zip (addStrings sp names).1, lookupIndex p.1 (addAll sp names).pool = some p.2 := by
  induction names generalizing sp with
  | nil => simp [addStrings]
  | cons s names ih =>
    intro p hp
    simp only [addStrings, List.zip_cons_cons, List.mem_cons] at hp
    rcases hp with rfl | hp
    · exact lookupIndex_addAll_of_eq (lookupIndex_addString sp s) names
    · exact ih _ p hp

theorem eq_of_lookupIndex {sp : StringPool} (h : Packed sp) {s s' : List UInt8} {k : ℕ}
    (hs : lookupIndex s sp.pool = some k) (hs' : lookupIndex s' sp.pool = some k) : s = s' := by
  by_contra hne
  have := packed_apart h (lookupIndex_mem hs) (lookupIndex_mem hs')
    fun he => hne (Prod.ext_iff.mp he).1
  dsimp only at this
  omega

theorem keysLength_eq_sum (l : List (List UInt8)) :
    keysLength l = (l.map fun s => s.length + 1).sum := by
  induction l with
  | nil => rfl
  | cons k l ih => simp [keysLength, ih]

theorem mem_insertKeys {x : List UInt8} {ks names : List (List UInt8)} :
    x ∈ insertKeys ks names ↔ x ∈ ks ∨ x ∈ names := by
  induction names generalizing ks with
  | nil => simp [insertKeys]
  | cons s names ih =>
    simp only [insertKeys, List.foldl_cons] at ih ⊢
    rw [ih]
    by_cases h : s ∈ ks
    · simp only [h, if_true, List.mem_cons]
      constructor
      · tauto
      · rintro (hx | rfl | hx) <;> tauto
    · simp only [h, if_false, List.mem_append, List.mem_singleton, List.mem_cons]
      tauto

theorem nodup_insertKeys {ks : List (List UInt8)} (hks : ks.Nodup) (names : List (List UInt8)) :
    (insertKeys ks names).Nodup := by
  induction names generalizing ks with
  | nil => exact hks
  | cons s names ih =>
    simp only [insertKeys, List.foldl_cons] at ih ⊢
    split_ifs with h
    · exact ih hks
    · exact ih (List.nodup_append.mpr ⟨hks, List.nodup_singleton s, List.disjoint_singleton.mpr h⟩)

theorem keysLength_perm {l l' : List (List UInt8)} (h : l.Perm l') : keysLength l = keysLength l' := by
  induction h with
  | nil => rfl
  | cons k _ ih => simp only [keysLength, ih]
  | swap a b l => simp only [keysLength]; omega
  | trans _ _ ih₁ ih₂ => exact ih₁.trans ih₂

theorem keysLength_insertKeys {ks : List (List UInt8)} (hks : ks.Nodup) (names : List (List UInt8)) :
    keysLength (insertKeys ks names) = ((ks ++ names).dedup.map fun s => s.length + 1).sum := by
  rw [← keysLength_eq_sum]
  exact keysLength_perm ((List.perm_ext_iff_of_nodup (nodup_insertKeys hks names)
    (List.nodup_dedup _)).mpr fun x => by rw [mem_insertKeys, List.mem_dedup, List.mem_append])

theorem string_pool_round_trip {names : List (List UInt8)} (hfree : ∀ s ∈ names, (0 : UInt8) ∉ s)
    (hfit : ((([] : List UInt8) :: names).dedup.map fun s => s.length + 1).sum < 2 ^ 32)
    (dest : Mem) (d : ℕ)
    (hzero : ∀ x < ((([] : List UInt8) :: names).dedup.map fun s => s.length + 1).sum,
      dest (d + x) = 0) :
    let ks := (addStrings StringPool.new names).1
    let w := (addStrings StringPool.new names).2.writeStrings dest d
    ks.length = names.length ∧
    (∀ p ∈ names.zip ks, ∀ q ∈ names.zip ks, p.2 = q.2 ↔ p.1 = q.1) ∧
    (∀ p ∈ names.zip ks, p.1 = [] → p.2 = 0) ∧
    w.1 = ((([] : List UInt8) :: names).dedup.map fun s => s.length + 1).sum ∧
    (∀ x, x < d ∨ d + w.1 ≤ x → w.2 x = dest x) ∧
    (∀ p ∈ names.zip ks, ∀ n, p.1.length < n → cstr w.2 (d + p.2) n = p.1) ∧
    w.2 d = 0 := by
  intro ks w
  have hT := keysLength_insertKeys (List.nodup_singleton []) names
  rw [List.singleton_append] at hT
  obtain ⟨hP, hkeys⟩ := addAll_packed new_packed hfree (hT ▸ hfit)
  have hlen : (addAll StringPool.new names).stringsLength =
      ((([] : List UInt8) :: names).dedup.map fun s => s.length + 1).sum := by
    rw [stringsLength_eq hP, hkeys, ← hT]
    rfl
  have hw : w.1 = (addAll StringPool.new names).stringsLength := by
    show ((addStrings StringPool.new names).2.writeStrings dest d).1 = _
    rw [addStrings_snd, writeStrings_fst hP]
  have hlook := lookupIndex_addStrings StringPool.new names
  have hempty : lookupIndex [] (addAll StringPool.new names).pool = some 0 :=
    lookupIndex_addAll_of_eq (show lookupIndex [] StringPool.new.pool = some 0 from rfl) names
  have hz : ∀ f ∈ (addAll StringPool.new names).pool, dest (d + f.2 + f.1.length) = 0 :=
    fun f hf => by
      have := entry_le_packedEnd hP.ends hf
      rw [Nat.add_assoc]
      exact hzero _ (by omega)
  have hcstr : ∀ p ∈ names.zip ks, ∀ n, p.1.length < n → cstr w.2 (d + p.2) n = p.1 :=
    fun p hp n hn => by
      show cstr ((addStrings StringPool.new names).2.writeStrings dest d).2 (d + p.2) n = p.1
      rw [addStrings_snd]
      exact cstr_writeStrings hP hz (lookupIndex_mem (hlook p hp)) hn
  refine ⟨addStrings_length _ _, fun p hp q hq => ⟨fun h => ?_, fun h => ?_⟩,
    fun p hp h => ?_, hw.trans hlen, fun x hx => ?_, hcstr, ?_⟩
  · exact eq_of_lookupIndex hP (hlook p hp) (h ▸ hlook q hq)
  · exact Option.some.inj ((hlook p hp).symm.trans (h ▸ hlook q hq))
  · exact Option.some.inj ((hlook p hp).symm.trans (h ▸ hempty))
  · show ((addStrings StringPool.new names).2.writeStrings dest d).2 x = dest x
    rw [addStrings_snd]
    refine writeStrings_of_apart _ fun e he => ?_
    have := entry_le_packedEnd hP.ends he
    rw [hw] at hx
    omega
  · have := cstr_writeStrings (n := 1) hP hz (lookupIndex_mem hempty) (by decide)
    rw [← addStrings_snd] at this
    simpa [cstr] using this

def abcNames : List (List UInt8) := [[97], [98, 99], [97], []]

theorem string_pool_round_trip_abc :
    let ks := (addStrings StringPool.new abcNames).1
    let w := (addStrings StringPool.new abcNames).2.writeStrings (fun _ => 0) 0
    ks.length = abcNames.length ∧
    (∀ p ∈ abcNames.zip ks, ∀ q ∈ abcNames.zip ks, p.2 = q.2 ↔ p.1 = q.1) ∧
    (∀ p ∈ abcNames.zip ks, p.1 = [] → p.2 = 0) ∧
    w.1 = ((([] : List UInt8) :: abcNames).dedup.map fun s => s.length + 1).sum ∧
    (∀ x, x < 0 ∨ 0 + w.1 ≤ x → w.2 x = 0) ∧
    (∀ p ∈ abcNames.zip ks, ∀ n, p.1.length < n → cstr w.2 (0 + p.2) n = p.1) ∧
    w.2 0 = 0 :=
  string_pool_round_trip (by decide) (by decide) (fun _ => 0) 0 fun _ _ => rfl

end DyldLinkedit.Interning
