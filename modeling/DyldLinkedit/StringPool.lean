import DyldLinkedit.Memory

/-!
# The string pool

`StringPool` interns symbol names: `addString` returns the offset a name will have in the
written pool, the same offset for equal names, and `writeStrings` copies every name to its
offset. The `std::map` is kept as its entries in insertion order; `writeStrings` sorts the
`(offset, string)` pairs as the source does before copying them. Names are byte strings
read up to their NUL, so no name holds a NUL byte.
-/

set_option autoImplicit false

namespace DyldLinkedit.Strings
open DyldLinkedit.Memory

/-- `_pool` and `_stringsLength`. The constructor's entry keeps the pool non-empty, which
is what `writeStrings` relies on when it takes the last sorted entry. -/
structure StringPool where
  pool : List (List UInt8 × ℕ)
  stringsLength : ℕ
  nonempty : pool ≠ []

/-- The index recorded for `s`, if any. -/
def lookupIndex (s : List UInt8) : List (List UInt8 × ℕ) → Option ℕ
  | [] => none
  | e :: es => if e.1 = s then some e.2 else lookupIndex s es

/-- `addString`. The length is added in `uint32_t`. -/
def StringPool.addString (sp : StringPool) (s : List UInt8) : ℕ × StringPool :=
  match lookupIndex s sp.pool with
  | some i => (i, sp)
  | none => (sp.stringsLength,
      ⟨sp.pool ++ [(s, sp.stringsLength)], u32 (sp.stringsLength + s.length + 1), by simp⟩)

/-- `StringPool()`: it adds `"\x00"`, the empty C string, at offset 0. -/
def StringPool.new : StringPool := ⟨[([], 0)], 1, by simp⟩

/-- Lexicographic `<=` on bytes, as `std::string_view` compares them. -/
def bytesLe : List UInt8 → List UInt8 → Bool
  | [], _ => true
  | _ :: _, [] => false
  | a :: as, b :: bs => a < b || (a == b && bytesLe as bs)

/-- The order `std::sort` puts `(offset, string)` pairs in. -/
def entryLe (a b : ℕ × List UInt8) : Prop := a.1 < b.1 ∨ a.1 = b.1 ∧ bytesLe a.2 b.2 = true

instance : DecidableRel entryLe := fun _ _ => inferInstanceAs (Decidable (_ ∨ _))

/-- The pairs `writeStrings` copies, sorted. -/
def StringPool.sorted (sp : StringPool) : List (ℕ × List UInt8) :=
  (sp.pool.map fun e => (e.2, e.1)).insertionSort entryLe

theorem StringPool.sorted_ne_nil (sp : StringPool) : sp.sorted ≠ [] := by
  have h := List.length_insertionSort entryLe (sp.pool.map fun e => (e.2, e.1))
  intro he
  rw [← StringPool.sorted, he] at h
  exact sp.nonempty (List.eq_nil_of_length_eq_zero (by simpa using h.symm))

/-- `writeStrings(dest + d)`: copy each name to its offset, no terminator written, and
return the end of the last one, its terminator included. -/
def StringPool.writeStrings (sp : StringPool) (dest : Mem) (d : ℕ) : ℕ × Mem :=
  let last := sp.sorted.getLast sp.sorted_ne_nil
  (u32 (last.1 + last.2.length + 1), sp.sorted.foldl (fun m e => copyBytes m (d + e.1) e.2) dest)

end DyldLinkedit.Strings
