import DyldLinkedit.Tracker

/-!
# The registry's order

`trackData` inserts where `std::lower_bound` points, so the registry stays sorted by data
pointer whatever is inserted; a region whose data ties with a tracked one goes before it.
-/

set_option autoImplicit false

namespace DyldLinkedit.Registry
open DyldLinkedit.Tracker

/-- The registry's order. -/
def DataLe (a b : LinkeditData) : Prop := a.data ≤ b.data

theorem insertByData_perm (d : LinkeditData) (l : List LinkeditData) :
    (insertByData d l).Perm (d :: l) := by
  induction l with
  | nil => exact List.Perm.refl _
  | cons x l ih =>
    simp only [insertByData]
    split
    · exact (ih.cons x).trans (List.Perm.swap d x l)
    · exact List.Perm.refl _

theorem mem_insertByData {x d : LinkeditData} {l : List LinkeditData} :
    x ∈ insertByData d l ↔ x = d ∨ x ∈ l := by
  rw [(insertByData_perm d l).mem_iff, List.mem_cons]

theorem insertByData_sorted (d : LinkeditData) {l : List LinkeditData} (hl : l.Sorted DataLe) :
    (insertByData d l).Sorted DataLe := by
  induction l with
  | nil => exact List.sorted_singleton d
  | cons x l ih =>
    have hx := List.sorted_cons.mp hl
    simp only [insertByData]
    split
    · refine List.sorted_cons.mpr ⟨fun y hy => ?_, ih hx.2⟩
      rcases mem_insertByData.mp hy with rfl | hy
      · exact Nat.le_of_lt ‹_›
      · exact hx.1 y hy
    · refine List.sorted_cons.mpr ⟨fun y hy => ?_, hl⟩
      rcases List.mem_cons.mp hy with rfl | hy
      · exact Nat.le_of_not_lt ‹_›
      · exact le_trans (Nat.le_of_not_lt ‹_›) (hx.1 y hy)

/-- A region past every tracked one is appended. -/
theorem insertByData_of_lt {d : LinkeditData} {l : List LinkeditData}
    (h : ∀ x ∈ l, x.data < d.data) : insertByData d l = l ++ [d] := by
  induction l with
  | nil => rfl
  | cons x l ih =>
    simp only [List.mem_cons, forall_eq_or_imp] at h
    simp [insertByData, h.1, ih h.2]

/-- The registry after tracking `ds` in order. -/
def trackAll (l ds : List LinkeditData) : List LinkeditData :=
  ds.foldl (fun l d => insertByData d l) l

theorem trackAll_append (l ds es : List LinkeditData) :
    trackAll l (ds ++ es) = trackAll (trackAll l ds) es := List.foldl_append _ _ _ _

theorem mem_trackAll {x : LinkeditData} {l ds : List LinkeditData} :
    x ∈ trackAll l ds ↔ x ∈ l ∨ x ∈ ds := by
  induction ds generalizing l with
  | nil => simp [trackAll]
  | cons d ds ih =>
    simp only [trackAll, List.foldl_cons] at ih ⊢
    rw [ih, mem_insertByData, List.mem_cons]
    tauto

/-- Tracking reorders the regions and loses none. -/
theorem trackAll_perm (l ds : List LinkeditData) : (trackAll l ds).Perm (l ++ ds) := by
  induction ds generalizing l with
  | nil => simp [trackAll]
  | cons d ds ih =>
    exact ((ih _).trans ((insertByData_perm d l).append_right ds)).trans List.perm_middle.symm

theorem trackAll_sorted {l : List LinkeditData} (hl : l.Sorted DataLe) (ds : List LinkeditData) :
    (trackAll l ds).Sorted DataLe := by
  induction ds generalizing l with
  | nil => exact hl
  | cons d ds ih => exact ih (insertByData_sorted d hl)

/-- With distinct data pointers, a registry sorted by data pointer is strictly increasing. -/
theorem sorted_lt {l : List LinkeditData} (hs : l.Sorted DataLe)
    (hnd : (l.map LinkeditData.data).Nodup) : l.Sorted fun a b => a.data < b.data :=
  (hs.and (List.pairwise_map.mp hnd)).imp fun h => lt_of_le_of_ne h.1 h.2

/-- Regions of distinct data pointers tracked in any order give the same registry. -/
theorem trackAll_perm_eq {l ds es : List LinkeditData} (hl : l.Sorted DataLe) (hp : ds.Perm es)
    (hnd : ((l ++ ds).map LinkeditData.data).Nodup) : trackAll l ds = trackAll l es := by
  have hd := trackAll_perm l ds
  have he := (trackAll_perm l es).trans (hp.append_left l).symm
  haveI : IsAntisymm LinkeditData fun a b => a.data < b.data :=
    ⟨fun _ _ h h' => absurd (h.trans h') (lt_irrefl _)⟩
  exact List.eq_of_perm_of_sorted (hd.trans he.symm)
    (sorted_lt (trackAll_sorted hl ds) ((hd.map _).nodup_iff.mpr hnd))
    (sorted_lt (trackAll_sorted hl es) ((he.map _).nodup_iff.mpr hnd))

end DyldLinkedit.Registry
