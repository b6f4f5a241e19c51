import DyldLinkedit.Registry

/-!
# The two insertions

`insertLinkeditData(after, data)` opens a gap at the end of `after`, or at the start of
LINKEDIT: it moves the bytes up to the end of the last region, and every region at or past
the gap with its offset field, by the gap's size, then fills the gap with the payload and
zero padding and files the gap as a region. `insertLoadCommand(after, lc)` opens a gap at the
end of the command `after`, moves the commands past it and the fields they hold, copies `lc`
in, and counts it in `ncmds` and `sizeofcmds`.

The gap of `insertLinkeditData` is `dataSize + (8 - dataSize % 8)` as a `uint32_t`: the next
multiple of 8 strictly above the size. A size that is a multiple of 8 gets 8 bytes of
padding; a size of `2^32 - 8` or more gets a gap of 0 bytes, and the padding then lands in
the 8 bytes before the gap. The capacity check of `insertLoadCommand` adds two `uint32_t`s;
when the sum wraps the call succeeds and its copies run past the header space.
-/

set_option autoImplicit false

namespace DyldLinkedit.Insertion
open DyldLinkedit.Memory DyldLinkedit.MachO DyldLinkedit.Tracker DyldLinkedit.Registry

def insertStart (t : LinkeditTracker) : Option LinkeditData → ℕ
  | some a => a.dataEnd
  | none => t.linkeditStart

/-- The size of the gap `insertLinkeditData` opens for `data`, a `uint32_t`: the payload's
size and the padding to the next multiple of 8, a full 8 when it is one already. -/
def insertDelta (data : LinkeditData) : ℕ := u32 (data.dataSize + (8 - data.dataSize % 8))

def shiftData (shiftStart shiftDelta : ℕ) (d : LinkeditData) : LinkeditData :=
  if shiftStart ≤ d.data then { d with data := d.data + shiftDelta } else d

def shiftOffset (shiftStart shiftDelta : ℕ) (d : LinkeditData) : LinkeditData :=
  if shiftStart ≤ d.offset then { d with offset := d.offset + shiftDelta } else d

theorem insertDelta_mod (data : LinkeditData) : insertDelta data % 8 = 0 := by
  unfold insertDelta u32
  omega

@[simp] theorem shiftData_offset (S δ : ℕ) (d : LinkeditData) : (shiftData S δ d).offset = d.offset := by
  unfold shiftData
  split <;> rfl

theorem shiftData_data (S δ : ℕ) (d : LinkeditData) :
    (shiftData S δ d).data = if S ≤ d.data then d.data + δ else d.data := by
  unfold shiftData
  split <;> rfl

@[simp] theorem shiftData_dataSize (S δ : ℕ) (d : LinkeditData) :
    (shiftData S δ d).dataSize = d.dataSize := by
  unfold shiftData
  split <;> rfl

@[simp] theorem shiftOffset_data (S δ : ℕ) (d : LinkeditData) : (shiftOffset S δ d).data = d.data := by
  unfold shiftOffset
  split <;> rfl

@[simp] theorem shiftOffset_dataSize (S δ : ℕ) (d : LinkeditData) :
    (shiftOffset S δ d).dataSize = d.dataSize := by
  unfold shiftOffset
  split <;> rfl

theorem shiftOffset_offset (S δ : ℕ) (d : LinkeditData) :
    (shiftOffset S δ d).offset = if S ≤ d.offset then d.offset + δ else d.offset := by
  unfold shiftOffset
  split <;> rfl

theorem shiftTracked_snd (S δ : ℕ) (m : Mem) (ds : List LinkeditData) :
    (shiftTracked S δ m ds).2 = ds.map (shiftData S δ) := by
  induction ds generalizing m with
  | nil => rfl
  | cons d ds ih =>
    unfold shiftTracked
    by_cases h : S ≤ d.data <;> simp [h, ih, shiftData]

/-- The loop of `insertLinkeditData` writes only the fields of the regions it moves. -/
theorem shiftTracked_of_apart (S δ : ℕ) {m : Mem} {ds : List LinkeditData} {x : ℕ}
    (h : ∀ d ∈ ds, S ≤ d.data → x < d.offset ∨ d.offset + 4 ≤ x) :
    (shiftTracked S δ m ds).1 x = m x := by
  induction ds generalizing m with
  | nil => rfl
  | cons d ds ih =>
    have hds := fun e he => h e (List.mem_cons_of_mem _ he)
    unfold shiftTracked
    split
    · rw [ih hds]
      exact writeLE_of_apart _ _ _ _ (h d (List.mem_cons_self _ _) ‹_›)
    · exact ih hds

theorem readLE_shiftTracked_of_apart (S δ : ℕ) {m : Mem} {ds : List LinkeditData} {x n : ℕ}
    (h : ∀ d ∈ ds, Apart d.offset 4 x n) : readLE (shiftTracked S δ m ds).1 x n = readLE m x n :=
  readLE_congr n fun i _ => shiftTracked_of_apart S δ fun d hd _ => by
    have := h d hd
    unfold Apart at this
    omega

theorem read32_shiftTracked (S δ : ℕ) {ds : List LinkeditData}
    (hds : ds.Pairwise fun a b => Apart a.offset 4 b.offset 4) {d : LinkeditData} (hd : d ∈ ds)
    (m : Mem) : read32 (shiftTracked S δ m ds).1 d.offset =
      if S ≤ d.data then u32 (read32 m d.offset + δ) else read32 m d.offset := by
  induction ds generalizing m with
  | nil => cases hd
  | cons e ds ih =>
    obtain ⟨he, hds⟩ := List.pairwise_cons.mp hds
    have hsep : ∀ x ∈ ds, Apart x.offset 4 e.offset 4 := fun x hx => Or.symm (he x hx)
    unfold shiftTracked
    rcases List.mem_cons.mp hd with rfl | hd
    · split
      · rw [read32, readLE_shiftTracked_of_apart S δ hsep, ← read32, read32_write32_self]
      · rw [read32, readLE_shiftTracked_of_apart S δ hsep, ← read32]
    · have hne : Apart e.offset 4 d.offset 4 := he d hd
      split
      · rw [ih hds hd, read32_write32_of_apart _ _ hne]
      · exact ih hds hd m

theorem insertLinkeditData_of_not_fits {t : LinkeditTracker} {pg : Pages}
    {after : Option LinkeditData} {data : LinkeditData} {src : Mem}
    (h : ¬ t.lastDataEnd + insertDelta data ≤ t.linkeditEnd) :
    t.insertLinkeditData pg after data src = (false, t, pg) := by
  simp only [LinkeditTracker.insertLinkeditData, insertDelta] at h ⊢
  rw [if_pos (Nat.lt_of_not_le h)]

theorem insertLinkeditData_of_fits {t : LinkeditTracker} {pg : Pages}
    {after : Option LinkeditData} {data : LinkeditData} {src : Mem}
    (h : t.lastDataEnd + insertDelta data ≤ t.linkeditEnd) :
    (t.insertLinkeditData pg after data src).1 = true ∧
    (t.insertLinkeditData pg after data src).2.1 = { t with trackingData :=
      (insertByData ⟨data.offset, insertStart t after, insertDelta data⟩
        (t.trackingData.map (shiftData (insertStart t after) (insertDelta data)))) } ∧
    (t.insertLinkeditData pg after data src).2.2.hdr =
      (shiftTracked (insertStart t after) (insertDelta data) pg.hdr t.trackingData).1 ∧
    (t.insertLinkeditData pg after data src).2.2.lnk =
      copy (fill (copy pg.lnk (insertStart t after + insertDelta data) pg.lnk (insertStart t after)
        (t.lastDataEnd - insertStart t after)) (insertStart t after + insertDelta data - 8) 8 0)
        (insertStart t after) src data.data data.dataSize := by
  simp only [LinkeditTracker.insertLinkeditData, insertDelta] at h ⊢
  rw [if_neg (Nat.not_lt_of_le h)]
  cases after <;> simp [insertStart, insertDelta, shiftTracked_snd]

/-- The registry as the capacity check needs it: sorted by data pointer, pairwise apart, on
the 8-byte grid from `linkeditStart`, every region ending by the end of the last one, which
lies inside LINKEDIT. -/
@[mk_iff] structure Packed (t : LinkeditTracker) : Prop where
  sorted : t.trackingData.Pairwise fun a b => a.data ≤ b.data
  apart : t.trackingData.Pairwise fun a b => Apart a.data a.dataSize b.data b.dataSize
  aligned : ∀ d ∈ t.trackingData, t.linkeditStart ≤ d.data ∧
    (d.data - t.linkeditStart) % 8 = 0 ∧ d.dataSize % 8 = 0
  ends : ∀ d ∈ t.trackingData, d.dataEnd ≤ t.lastDataEnd
  last : t.lastDataEnd ≤ t.linkeditEnd

instance (t : LinkeditTracker) : Decidable (Packed t) := decidable_of_iff _ (packed_iff t).symm

theorem lastDataEnd_of_getLast? {t : LinkeditTracker} {y : LinkeditData}
    (h : t.trackingData.getLast? = some y) : t.lastDataEnd = y.dataEnd := by
  simp [LinkeditTracker.lastDataEnd, h]

theorem le_of_getLast? {l : List LinkeditData} (hl : l.Pairwise fun a b => a.data ≤ b.data)
    {y : LinkeditData} (hy : l.getLast? = some y) : ∀ x ∈ l, x.data ≤ y.data := by
  obtain ⟨l₀, rfl⟩ := List.getLast?_eq_some_iff.mp hy
  intro x hx
  rcases List.mem_append.mp hx with hx | hx
  · exact (List.pairwise_append.mp hl).2.2 x hx y (List.mem_singleton_self _)
  · rw [List.mem_singleton.mp hx]

theorem getLast?_insertByData {d y : LinkeditData} {l : List LinkeditData}
    (hy : l.getLast? = some y) (hd : d.data ≤ y.data) : (insertByData d l).getLast? = some y := by
  induction l with
  | nil => cases hy
  | cons x xs ih =>
    simp only [insertByData]
    split
    · cases xs with
      | nil =>
        simp only [List.getLast?_singleton, Option.some.injEq] at hy
        subst hy
        omega
      | cons x' xs =>
        rw [List.getLast?_cons_cons] at hy
        have := ih hy
        cases h : insertByData d (x' :: xs) with
        | nil => simp [insertByData] at h; split at h <;> cases h
        | cons z zs => rw [h] at this; rwa [List.getLast?_cons_cons]
    · rwa [List.getLast?_cons_cons]

namespace Packed

variable {t : LinkeditTracker} (hP : Packed t)
include hP

theorem start_le_lastDataEnd : t.linkeditStart ≤ t.lastDataEnd := by
  cases h : t.trackingData.getLast? with
  | none => simp [LinkeditTracker.lastDataEnd, h]
  | some y =>
    have hy := List.mem_of_getLast?_eq_some h
    rw [lastDataEnd_of_getLast? h]
    exact (hP.aligned y hy).1.trans (Nat.le_add_right _ _)

variable {after : Option LinkeditData} (ha : ∀ a ∈ after, a ∈ t.trackingData)
include ha

theorem insertStart_le : t.linkeditStart ≤ insertStart t after ∧
    insertStart t after ≤ t.lastDataEnd ∧ (insertStart t after - t.linkeditStart) % 8 = 0 := by
  cases after with
  | none => exact ⟨le_rfl, hP.start_le_lastDataEnd, by simp [insertStart]⟩
  | some a =>
    have hmem := ha a rfl
    obtain ⟨h₁, h₂, h₃⟩ := hP.aligned a hmem
    have := hP.ends a hmem
    simp only [insertStart, LinkeditData.dataEnd] at this ⊢
    omega

theorem end_le_of_lt {x : LinkeditData} (hx : x ∈ t.trackingData)
    (hlt : x.data < insertStart t after) : x.dataEnd ≤ insertStart t after := by
  cases after with
  | none => exact absurd hlt (Nat.not_lt_of_le (hP.aligned x hx).1)
  | some a =>
    by_cases hxa : x = a
    · subst hxa
      exact le_rfl
    · have h := List.Pairwise.«forall» (fun _ _ h => Or.symm h) hP.apart hx (ha a rfl) hxa
      simp only [insertStart, LinkeditData.dataEnd, Apart] at h hlt ⊢
      omega

/-- After a successful `insertLinkeditData` the end of the last region bounds every region and
lies inside LINKEDIT: when the gap opens before some region the last one moves and stays last,
otherwise the gap's own region is filed last. -/
theorem insert_ends (data : LinkeditData) (hfit : t.lastDataEnd + insertDelta data ≤ t.linkeditEnd) :
    let t' : LinkeditTracker := { t with trackingData :=
      (insertByData ⟨data.offset, insertStart t after, insertDelta data⟩
        (t.trackingData.map (shiftData (insertStart t after) (insertDelta data)))) }
    (∀ d ∈ t'.trackingData, d.dataEnd ≤ t'.lastDataEnd) ∧ t'.lastDataEnd ≤ t'.linkeditEnd := by
  have hS := (hP.insertStart_le ha).2.1
  have hF : ∀ x ∈ t.trackingData, x.data < insertStart t after →
      x.dataEnd ≤ insertStart t after := fun x hx => hP.end_le_of_lt ha hx
  generalize insertStart t after = S at *
  generalize insertDelta data = δ at *
  intro t'
  by_cases hB : ∃ x ∈ t.trackingData, S ≤ x.data
  · -- the gap opens before the last region, which moves and stays last
    obtain ⟨x, hx, hSx⟩ := hB
    obtain ⟨y, hy⟩ : ∃ y, t.trackingData.getLast? = some y :=
      Option.ne_none_iff_exists'.mp fun h => by
        rw [List.getLast?_eq_none_iff] at h
        rw [h] at hx
        cases hx
    have hxy := le_of_getLast? hP.sorted hy x hx
    have hyL := lastDataEnd_of_getLast? hy
    have hE : t'.lastDataEnd = (shiftData S δ y).dataEnd :=
      lastDataEnd_of_getLast? (getLast?_insertByData (by rw [List.getLast?_map, hy]; rfl)
        (by simp only [shiftData_data]; split_ifs <;> omega))
    rw [hE]
    refine ⟨fun z hz => ?_, ?_⟩
    · rcases mem_insertByData.mp hz with rfl | hz
      · simp only [LinkeditData.dataEnd, shiftData_data, shiftData_dataSize]
        split_ifs <;> omega
      · obtain ⟨w, hw, rfl⟩ := List.mem_map.mp hz
        have := hP.ends w hw
        by_cases hSw : S ≤ w.data
        · simp only [LinkeditData.dataEnd, shiftData_data, shiftData_dataSize] at this hyL ⊢
          split_ifs <;> omega
        · have := hF w hw (Nat.lt_of_not_le hSw)
          simp only [LinkeditData.dataEnd, shiftData_data, shiftData_dataSize] at this hyL ⊢
          split_ifs <;> omega
    · have := hP.ends y (List.mem_of_getLast?_eq_some hy)
      simp only [LinkeditData.dataEnd, shiftData_data, shiftData_dataSize] at hyL this ⊢
      split_ifs <;> omega
  · -- nothing moves, and the gap's region is filed last
    push_neg at hB
    have hm : t.trackingData.map (shiftData S δ) = t.trackingData :=
      (List.map_congr_left fun x hx => by
        simp [shiftData, Nat.not_le_of_lt (hB x hx)]).trans (List.map_id _)
    have hE : t'.lastDataEnd = S + δ := by
      refine lastDataEnd_of_getLast? (y := ⟨data.offset, S, δ⟩) ?_
      show (insertByData _ (t.trackingData.map (shiftData S δ))).getLast? = _
      rw [hm, insertByData_of_lt hB]
      exact List.getLast?_concat _
    rw [hE]
    refine ⟨fun z hz => ?_, by show S + δ ≤ t.linkeditEnd; omega⟩
    have hz : z ∈ insertByData ⟨data.offset, S, δ⟩ t.trackingData := by rw [← hm]; exact hz
    rcases mem_insertByData.mp hz with rfl | hz
    · exact le_rfl
    · exact (hF z hz (hB z hz)).trans (Nat.le_add_right _ _)

theorem insert (data : LinkeditData) (hfit : t.lastDataEnd + insertDelta data ≤ t.linkeditEnd) :
    Packed { t with trackingData :=
      (insertByData ⟨data.offset, insertStart t after, insertDelta data⟩
        (t.trackingData.map (shiftData (insertStart t after) (insertDelta data)))) } := by
  obtain ⟨hends, hlast⟩ := hP.insert_ends ha data hfit
  obtain ⟨hS₁, -, hS₃⟩ := hP.insertStart_le ha
  have hF : ∀ x ∈ t.trackingData, x.data < insertStart t after →
      x.dataEnd ≤ insertStart t after := fun x hx => hP.end_le_of_lt ha hx
  have hδ := insertDelta_mod data
  generalize insertStart t after = S at *
  generalize insertDelta data = δ at *
  obtain ⟨hsorted, hapart, haligned, -, -⟩ := hP
  refine ⟨?_, ?_, ?_, hends, hlast⟩
  · -- sorted
    refine insertByData_sorted _ (List.pairwise_map.mpr (hsorted.imp fun {a b} h => ?_))
    simp only [DataLe, shiftData_data]
    split_ifs <;> omega
  · -- apart
    refine ((insertByData_perm _ _).pairwise_iff fun h => Or.symm h).mpr
      (.cons (fun y hy => ?_) (List.pairwise_map.mpr (hapart.imp_of_mem fun {a b} ha hb h => ?_)))
    · obtain ⟨x, hx, rfl⟩ := List.mem_map.mp hy
      have := hF x hx
      simp only [Apart, shiftData_data, shiftData_dataSize, LinkeditData.dataEnd] at this ⊢
      split_ifs <;> omega
    · have fa := hF a ha
      have fb := hF b hb
      simp only [Apart, shiftData_data, shiftData_dataSize, LinkeditData.dataEnd] at h fa fb ⊢
      split_ifs <;> omega
  · -- aligned
    intro z hz
    rcases mem_insertByData.mp hz with rfl | hz
    · exact ⟨hS₁, hS₃, hδ⟩
    · obtain ⟨x, hx, rfl⟩ := List.mem_map.mp hz
      have := haligned x hx
      simp only [shiftData_data, shiftData_dataSize]
      split_ifs <;> omega

end Packed

/-- The gap's size: the next multiple of 8 strictly above the payload's size, until that
reaches 2^32 and the `uint32_t` wraps to 0. -/
theorem insertDelta_eq {data : LinkeditData} (h : data.dataSize < 2 ^ 32) :
    insertDelta data = if data.dataSize < 2 ^ 32 - 8 then data.dataSize / 8 * 8 + 8 else 0 := by
  unfold insertDelta u32
  split_ifs <;> omega

/-- The bytes an insertion is meant to leave, address by address: those before the gap at
`S`, the `size` bytes of the payload at `payload` in `src`, zeros up to the gap's end
`S + δ`, the bytes `[S, E)` moved up by `δ`, and the rest as they were. -/
def insertedByte (old src : Mem) (S E δ payload size x : ℕ) : UInt8 :=
  if x < S then old x
  else if x < S + size then src (payload + (x - S))
  else if x < S + δ then 0
  else if x < E + δ then old (x - δ)
  else old x

theorem insertedByte_of_payload (old src : Mem) {S x size : ℕ} (E δ payload : ℕ) (h₁ : S ≤ x)
    (h₂ : x < S + size) : insertedByte old src S E δ payload size x = src (payload + (x - S)) := by
  rw [insertedByte, if_neg (by omega), if_pos h₂]

theorem insertedByte_gap (old src : Mem) {S δ i : ℕ} (E payload size : ℕ) (hi : i < δ) :
    insertedByte old src S E δ payload size (S + i) =
      if i < size then src (payload + i) else 0 := by
  rw [insertedByte, if_neg (by omega), Nat.add_sub_cancel_left]
  by_cases h : i < size
  · rw [if_pos (by omega), if_pos h]
  · rw [if_neg (by omega), if_pos (by omega), if_neg h]

theorem insertedByte_of_not_gap (old src : Mem) {S E δ size x : ℕ} (payload : ℕ) (hsize : size ≤ δ)
    (hx : x < S ∨ S + δ ≤ x) :
    insertedByte old src S E δ payload size x =
      if S + δ ≤ x ∧ x < E + δ then old (x - δ) else old x := by
  unfold insertedByte
  split_ifs <;> first | rfl | omega

section Insert

variable {t : LinkeditTracker} {pg : Pages} {after : Option LinkeditData} {data : LinkeditData}
  {src : Mem}

theorem insertLinkeditData_lnk (hfit : t.lastDataEnd + insertDelta data ≤ t.linkeditEnd)
    (hSE : insertStart t after ≤ t.lastDataEnd) (hsize : data.dataSize < 2 ^ 32 - 8) (x : ℕ) :
    (t.insertLinkeditData pg after data src).2.2.lnk x = insertedByte pg.lnk src
      (insertStart t after) t.lastDataEnd (insertDelta data) data.data data.dataSize x := by
  have hδ := insertDelta_eq (show data.dataSize < 2 ^ 32 by omega)
  rw [if_pos hsize] at hδ
  rw [(insertLinkeditData_of_fits hfit).2.2.2]
  generalize insertStart t after = S at *
  generalize insertDelta data = δ at *
  simp only [copy, fill]
  by_cases hpay : S ≤ x ∧ x < S + data.dataSize
  · -- the payload
    rw [if_pos hpay, insertedByte_of_payload _ _ _ _ _ hpay.1 hpay.2]
  rw [if_neg hpay]
  by_cases hgap : x < S ∨ S + δ ≤ x
  · -- before the gap, the moved bytes, and past them
    rw [insertedByte_of_not_gap _ _ _ (by omega) hgap, if_neg (by omega)]
    split_ifs <;> first | rfl | omega | (congr 1; omega)
  · -- the padding
    rw [if_pos (by omega), insertedByte, if_neg (by omega), if_neg (by omega), if_pos (by omega)]

/-- With the wrap the gap is empty: nothing moves, the 8 bytes before the gap are zeroed and
the payload is copied over the gap's place. -/
theorem insertLinkeditData_lnk_of_wrap (hfit : t.lastDataEnd + insertDelta data ≤ t.linkeditEnd)
    (hsize : data.dataSize < 2 ^ 32) (hwrap : 2 ^ 32 - 8 ≤ data.dataSize) (x : ℕ) :
    (t.insertLinkeditData pg after data src).2.2.lnk x =
      if insertStart t after ≤ x ∧ x < insertStart t after + data.dataSize then
        src (data.data + (x - insertStart t after))
      else if insertStart t after ≤ x + 8 ∧ x < insertStart t after then 0 else pg.lnk x := by
  have hδ := insertDelta_eq hsize
  rw [if_neg (by omega)] at hδ
  rw [(insertLinkeditData_of_fits hfit).2.2.2, hδ]
  generalize insertStart t after = S
  simp only [copy, fill]
  split_ifs <;> first | rfl | omega | (congr 1; omega)

end Insert

/-- `insertLinkeditData(after, data)` as it behaves: with `E` the end of the last region, `S`
the end of `after` and `δ` the gap, it succeeds exactly when `E + δ` fits in LINKEDIT; a
failure changes nothing; a success advances every region at or past `S` and its field by
`δ`, files the gap as a region, writes no other header byte, and leaves LINKEDIT as
`insertedByte` says, or, once `δ` has wrapped to 0, with the payload over `S` and zeros in
the 8 bytes before it. -/
def LinkeditInserted (t : LinkeditTracker) (pg : Pages) (after : Option LinkeditData)
    (data : LinkeditData) (src : Mem) : Prop :=
  let r := t.insertLinkeditData pg after data src
  let S := insertStart t after
  let δ := insertDelta data
  δ = (if data.dataSize < 2 ^ 32 - 8 then data.dataSize / 8 * 8 + 8 else 0) ∧
    (r.1 = true ↔ t.lastDataEnd + δ ≤ t.linkeditEnd) ∧
    (r.1 = false → r.2 = (t, pg)) ∧
    (r.1 = true →
      r.2.1 = { t with trackingData :=
        (insertByData ⟨data.offset, S, δ⟩ (t.trackingData.map (shiftData S δ))) } ∧
      (∀ d ∈ t.trackingData, read32 r.2.2.hdr d.offset =
        if S ≤ d.data then u32 (read32 pg.hdr d.offset + δ) else read32 pg.hdr d.offset) ∧
      (∀ x, (∀ d ∈ t.trackingData, S ≤ d.data → x < d.offset ∨ d.offset + 4 ≤ x) →
        r.2.2.hdr x = pg.hdr x) ∧
      (data.dataSize < 2 ^ 32 - 8 →
        ∀ x, r.2.2.lnk x = insertedByte pg.lnk src S t.lastDataEnd δ data.data data.dataSize x) ∧
      (2 ^ 32 - 8 ≤ data.dataSize → ∀ x, r.2.2.lnk x =
        if S ≤ x ∧ x < S + data.dataSize then src (data.data + (x - S))
        else if S ≤ x + 8 ∧ x < S then 0 else pg.lnk x))

theorem insert_linkedit_data_spec {t : LinkeditTracker} (hP : Packed t)
    (hF : t.trackingData.Pairwise fun a b => Apart a.offset 4 b.offset 4)
    {after : Option LinkeditData} (ha : ∀ a ∈ after, a ∈ t.trackingData) (pg : Pages)
    (data : LinkeditData) (hsize : data.dataSize < 2 ^ 32) (src : Mem) :
    LinkeditInserted t pg after data src := by
  have hSE := (hP.insertStart_le ha).2.1
  refine ⟨insertDelta_eq hsize, ⟨fun h => ?_, fun h => (insertLinkeditData_of_fits h).1⟩,
    fun h => ?_, fun h => ?_⟩
  · by_contra hn
    rw [insertLinkeditData_of_not_fits hn] at h
    cases h
  · by_cases hfit : t.lastDataEnd + insertDelta data ≤ t.linkeditEnd
    · rw [(insertLinkeditData_of_fits hfit).1] at h
      cases h
    · rw [insertLinkeditData_of_not_fits hfit]
  · have hfit : t.lastDataEnd + insertDelta data ≤ t.linkeditEnd := by
      by_contra hn
      rw [insertLinkeditData_of_not_fits hn] at h
      cases h
    obtain ⟨-, h₂, h₃, -⟩ := @insertLinkeditData_of_fits _ pg _ _ src hfit
    refine ⟨h₂, fun d hd => h₃ ▸ read32_shiftTracked _ _ hF hd _,
      fun x hx => h₃ ▸ shiftTracked_of_apart _ _ hx, fun hs => insertLinkeditData_lnk hfit hSE hs,
      fun hs => insertLinkeditData_lnk_of_wrap hfit hsize hs⟩

def roomTracker : LinkeditTracker := ⟨0, 32, 0x100, 0x1000, 0x1010, [⟨40, 0x1000, 8⟩]⟩

def onesPages : Pages := ⟨fun _ => 0, fun _ => 1⟩

theorem insert_linkedit_data_spec_room :
    LinkeditInserted roomTracker onesPages (some ⟨40, 0x1000, 8⟩) ⟨44, 0, 5⟩ (fun _ => 7) :=
  insert_linkedit_data_spec (by decide) (by decide) (by decide) _ _ (by decide) _

/-- A payload of `2^32 - 8` bytes needs that much room past the last region, far more than
LINKEDIT has, yet its gap wraps to 0 bytes and the call succeeds: it zeroes the 8 bytes of
`after` and writes the payload past the end of LINKEDIT. -/
theorem gap_size_wraps :
    ∃ r, roomTracker.insertLinkeditData onesPages (some ⟨40, 0x1000, 8⟩) ⟨44, 0, 2 ^ 32 - 8⟩
        (fun _ => 0) = r ∧
      Packed roomTracker ∧ insertDelta ⟨44, 0, 2 ^ 32 - 8⟩ = 0 ∧
      roomTracker.linkeditEnd < roomTracker.lastDataEnd + (2 ^ 32 - 8) ∧ r.1 = true ∧
      (∀ i < 8, onesPages.lnk (0x1000 + i) = 1 ∧ r.2.2.lnk (0x1000 + i) = 0) ∧
      r.2.2.lnk roomTracker.linkeditEnd ≠ onesPages.lnk roomTracker.linkeditEnd :=
  ⟨_, rfl, by decide⟩

def cmdsize (hdr : Mem) (c : ℕ) : ℕ := read32 hdr (c + cmdsizeOff)

/-- `commandsStart + sizeofcmds`: the end of the load commands, `insertLoadCommand`'s
`shiftEnd`. -/
def commandsEnd (t : LinkeditTracker) (hdr : Mem) : ℕ :=
  t.commandsStart + read32 hdr (t.header + sizeofcmdsOff)

section Command

variable {t : LinkeditTracker} {pg : Pages} {after lc : ℕ}

theorem insertLoadCommand_of_not_fits (h : t.headerSpaceAvailable <
    u32 (read32 pg.hdr (t.header + sizeofcmdsOff) + cmdsize pg.hdr lc)) :
    t.insertLoadCommand pg after lc = (false, t, pg) := by
  simp only [LinkeditTracker.insertLoadCommand, cmdsize] at h ⊢
  rw [if_pos h]

theorem insertLoadCommand_of_fits (h : ¬ t.headerSpaceAvailable <
    u32 (read32 pg.hdr (t.header + sizeofcmdsOff) + cmdsize pg.hdr lc)) :
    (t.insertLoadCommand pg after lc).1 = true ∧
    (t.insertLoadCommand pg after lc).2.1.trackingData =
      t.trackingData.map (shiftOffset (after + cmdsize pg.hdr after) (cmdsize pg.hdr lc)) := by
  simp only [LinkeditTracker.insertLoadCommand, cmdsize] at h ⊢
  rw [if_neg h]
  exact ⟨rfl, rfl⟩

theorem insertLoadCommand_hdr (h : ¬ t.headerSpaceAvailable <
      u32 (read32 pg.hdr (t.header + sizeofcmdsOff) + cmdsize pg.hdr lc))
    (hh : t.header + sizeofcmdsOff + 4 ≤ t.commandsStart)
    (hS : t.commandsStart ≤ after + cmdsize pg.hdr after)
    (hSE : after + cmdsize pg.hdr after ≤ commandsEnd t pg.hdr)
    (hlc : Apart lc 8 (after + cmdsize pg.hdr after)
      (commandsEnd t pg.hdr + cmdsize pg.hdr lc - (after + cmdsize pg.hdr after)))
    (hlc' : Apart lc 8 (t.header + ncmdsOff) 8) :
    let S := after + cmdsize pg.hdr after
    let δ := cmdsize pg.hdr lc
    let hdr := (t.insertLoadCommand pg after lc).2.2.hdr
    (t.insertLoadCommand pg after lc).1 = true ∧
    (t.insertLoadCommand pg after lc).2.1 =
      { t with trackingData := t.trackingData.map (shiftOffset S δ) } ∧
    (∀ x, x < t.header + ncmdsOff ∨ t.header + sizeofcmdsOff + 4 ≤ x → x < S ∨ S + δ ≤ x →
      hdr x = if S + δ ≤ x ∧ x < commandsEnd t pg.hdr + δ then pg.hdr (x - δ) else pg.hdr x) ∧
    (∀ x, S ≤ x → x < S + δ → lc + (x - S) < S + δ ∨ commandsEnd t pg.hdr + δ ≤ lc + (x - S) →
      hdr x = pg.hdr (lc + (x - S))) ∧
    read32 hdr (t.header + ncmdsOff) = u32 (read32 pg.hdr (t.header + ncmdsOff) + 1) ∧
    read32 hdr (t.header + sizeofcmdsOff) =
      u32 (read32 pg.hdr (t.header + sizeofcmdsOff) + cmdsize pg.hdr lc) := by
  simp only [LinkeditTracker.insertLoadCommand, cmdsize, commandsEnd] at h hS hSE hlc ⊢
  rw [if_neg h]
  have c₁ : cmdsizeOff = 4 := rfl
  have c₂ : ncmdsOff = 16 := rfl
  have c₃ : sizeofcmdsOff = 20 := rfl
  unfold Apart at hlc hlc'
  generalize hδ : read32 pg.hdr (lc + cmdsizeOff) = δ at *
  generalize after + read32 pg.hdr (after + cmdsizeOff) = S at *
  generalize hn : read32 pg.hdr (t.header + sizeofcmdsOff) = n at *
  have k₁ : read32 (copy pg.hdr (S + δ) pg.hdr S (t.commandsStart + n - S)) (lc + cmdsizeOff) = δ := by
    rw [read32_copy_of_apart _ _ _ (by unfold Apart; omega), hδ]
  rw [k₁]
  generalize hH₁ : copy pg.hdr (S + δ) pg.hdr S (t.commandsStart + n - S) = H₁ at k₁
  have k₂ : ∀ x, x + 4 ≤ S → read32 (copy H₁ S H₁ lc δ) x = read32 pg.hdr x := fun x hx => by
    rw [read32_copy_of_apart _ _ _ (by unfold Apart; omega), ← hH₁,
      read32_copy_of_apart _ _ _ (by unfold Apart; omega)]
  refine ⟨rfl, rfl, fun x hx hx' => ?_, fun x h₁ h₂ h₃ => ?_, ?_, ?_⟩ <;> dsimp only
  · rw [write32, writeLE_of_apart _ _ _ _ (by omega), write32, writeLE_of_apart _ _ _ _ (by omega),
      copy_of_apart _ _ _ _ _ hx', ← hH₁]
    simp only [copy]
    split_ifs <;> first | rfl | omega | (congr 1; omega)
  · rw [write32, writeLE_of_apart _ _ _ _ (by omega), write32, writeLE_of_apart _ _ _ _ (by omega),
      show x = S + (x - S) by omega, copy_at _ _ _ _ _ (by omega), ← hH₁,
      copy_of_apart _ _ _ _ _ (by omega)]
    congr 1
    omega
  · rw [read32_write32_of_apart _ _ (by unfold Apart; omega), read32_write32_self,
      k₂ _ (by omega)]
  · rw [read32_write32_self, read32_write32_of_apart _ _ (by unfold Apart; omega),
      read32_write32_of_apart _ _ (by unfold Apart; omega), k₂ _ (by omega),
      read32_copy_of_apart _ _ _ (by unfold Apart; omega), k₁, hn]

end Command

/-- `insertLoadCommand(after, lc)` as it behaves when `sizeofcmds + cmdsize` stays below
2^32: it succeeds exactly when the commands grown by `lc` fit in the header space; a failure
changes nothing; a success moves every field past the end `S` of `after` by `δ`, counts
`lc` in `ncmds` and `sizeofcmds`, leaves the commands up to `S`, then the bytes of `lc`, then
the commands past `S`, and writes no byte past the header space. -/
def CommandInserted (t : LinkeditTracker) (pg : Pages) (after lc : ℕ) : Prop :=
  let r := t.insertLoadCommand pg after lc
  let S := after + cmdsize pg.hdr after
  let δ := cmdsize pg.hdr lc
  (r.1 = true ↔ read32 pg.hdr (t.header + sizeofcmdsOff) + δ ≤ t.headerSpaceAvailable) ∧
    (r.1 = false → r.2 = (t, pg)) ∧
    (r.1 = true →
      r.2.1 = { t with trackingData := t.trackingData.map (shiftOffset S δ) } ∧
      read32 r.2.2.hdr (t.header + ncmdsOff) = u32 (read32 pg.hdr (t.header + ncmdsOff) + 1) ∧
      read32 r.2.2.hdr (t.header + sizeofcmdsOff) = read32 pg.hdr (t.header + sizeofcmdsOff) + δ ∧
      (∀ x, x < t.header + ncmdsOff ∨ t.header + sizeofcmdsOff + 4 ≤ x →
        r.2.2.hdr x = insertedByte pg.hdr pg.hdr S (commandsEnd t pg.hdr) δ lc δ x) ∧
      (∀ x, t.commandsStart + t.headerSpaceAvailable ≤ x → r.2.2.hdr x = pg.hdr x))

theorem insert_load_command_spec {t : LinkeditTracker} {pg : Pages} {after lc : ℕ}
    (hh : t.header + sizeofcmdsOff + 4 ≤ t.commandsStart)
    (hS : t.commandsStart ≤ after + cmdsize pg.hdr after)
    (hSE : after + cmdsize pg.hdr after ≤ commandsEnd t pg.hdr) (h8 : 8 ≤ cmdsize pg.hdr lc)
    (hlc : Apart lc (cmdsize pg.hdr lc) (after + cmdsize pg.hdr after)
      (commandsEnd t pg.hdr + cmdsize pg.hdr lc - (after + cmdsize pg.hdr after)))
    (hlc' : Apart lc 8 (t.header + ncmdsOff) 8)
    (hsum : read32 pg.hdr (t.header + sizeofcmdsOff) + cmdsize pg.hdr lc < 2 ^ 32) :
    CommandInserted t pg after lc := by
  have hu := u32_of_lt hsum
  have hE : commandsEnd t pg.hdr = t.commandsStart + read32 pg.hdr (t.header + sizeofcmdsOff) := rfl
  have hlc₈ : Apart lc 8 (after + cmdsize pg.hdr after)
      (commandsEnd t pg.hdr + cmdsize pg.hdr lc - (after + cmdsize pg.hdr after)) := by
    unfold Apart at hlc ⊢
    omega
  refine ⟨⟨fun h => ?_, fun h => (insertLoadCommand_hdr (by rw [hu]; omega) hh hS hSE hlc₈ hlc').1⟩,
    fun h => ?_, fun h => ?_⟩
  · by_contra hn
    rw [insertLoadCommand_of_not_fits (by rw [hu]; omega)] at h
    cases h
  · by_cases hfit : t.headerSpaceAvailable <
        u32 (read32 pg.hdr (t.header + sizeofcmdsOff) + cmdsize pg.hdr lc)
    · rw [insertLoadCommand_of_not_fits hfit]
    · rw [(insertLoadCommand_hdr hfit hh hS hSE hlc₈ hlc').1] at h
      cases h
  · have hfit : ¬ t.headerSpaceAvailable <
        u32 (read32 pg.hdr (t.header + sizeofcmdsOff) + cmdsize pg.hdr lc) := fun hn => by
      rw [insertLoadCommand_of_not_fits hn] at h
      cases h
    obtain ⟨-, h₂, hout, hgap, hn, hs⟩ := insertLoadCommand_hdr hfit hh hS hSE hlc₈ hlc'
    rw [hu] at hfit hs
    unfold Apart at hlc
    have hbytes : ∀ x, x < t.header + ncmdsOff ∨ t.header + sizeofcmdsOff + 4 ≤ x →
        (t.insertLoadCommand pg after lc).2.2.hdr x = insertedByte pg.hdr pg.hdr
          (after + cmdsize pg.hdr after) (commandsEnd t pg.hdr) (cmdsize pg.hdr lc) lc
          (cmdsize pg.hdr lc) x := fun x hx => by
      by_cases hg : after + cmdsize pg.hdr after ≤ x ∧
          x < after + cmdsize pg.hdr after + cmdsize pg.hdr lc
      · rw [hgap x hg.1 hg.2 (by omega), insertedByte_of_payload _ _ _ _ _ hg.1 hg.2]
      · rw [hout x hx (by omega), insertedByte_of_not_gap _ _ _ le_rfl (by omega)]
    refine ⟨h₂, hn, hs, hbytes, fun x hx => ?_⟩
    rw [hbytes x (.inr (by omega)), insertedByte_of_not_gap _ _ _ le_rfl (by omega), if_neg (by omega)]

def twoCommandsTracker : LinkeditTracker := ⟨0, 32, 0x100, 0x1000, 0x1010, [⟨52, 0x1000, 8⟩]⟩

def twoCommandsPages : Pages :=
  ⟨writeLog (fun _ => 0) [(ncmdsOff, 2), (sizeofcmdsOff, 32), (32 + cmdsizeOff, 16),
    (48 + cmdsizeOff, 16), (0x80, 0x26), (0x80 + cmdsizeOff, 8)], fun _ => 0⟩

theorem insert_load_command_spec_two :
    CommandInserted twoCommandsTracker twoCommandsPages 32 0x80 :=
  insert_load_command_spec (by decide) (by decide) (by decide) (by decide) (by decide)
    (by decide) (by decide)

def wrapTracker : LinkeditTracker := ⟨0, 32, 0x100, 0x1000, 0x1010, []⟩

def wrapPages : Pages :=
  ⟨writeLog (fun _ => 0) [(ncmdsOff, 1), (sizeofcmdsOff, 32), (32 + cmdsizeOff, 32),
    (0x200 + cmdsizeOff, 2 ^ 32 - 16), (0x2e0, 1)], fun _ => 0⟩

/-- The check's sum wraps to 16: the command is inserted although the commands would not fit
in the header space, and the copy of `lc` writes the byte at
`commandsStart + headerSpaceAvailable`. -/
theorem wrapped_command_overflows :
    wrapTracker.headerSpaceAvailable <
      read32 wrapPages.hdr sizeofcmdsOff + cmdsize wrapPages.hdr 0x200 ∧
    (wrapTracker.insertLoadCommand wrapPages 32 0x200).1 = true ∧
    (wrapTracker.insertLoadCommand wrapPages 32 0x200).2.2.hdr
      (wrapTracker.commandsStart + wrapTracker.headerSpaceAvailable) ≠
      wrapPages.hdr (wrapTracker.commandsStart + wrapTracker.headerSpaceAvailable) := by
  decide

end DyldLinkedit.Insertion
