import DyldLinkedit.Insertion

/-!
# The tracker's invariant

`LinkeditTracker` keeps the LINKEDIT regions and the load-command fields that name them in
lock-step through three calls. `trackData` files a region; `insertLinkeditData` opens a gap
after a region, moves the bytes and the regions past it, and adds the fields of the moved
regions the gap's size; `insertLoadCommand` opens a gap after a load command and moves the
commands, and with them the fields, past it.

The capacity check of `insertLinkeditData` measures the registry by the end of its last
entry. That is the furthest end only when no entry ends past the last one, which sorting and
disjointness alone do not give: a region of size 0 filed after a non-empty region with the
same data pointer is last and ends first. The invariant here adds that condition (`Packed`)
and makes the offset fields non-overlapping words (`FieldsIn`); each call that meets its
precondition (`Op.Ready`) keeps both, and leaves every tracked region's field holding, modulo
2^32, the same file offset relative to the region's data. It also leaves the region's bytes
where it moves the region, unless an inserted payload is so large that the gap's size wraps.
-/

set_option autoImplicit false

namespace DyldLinkedit.TrackerInvariant
open DyldLinkedit.Memory DyldLinkedit.MachO DyldLinkedit.Tracker DyldLinkedit.Registry
  DyldLinkedit.Insertion

def FieldFree (t : LinkeditTracker) (hdr : Mem) (o : ℕ) : Prop :=
  t.commandsStart ≤ o ∧ o + 4 ≤ commandsEnd t hdr ∧ ∀ d ∈ t.trackingData, Apart d.offset 4 o 4

instance (t : LinkeditTracker) (hdr : Mem) (o : ℕ) : Decidable (FieldFree t hdr o) :=
  inferInstanceAs (Decidable (_ ∧ _ ∧ _))

/-- The offset fields: non-overlapping words inside the load commands, which begin past the
mach header's `sizeofcmds`. -/
@[mk_iff] structure FieldsIn (t : LinkeditTracker) (hdr : Mem) : Prop where
  disjoint : t.trackingData.Pairwise fun a b => Apart a.offset 4 b.offset 4
  within : ∀ d ∈ t.trackingData, t.commandsStart ≤ d.offset ∧ d.offset + 4 ≤ commandsEnd t hdr
  header : t.header + sizeofcmdsOff + 4 ≤ t.commandsStart

instance (t : LinkeditTracker) (hdr : Mem) : Decidable (FieldsIn t hdr) :=
  decidable_of_iff _ (fieldsIn_iff t hdr).symm

/-- The tracker's invariant: a packed registry whose fields are words of the load commands. -/
@[mk_iff] structure Inv (t : LinkeditTracker) (hdr : Mem) extends Packed t, FieldsIn t hdr : Prop

instance (t : LinkeditTracker) (hdr : Mem) : Decidable (Inv t hdr) :=
  decidable_of_iff _ (inv_iff t hdr).symm

def fieldValue (ls : ℕ) (hdr : Mem) (d : LinkeditData) : ℤ := read32 hdr d.offset - (d.data - ls : ℕ)

def SameValue (ls : ℕ) (hdr hdr' : Mem) (d d' : LinkeditData) : Prop :=
  fieldValue ls hdr d ≡ fieldValue ls hdr' d' [ZMOD 2 ^ 32]

/-- Every region tracked in `t` is carried by `f` to a region tracked in `t'` whose field says
the same. -/
def Carried (t : LinkeditTracker) (hdr : Mem) (t' : LinkeditTracker) (hdr' : Mem)
    (f : LinkeditData → LinkeditData) : Prop :=
  ∀ d ∈ t.trackingData, f d ∈ t'.trackingData ∧ SameValue t.linkeditStart hdr hdr' d (f d)

theorem sameValue_of_shift {ls δ : ℕ} {hdr hdr' : Mem} {d d' : LinkeditData} (hls : ls ≤ d.data)
    (hd : d'.data = d.data + δ) (hv : read32 hdr' d'.offset = u32 (read32 hdr d.offset + δ)) :
    SameValue ls hdr hdr' d d' := by
  unfold SameValue fieldValue Int.ModEq
  rw [hv, hd, u32]
  omega

theorem sameValue_of_eq {ls : ℕ} {hdr hdr' : Mem} {d d' : LinkeditData} (hd : d'.data = d.data)
    (hv : read32 hdr' d'.offset = read32 hdr d.offset) : SameValue ls hdr hdr' d d' := by
  unfold SameValue fieldValue
  rw [hv, hd]

theorem Carried.refl (t : LinkeditTracker) (hdr : Mem) : Carried t hdr t hdr id :=
  fun _ hd => ⟨hd, Int.ModEq.refl _⟩

theorem Carried.trans {t₁ t₂ t₃ : LinkeditTracker} {h₁ h₂ h₃ : Mem} {f g : LinkeditData → LinkeditData}
    (hf : Carried t₁ h₁ t₂ h₂ f) (hg : Carried t₂ h₂ t₃ h₃ g)
    (hls : t₂.linkeditStart = t₁.linkeditStart) : Carried t₁ h₁ t₃ h₃ (g ∘ f) := fun d hd =>
  have h := hg (f d) (hf d hd).1
  ⟨h.1, (hf d hd).2.trans (hls ▸ h.2)⟩

/-- What `trackData(r)` needs: `r` on the grid inside LINKEDIT and apart from every region,
ending by the registry's end or lying past every region, its field a free word of the load
commands. -/
@[mk_iff] structure TrackReady (t : LinkeditTracker) (hdr : Mem) (r : LinkeditData) : Prop where
  aligned : t.linkeditStart ≤ r.data ∧ (r.data - t.linkeditStart) % 8 = 0 ∧ r.dataSize % 8 = 0
  apart : ∀ d ∈ t.trackingData, Apart d.data d.dataSize r.data r.dataSize
  last : (∀ d ∈ t.trackingData, d.data < r.data) ∧ r.dataEnd ≤ t.linkeditEnd ∨
    r.dataEnd ≤ t.lastDataEnd
  field : FieldFree t hdr r.offset

instance (t : LinkeditTracker) (hdr : Mem) (r : LinkeditData) : Decidable (TrackReady t hdr r) :=
  decidable_of_iff _ (trackReady_iff t hdr r).symm

theorem lastDataEnd_trackData {t : LinkeditTracker}
    (hs : t.trackingData.Pairwise fun a b => a.data ≤ b.data) (r : LinkeditData) :
    (∀ d ∈ t.trackingData, d.data < r.data) ∧ (t.trackData r).lastDataEnd = r.dataEnd ∨
      (∃ d ∈ t.trackingData, r.data ≤ d.data) ∧ (t.trackData r).lastDataEnd = t.lastDataEnd := by
  by_cases h : ∀ d ∈ t.trackingData, d.data < r.data
  · refine .inl ⟨h, lastDataEnd_of_getLast? (t := t.trackData r) ?_⟩
    rw [LinkeditTracker.trackData, insertByData_of_lt h]
    exact List.getLast?_concat _
  · push_neg at h
    obtain ⟨d, hd, hle⟩ := h
    obtain ⟨y, hy⟩ := Option.ne_none_iff_exists'.mp
      fun h' => List.not_mem_nil d (List.getLast?_eq_none_iff.mp h' ▸ hd)
    refine .inr ⟨⟨d, hd, hle⟩, ?_⟩
    rw [lastDataEnd_of_getLast? hy, lastDataEnd_of_getLast? (t := t.trackData r)
      (getLast?_insertByData hy (hle.trans (le_of_getLast? hs hy d hd)))]

theorem packed_trackData {t : LinkeditTracker} {hdr : Mem} {r : LinkeditData} (hP : Packed t)
    (hR : TrackReady t hdr r) : Packed (t.trackData r) := by
  obtain ⟨hsorted, hapart, haligned, hends, hlast⟩ := hP
  have hsep : ∀ d ∈ t.trackingData, d.data < r.data → d.dataEnd ≤ r.data := fun d hd hlt => by
    have := hR.apart d hd
    unfold Apart at this
    unfold LinkeditData.dataEnd
    omega
  have hE : (∀ d ∈ insertByData r t.trackingData, d.dataEnd ≤ (t.trackData r).lastDataEnd) ∧
      (t.trackData r).lastDataEnd ≤ t.linkeditEnd := by
    rcases lastDataEnd_trackData hsorted r with ⟨hlt, he⟩ | ⟨⟨d, hd, hle⟩, he⟩ <;> rw [he]
    · -- `r` is filed last
      refine ⟨fun d hd => ?_, hR.last.elim (·.2) (·.trans hlast)⟩
      rcases mem_insertByData.mp hd with rfl | hd
      · exact le_rfl
      · exact (hsep d hd (hlt d hd)).trans (Nat.le_add_right _ _)
    · -- the last entry stays
      refine ⟨fun e he' => ?_, hlast⟩
      rcases mem_insertByData.mp he' with rfl | he'
      · exact hR.last.resolve_left fun h => absurd (h.1 d hd) (Nat.not_lt_of_le hle)
      · exact hends e he'
  refine ⟨insertByData_sorted r hsorted, ((insertByData_perm _ _).pairwise_iff fun h => Or.symm h).mpr
    (.cons (fun d hd => Or.symm (hR.apart d hd)) hapart), fun d hd => ?_, hE.1, hE.2⟩
  rcases mem_insertByData.mp hd with rfl | hd
  exacts [hR.aligned, haligned d hd]

theorem fieldsIn_trackData {t : LinkeditTracker} {hdr : Mem} {r : LinkeditData} (hF : FieldsIn t hdr)
    (hR : TrackReady t hdr r) : FieldsIn (t.trackData r) hdr := by
  refine ⟨((insertByData_perm _ _).pairwise_iff fun h => Or.symm h).mpr
    (.cons (fun d hd => Or.symm (hR.field.2.2 d hd)) hF.disjoint), fun d hd => ?_, hF.header⟩
  rcases mem_insertByData.mp hd with rfl | hd
  exacts [⟨hR.field.1, hR.field.2.1⟩, hF.within d hd]

theorem inv_trackData {t : LinkeditTracker} {hdr : Mem} {r : LinkeditData} (hI : Inv t hdr)
    (hR : TrackReady t hdr r) : Inv (t.trackData r) hdr ∧ Carried t hdr (t.trackData r) hdr id :=
  ⟨⟨packed_trackData hI.toPacked hR, fieldsIn_trackData hI.toFieldsIn hR⟩,
    fun _ hd => ⟨mem_insertByData.mpr (.inr hd), Int.ModEq.refl _⟩⟩

section InsertLinkeditData

variable {t : LinkeditTracker} {pg : Pages} {after : Option LinkeditData} {data : LinkeditData}
  {src : Mem}

theorem commandsEnd_shiftTracked (hF : FieldsIn t pg.hdr) (S δ : ℕ) :
    commandsEnd t (shiftTracked S δ pg.hdr t.trackingData).1 = commandsEnd t pg.hdr := by
  unfold commandsEnd read32
  rw [readLE_shiftTracked_of_apart S δ fun d hd => .inr (hF.header.trans (hF.within d hd).1)]

theorem inv_insertLinkeditData (hI : Inv t pg.hdr) (ha : ∀ a ∈ after, a ∈ t.trackingData)
    (hfree : FieldFree t pg.hdr data.offset)
    (hfit : t.lastDataEnd + insertDelta data ≤ t.linkeditEnd) :
    let r := t.insertLinkeditData pg after data src
    Inv r.2.1 r.2.2.hdr ∧
      Carried t pg.hdr r.2.1 r.2.2.hdr (shiftData (insertStart t after) (insertDelta data)) := by
  obtain ⟨-, h₂, h₃, -⟩ := @insertLinkeditData_of_fits _ pg _ _ src hfit
  have hE := commandsEnd_shiftTracked hI.toFieldsIn (insertStart t after) (insertDelta data)
  intro r
  rw [show r.2.1 = _ from h₂, show r.2.2.hdr = _ from h₃]
  refine ⟨⟨hI.toPacked.insert ha data hfit, ⟨?_, fun d hd => ?_, hI.header⟩⟩, fun d hd => ⟨?_, ?_⟩⟩
  · refine ((insertByData_perm _ _).pairwise_iff fun h => Or.symm h).mpr (.cons (fun y hy => ?_)
      (List.pairwise_map.mpr (hI.disjoint.imp fun h => by simpa only [shiftData_offset] using h)))
    obtain ⟨x, hx, rfl⟩ := List.mem_map.mp hy
    simpa only [shiftData_offset] using Or.symm (hfree.2.2 x hx)
  · show _ ≤ _ ∧ _ ≤ commandsEnd t _
    rw [hE]
    rcases mem_insertByData.mp hd with rfl | hd
    · exact ⟨hfree.1, hfree.2.1⟩
    · obtain ⟨x, hx, rfl⟩ := List.mem_map.mp hd
      simpa only [shiftData_offset] using hI.within x hx
  · exact mem_insertByData.mpr (.inr (List.mem_map_of_mem _ hd))
  · have hls := (hI.aligned d hd).1
    have hv := read32_shiftTracked (insertStart t after) (insertDelta data) hI.disjoint hd pg.hdr
    by_cases hS : insertStart t after ≤ d.data
    · rw [if_pos hS] at hv
      exact sameValue_of_shift hls (by rw [shiftData_data, if_pos hS]) (by rwa [shiftData_offset])
    · rw [if_neg hS] at hv
      exact sameValue_of_eq (by rw [shiftData_data, if_neg hS]) (by rwa [shiftData_offset])

end InsertLinkeditData

theorem packed_map {t : LinkeditTracker} (hP : Packed t) (f : LinkeditData → LinkeditData)
    (hf : ∀ d, (f d).data = d.data ∧ (f d).dataSize = d.dataSize) :
    Packed { t with trackingData := t.trackingData.map f } := by
  have hE : ({ t with trackingData := t.trackingData.map f } : LinkeditTracker).lastDataEnd =
      t.lastDataEnd := by
    unfold LinkeditTracker.lastDataEnd
    rw [List.getLast?_map]
    cases t.trackingData.getLast? <;> simp [LinkeditData.dataEnd, hf]
  refine ⟨List.pairwise_map.mpr (hP.sorted.imp fun h => by simpa only [hf] using h),
    List.pairwise_map.mpr (hP.apart.imp fun h => by simpa only [hf] using h), ?_, ?_, hE ▸ hP.last⟩
  all_goals
    intro _ hd
    obtain ⟨d, hd', rfl⟩ := List.mem_map.mp hd
  · simpa only [hf] using hP.aligned d hd'
  · simpa only [hE, LinkeditData.dataEnd, hf] using hP.ends d hd'

/-- What `insertLoadCommand(after, lc)` needs: the end `S` of `after` inside the load commands
with no field across it, `sizeofcmds` grown by `lc` still a `uint32_t`, and `lc`'s `cmd` and
`cmdsize` outside the bytes the call moves and the header's counts. -/
@[mk_iff] structure CommandReady (t : LinkeditTracker) (hdr : Mem) (after lc : ℕ) : Prop where
  start : t.commandsStart ≤ after + cmdsize hdr after
  before : after + cmdsize hdr after ≤ commandsEnd t hdr
  fields : ∀ d ∈ t.trackingData,
    d.offset + 4 ≤ after + cmdsize hdr after ∨ after + cmdsize hdr after ≤ d.offset
  fits : read32 hdr (t.header + sizeofcmdsOff) + cmdsize hdr lc < 2 ^ 32
  lc_apart : Apart lc 8 (after + cmdsize hdr after)
    (commandsEnd t hdr + cmdsize hdr lc - (after + cmdsize hdr after))
  lc_counts : Apart lc 8 (t.header + ncmdsOff) 8

instance (t : LinkeditTracker) (hdr : Mem) (after lc : ℕ) : Decidable (CommandReady t hdr after lc) :=
  decidable_of_iff _ (commandReady_iff t hdr after lc).symm

theorem inv_insertLoadCommand {t : LinkeditTracker} {pg : Pages} {after lc : ℕ} (hI : Inv t pg.hdr)
    (hR : CommandReady t pg.hdr after lc)
    (h : ¬ t.headerSpaceAvailable < u32 (read32 pg.hdr (t.header + sizeofcmdsOff) + cmdsize pg.hdr lc)) :
    let r := t.insertLoadCommand pg after lc
    Inv r.2.1 r.2.2.hdr ∧ Carried t pg.hdr r.2.1 r.2.2.hdr
      (shiftOffset (after + cmdsize pg.hdr after) (cmdsize pg.hdr lc)) := by
  obtain ⟨-, h₂, hout, -, -, hs⟩ :=
    insertLoadCommand_hdr h hI.header hR.start hR.before hR.lc_apart hR.lc_counts
  intro r
  rw [show r.2.1 = _ from h₂]
  have hfits := hR.fits
  have hfields := hR.fields
  have hwithin := hI.within
  generalize after + cmdsize pg.hdr after = S at hout hfields hR ⊢
  generalize cmdsize pg.hdr lc = δ at hout hs hfits ⊢
  generalize r.2.2.hdr = H at hout hs ⊢
  have hE : commandsEnd { t with trackingData := t.trackingData.map (shiftOffset S δ) } H =
      commandsEnd t pg.hdr + δ := by
    simp only [commandsEnd] at hs ⊢
    rw [hs, u32_of_lt hfits, Nat.add_assoc]
  have hread : ∀ d ∈ t.trackingData, read32 H (shiftOffset S δ d).offset = read32 pg.hdr d.offset := by
    intro d hd
    have hw := hwithin d hd
    have hcs := hI.header
    rw [shiftOffset_offset]
    split_ifs with hS
    · refine readLE_congr 4 fun i hi => ?_
      rw [hout _ (.inr (by omega)) (.inr (by omega)), if_pos ⟨by omega, by simp only [commandsEnd] at hw ⊢; omega⟩]
      congr 1
      omega
    · refine read32_congr fun i hi => ?_
      have := (hfields d hd).resolve_right hS
      rw [hout _ (.inr (by omega)) (.inl (by omega)), if_neg (by omega)]
  refine ⟨⟨packed_map hI.toPacked _ fun d => ⟨shiftOffset_data S δ d, shiftOffset_dataSize S δ d⟩,
    ⟨?_, fun d hd => ?_, hI.header⟩⟩, fun d hd => ⟨List.mem_map_of_mem _ hd,
      sameValue_of_eq (shiftOffset_data S δ d) (hread d hd)⟩⟩
  · refine List.pairwise_map.mpr (hI.disjoint.imp_of_mem fun {a b} ha hb hab => ?_)
    have := hfields a ha
    have := hfields b hb
    simp only [Apart, shiftOffset_offset] at hab ⊢
    split_ifs <;> omega
  · obtain ⟨x, hx, rfl⟩ := List.mem_map.mp hd
    have := hwithin x hx
    have := hfields x hx
    rw [hE, shiftOffset_offset]
    dsimp only
    split_ifs <;> omega

inductive Op where
  | trackData (d : LinkeditData)
  | insertLinkeditData (after : Option LinkeditData) (data : LinkeditData) (src : Mem)
  | insertLoadCommand (after lc : ℕ)

namespace Op

def call (t : LinkeditTracker) (pg : Pages) : Op → LinkeditTracker × Pages
  | trackData d => (t.trackData d, pg)
  | insertLinkeditData after data src => (t.insertLinkeditData pg after data src).2
  | insertLoadCommand after lc => (t.insertLoadCommand pg after lc).2

def move (t : LinkeditTracker) (pg : Pages) : Op → LinkeditData → LinkeditData
  | trackData _ => id
  | insertLinkeditData after data src =>
    if (t.insertLinkeditData pg after data src).1 then
      shiftData (insertStart t after) (insertDelta data) else id
  | insertLoadCommand after lc =>
    if (t.insertLoadCommand pg after lc).1 then
      shiftOffset (after + cmdsize pg.hdr after) (cmdsize pg.hdr lc) else id

def Ready (t : LinkeditTracker) (pg : Pages) : Op → Prop
  | trackData d => TrackReady t pg.hdr d
  | insertLinkeditData after data _ =>
    (∀ a ∈ after, a ∈ t.trackingData) ∧ FieldFree t pg.hdr data.offset
  | insertLoadCommand after lc => CommandReady t pg.hdr after lc

instance (t : LinkeditTracker) (pg : Pages) : (op : Op) → Decidable (op.Ready t pg)
  | trackData d => inferInstanceAs (Decidable (TrackReady t pg.hdr d))
  | insertLinkeditData _ _ _ => inferInstanceAs (Decidable (_ ∧ _))
  | insertLoadCommand after lc => inferInstanceAs (Decidable (CommandReady t pg.hdr after lc))

/-- A ready call keeps the invariant and carries every region with its field. A call that
finds no room changes nothing. -/
theorem step {t : LinkeditTracker} {pg : Pages} (hI : Inv t pg.hdr) (op : Op) (hR : op.Ready t pg) :
    Inv (op.call t pg).1 (op.call t pg).2.hdr ∧
      Carried t pg.hdr (op.call t pg).1 (op.call t pg).2.hdr (op.move t pg) ∧
      (op.call t pg).1.linkeditStart = t.linkeditStart := by
  cases op with
  | trackData d => exact ⟨(inv_trackData hI hR).1, (inv_trackData hI hR).2, rfl⟩
  | insertLinkeditData after data src =>
    by_cases hfit : t.lastDataEnd + insertDelta data ≤ t.linkeditEnd
    · obtain ⟨h₁, h₂, -⟩ := @insertLinkeditData_of_fits _ pg after data src hfit
      obtain ⟨hI', hC⟩ := @inv_insertLinkeditData _ _ _ _ src hI hR.1 hR.2 hfit
      simp only [call, move, h₁, if_true]
      exact ⟨hI', hC, by rw [h₂]⟩
    · simp only [call, move, insertLinkeditData_of_not_fits hfit, Bool.false_eq_true, if_false]
      exact ⟨hI, Carried.refl _ _, trivial⟩
  | insertLoadCommand after lc =>
    by_cases hfit : t.headerSpaceAvailable <
        u32 (read32 pg.hdr (t.header + sizeofcmdsOff) + cmdsize pg.hdr lc)
    · simp only [call, move, insertLoadCommand_of_not_fits hfit, Bool.false_eq_true, if_false]
      exact ⟨hI, Carried.refl _ _, trivial⟩
    · have h₁ := (insertLoadCommand_hdr hfit hI.header hR.start hR.before hR.lc_apart
        hR.lc_counts).1
      obtain ⟨hI', hC⟩ := inv_insertLoadCommand hI hR hfit
      simp only [call, move, h₁, if_true]
      exact ⟨hI', hC, by rw [(insertLoadCommand_hdr hfit hI.header hR.start hR.before hR.lc_apart
        hR.lc_counts).2.1]⟩

end Op

def run : List Op → LinkeditTracker → Pages → LinkeditTracker × Pages
  | [], t, pg => (t, pg)
  | op :: ops, t, pg => run ops (op.call t pg).1 (op.call t pg).2

def follow : List Op → LinkeditTracker → Pages → LinkeditData → LinkeditData
  | [], _, _ => id
  | op :: ops, t, pg => follow ops (op.call t pg).1 (op.call t pg).2 ∘ op.move t pg

def Safe : List Op → LinkeditTracker → Pages → Prop
  | [], _, _ => True
  | op :: ops, t, pg => op.Ready t pg ∧ Safe ops (op.call t pg).1 (op.call t pg).2

instance decSafe : (ops : List Op) → (t : LinkeditTracker) → (pg : Pages) → Decidable (Safe ops t pg)
  | [], _, _ => isTrue trivial
  | op :: ops, t, pg =>
    haveI := decSafe ops (op.call t pg).1 (op.call t pg).2
    inferInstanceAs (Decidable (_ ∧ _))

/-- The invariant holds after any sequence of ready calls, and every region tracked at the
start is still tracked, where the calls moved it, with a field saying the same modulo 2^32. -/
theorem tracker_invariant_preserved {ops : List Op} {t : LinkeditTracker} {pg : Pages}
    (hI : Inv t pg.hdr) (hS : Safe ops t pg) :
    Inv (run ops t pg).1 (run ops t pg).2.hdr ∧
      Carried t pg.hdr (run ops t pg).1 (run ops t pg).2.hdr (follow ops t pg) := by
  induction ops generalizing t pg with
  | nil => exact ⟨hI, Carried.refl _ _⟩
  | cons op ops ih =>
    obtain ⟨hI', hC, hls⟩ := Op.step hI op hS.1
    obtain ⟨hI'', hC'⟩ := ih hI' hS.2
    exact ⟨hI'', hC.trans hC' hls⟩

def pairTracker : LinkeditTracker :=
  ⟨0, 32, 0x100, 0x1000, 0x1040, [⟨40, 0x1000, 8⟩, ⟨48, 0x1008, 16⟩]⟩

def pairPages : Pages :=
  ⟨writeLog (fun _ => 0) [(sizeofcmdsOff, 32), (32 + cmdsizeOff, 16), (0x80 + cmdsizeOff, 8)],
    fun _ => 0⟩

def pairOps : List Op :=
  [.trackData ⟨52, 0x1018, 8⟩, .insertLinkeditData (some ⟨40, 0x1000, 8⟩) ⟨56, 0, 8⟩ fun _ => 0,
    .insertLoadCommand 32 0x80]

theorem tracker_invariant_preserved_pair :
    Inv (run pairOps pairTracker pairPages).1 (run pairOps pairTracker pairPages).2.hdr ∧
      Carried pairTracker pairPages.hdr (run pairOps pairTracker pairPages).1
        (run pairOps pairTracker pairPages).2.hdr (follow pairOps pairTracker pairPages) :=
  tracker_invariant_preserved (by decide) (by decide)

def HeaderRoom (t : LinkeditTracker) (hdr : Mem) : Prop :=
  commandsEnd t hdr ≤ t.commandsStart + t.headerSpaceAvailable

instance (t : LinkeditTracker) (hdr : Mem) : Decidable (HeaderRoom t hdr) :=
  inferInstanceAs (Decidable (_ ≤ _))

theorem Op.call_bounds (t : LinkeditTracker) (pg : Pages) (op : Op) :
    (op.call t pg).1.header = t.header ∧ (op.call t pg).1.commandsStart = t.commandsStart ∧
      (op.call t pg).1.headerSpaceAvailable = t.headerSpaceAvailable := by
  cases op with
  | trackData d => exact ⟨rfl, rfl, rfl⟩
  | insertLinkeditData after data src =>
    dsimp only [Op.call, LinkeditTracker.insertLinkeditData]
    split <;> simp
  | insertLoadCommand after lc =>
    dsimp only [Op.call, LinkeditTracker.insertLoadCommand]
    split <;> simp

theorem Op.step_room {t : LinkeditTracker} {pg : Pages} (hI : Inv t pg.hdr) (op : Op)
    (hR : op.Ready t pg) (hroom : HeaderRoom t pg.hdr) :
    HeaderRoom (op.call t pg).1 (op.call t pg).2.hdr ∧
      ∀ x, t.commandsStart + t.headerSpaceAvailable ≤ x → (op.call t pg).2.hdr x = pg.hdr x := by
  obtain ⟨-, e₂, e₃⟩ := Op.call_bounds t pg op
  unfold HeaderRoom at hroom ⊢
  rw [e₂, e₃]
  cases op with
  | trackData d => exact ⟨hroom, fun _ _ => rfl⟩
  | insertLinkeditData after data src =>
    by_cases hfit : t.lastDataEnd + insertDelta data ≤ t.linkeditEnd
    · obtain ⟨-, ht, hh, -⟩ := @insertLinkeditData_of_fits t pg after data src hfit
      simp only [Op.call, hh]
      refine ⟨?_, fun x hx => shiftTracked_of_apart _ _ fun d hd _ => ?_⟩
      · rw [ht]
        exact (commandsEnd_shiftTracked hI.toFieldsIn _ _).trans_le hroom
      · have := (hI.within d hd).2
        exact .inr (by omega)
    · simpa only [Op.call, insertLinkeditData_of_not_fits hfit, implies_true, and_true] using hroom
  | insertLoadCommand after lc =>
    by_cases hfit : t.headerSpaceAvailable <
        u32 (read32 pg.hdr (t.header + sizeofcmdsOff) + cmdsize pg.hdr lc)
    · simpa only [Op.call, insertLoadCommand_of_not_fits hfit, implies_true, and_true] using hroom
    · obtain ⟨-, ht, hout, -, -, hsize⟩ :=
        insertLoadCommand_hdr hfit hI.header hR.start hR.before hR.lc_apart hR.lc_counts
      have hδ := hR.fits
      rw [u32_of_lt hδ] at hfit hsize
      have hS := hR.before
      have hh := hI.header
      unfold commandsEnd at hroom hS ⊢
      simp only [Op.call, ht]
      refine ⟨by rw [hsize]; omega, fun x hx => ?_⟩
      rw [hout x (.inr (by omega)) (.inr (by omega)), if_neg (by unfold commandsEnd; omega)]

/-- From a state whose load commands fit in the header space, a sequence of ready calls keeps
them there and writes no byte past it: `__TEXT,__text` and what follows are never touched. -/
theorem header_space_kept {ops : List Op} {t : LinkeditTracker} {pg : Pages}
    (hI : Inv t pg.hdr) (hroom : HeaderRoom t pg.hdr) (hS : Safe ops t pg) :
    HeaderRoom (run ops t pg).1 (run ops t pg).2.hdr ∧
      ∀ x, t.commandsStart + t.headerSpaceAvailable ≤ x → (run ops t pg).2.hdr x = pg.hdr x := by
  induction ops generalizing t pg with
  | nil => exact ⟨hroom, fun _ _ => rfl⟩
  | cons op ops ih =>
    obtain ⟨hI', -, -⟩ := Op.step hI op hS.1
    obtain ⟨hroom', hx⟩ := Op.step_room hI op hS.1 hroom
    obtain ⟨-, e₂, e₃⟩ := Op.call_bounds t pg op
    obtain ⟨hroom'', hx'⟩ := ih hI' hroom' hS.2
    refine ⟨hroom'', fun x h => ?_⟩
    rw [run, hx' x (by rw [e₂, e₃]; exact h), hx x h]

theorem header_space_kept_pair :
    Inv pairTracker pairPages.hdr ∧ HeaderRoom pairTracker pairPages.hdr ∧
      Safe pairOps pairTracker pairPages ∧
      HeaderRoom (run pairOps pairTracker pairPages).1 (run pairOps pairTracker pairPages).2.hdr ∧
      ∀ x, pairTracker.commandsStart + pairTracker.headerSpaceAvailable ≤ x →
        (run pairOps pairTracker pairPages).2.hdr x = pairPages.hdr x :=
  have hI : Inv pairTracker pairPages.hdr := by decide
  have hroom : HeaderRoom pairTracker pairPages.hdr := by decide
  have hS : Safe pairOps pairTracker pairPages := by decide
  ⟨hI, hroom, hS, header_space_kept hI hroom hS⟩

/-- The call's payload, if it has one, is short enough that its gap does not wrap. -/
def Op.Small : Op → Prop
  | .insertLinkeditData _ data _ => data.dataSize < 2 ^ 32 - 8
  | _ => True

instance : (op : Op) → Decidable op.Small
  | .trackData _ => inferInstanceAs (Decidable True)
  | .insertLinkeditData _ data _ => inferInstanceAs (Decidable (data.dataSize < 2 ^ 32 - 8))
  | .insertLoadCommand _ _ => inferInstanceAs (Decidable True)

theorem Op.move_dataSize (t : LinkeditTracker) (pg : Pages) (op : Op) (d : LinkeditData) :
    (op.move t pg d).dataSize = d.dataSize := by
  cases op with
  | trackData _ => rfl
  | insertLinkeditData => simp only [Op.move]; split <;> simp
  | insertLoadCommand => simp only [Op.move]; split <;> simp

theorem insertLoadCommand_lnk (t : LinkeditTracker) (pg : Pages) (after lc : ℕ) :
    (t.insertLoadCommand pg after lc).2.2.lnk = pg.lnk := by
  dsimp only [LinkeditTracker.insertLoadCommand]
  split <;> rfl

theorem Op.step_bytes {t : LinkeditTracker} {pg : Pages} (hI : Inv t pg.hdr) (op : Op)
    (hR : op.Ready t pg) (hsmall : op.Small) {d : LinkeditData} (hd : d ∈ t.trackingData)
    {i : ℕ} (hi : i < d.dataSize) :
    (op.call t pg).2.lnk ((op.move t pg d).data + i) = pg.lnk (d.data + i) := by
  cases op with
  | trackData _ => rfl
  | insertLoadCommand after lc =>
    simp only [Op.call, Op.move, insertLoadCommand_lnk]
    split <;> simp
  | insertLinkeditData after data src =>
    replace hsmall : data.dataSize < 2 ^ 32 - 8 := hsmall
    by_cases hfit : t.lastDataEnd + insertDelta data ≤ t.linkeditEnd
    · have hP := hI.toPacked
      have hδ := insertDelta_eq (show data.dataSize < 2 ^ 32 by omega)
      have hsize : data.dataSize ≤ insertDelta data := by
        rw [hδ, if_pos hsmall]
        omega
      have hend := hP.ends d hd
      unfold LinkeditData.dataEnd at hend
      simp only [Op.call, Op.move, (insertLinkeditData_of_fits hfit).1, if_true, shiftData_data,
        insertLinkeditData_lnk hfit (hP.insertStart_le hR.1).2.1 hsmall]
      by_cases hS : insertStart t after ≤ d.data
      · -- a region past the gap moves up by the gap's size
        rw [if_pos hS, insertedByte_of_not_gap _ _ _ hsize (.inr (by omega)),
          if_pos ⟨by omega, by omega⟩, Nat.add_right_comm, Nat.add_sub_cancel]
      · -- a region before the gap ends by it and stays
        have hlt := hP.end_le_of_lt hR.1 hd (by omega)
        unfold LinkeditData.dataEnd at hlt
        rw [if_neg hS, insertedByte_of_not_gap _ _ _ hsize (.inl (by omega)), if_neg (by omega)]
    · simp only [Op.call, Op.move, insertLinkeditData_of_not_fits hfit, Bool.false_eq_true,
        if_false, id]

theorem run_keeps_bytes {ops : List Op} {t : LinkeditTracker} {pg : Pages}
    (hI : Inv t pg.hdr) (hS : Safe ops t pg) (hsmall : ∀ op ∈ ops, op.Small) :
    ∀ d ∈ t.trackingData, ∀ i < d.dataSize,
      (run ops t pg).2.lnk ((follow ops t pg d).data + i) = pg.lnk (d.data + i) := by
  induction ops generalizing t pg with
  | nil => exact fun _ _ _ _ => rfl
  | cons op ops ih =>
    intro d hd i hi
    obtain ⟨hI', hC, -⟩ := Op.step hI op hS.1
    rw [run, follow, Function.comp_apply,
      ih hI' hS.2 (fun o ho => hsmall o (.tail _ ho)) _ (hC d hd).1 i
        (by rwa [Op.move_dataSize])]
    exact Op.step_bytes hI op hS.1 (hsmall op (.head _)) hd hi

theorem tracked_bytes_kept {ops : List Op} {t : LinkeditTracker} {pg : Pages}
    (hI : Inv t pg.hdr) (hS : Safe ops t pg) (hsmall : ∀ op ∈ ops, op.Small) :
    ∀ d ∈ t.trackingData, ∀ i < d.dataSize,
      (run ops t pg).2.lnk ((follow ops t pg d).data + i) = pg.lnk (d.data + i) :=
  run_keeps_bytes hI hS hsmall

theorem tracked_bytes_kept_pair :
    Inv pairTracker pairPages.hdr ∧ Safe pairOps pairTracker pairPages ∧
      (∀ op ∈ pairOps, op.Small) ∧
      ∀ d ∈ pairTracker.trackingData, ∀ i < d.dataSize,
        (run pairOps pairTracker pairPages).2.lnk
            ((follow pairOps pairTracker pairPages d).data + i) = pairPages.lnk (d.data + i) :=
  have hI : Inv pairTracker pairPages.hdr := by decide
  have hS : Safe pairOps pairTracker pairPages := by decide
  have hsmall : ∀ op ∈ pairOps, op.Small := by decide
  ⟨hI, hS, hsmall, tracked_bytes_kept hI hS hsmall⟩

def Op.filed (t : LinkeditTracker) (pg : Pages) : Op → List LinkeditData
  | trackData d => [d]
  | insertLinkeditData after data src =>
    if (t.insertLinkeditData pg after data src).1 then
      [⟨data.offset, insertStart t after, insertDelta data⟩] else []
  | insertLoadCommand _ _ => []

def filed : List Op → LinkeditTracker → Pages → List LinkeditData
  | [], _, _ => []
  | op :: ops, t, pg => (op.filed t pg).map (follow ops (op.call t pg).1 (op.call t pg).2) ++
      filed ops (op.call t pg).1 (op.call t pg).2

theorem Op.call_registry (t : LinkeditTracker) (pg : Pages) (op : Op) :
    (op.call t pg).1.trackingData.Perm (t.trackingData.map (op.move t pg) ++ op.filed t pg) := by
  cases op with
  | trackData d =>
    simp only [Op.call, Op.move, Op.filed, LinkeditTracker.trackData, List.map_id]
    exact (insertByData_perm d _).trans (List.perm_append_singleton d _).symm
  | insertLinkeditData after data src =>
    by_cases hfit : t.lastDataEnd + insertDelta data ≤ t.linkeditEnd
    · obtain ⟨h₁, h₂, -⟩ := @insertLinkeditData_of_fits t pg after data src hfit
      simp only [Op.call, Op.move, Op.filed, h₁, h₂, if_true]
      exact (insertByData_perm _ _).trans (List.perm_append_singleton _ _).symm
    · simp only [Op.call, Op.move, Op.filed, insertLinkeditData_of_not_fits hfit,
        Bool.false_eq_true, if_false, List.map_id, List.append_nil, List.Perm.refl]
  | insertLoadCommand after lc =>
    by_cases hfit : t.headerSpaceAvailable <
        u32 (read32 pg.hdr (t.header + sizeofcmdsOff) + cmdsize pg.hdr lc)
    · simp only [Op.call, Op.move, Op.filed, insertLoadCommand_of_not_fits hfit,
        Bool.false_eq_true, if_false, List.map_id, List.append_nil, List.Perm.refl]
    · obtain ⟨h₁, h₂⟩ := @insertLoadCommand_of_fits t pg after lc hfit
      simp only [Op.call, Op.move, Op.filed, h₁, h₂, if_true, List.append_nil, List.Perm.refl]

/-- After any sequence of calls from any state, the registry holds exactly the regions tracked
before, each where the calls moved it, and the regions the calls filed: none is lost and none
is filed twice. -/
theorem registry_accounted (ops : List Op) (t : LinkeditTracker) (pg : Pages) :
    (run ops t pg).1.trackingData.Perm
      (t.trackingData.map (follow ops t pg) ++ filed ops t pg) := by
  induction ops generalizing t pg with
  | nil => simp only [run, follow, List.map_id, filed, List.append_nil, List.Perm.refl]
  | cons op ops ih =>
    have hstep := ((op.call_registry t pg).map (follow ops (op.call t pg).1 (op.call t pg).2))
    rw [List.map_append, List.map_map] at hstep
    rw [run, follow, filed, ← List.append_assoc]
    exact (ih _ _).trans (hstep.append_right _)

theorem run_trackData (ds : List LinkeditData) (t : LinkeditTracker) (pg : Pages) :
    run (ds.map Op.trackData) t pg = ({ t with trackingData := trackAll t.trackingData ds }, pg) := by
  induction ds generalizing t with
  | nil => rfl
  | cons d ds ih => exact ih (t.trackData d)

theorem track_order_free {ds es : List LinkeditData} {t : LinkeditTracker} (pg : Pages)
    (hl : t.trackingData.Sorted DataLe) (hp : ds.Perm es)
    (hnd : ((t.trackingData ++ ds).map LinkeditData.data).Nodup) :
    run (ds.map Op.trackData) t pg = run (es.map Op.trackData) t pg := by
  rw [run_trackData, run_trackData, trackAll_perm_eq hl hp hnd]

def pairRegions : List LinkeditData := [⟨52, 0x1018, 8⟩, ⟨60, 0x1020, 8⟩]

theorem track_order_free_pair :
    pairTracker.trackingData.Sorted DataLe ∧ pairRegions.Perm pairRegions.reverse ∧
      ((pairTracker.trackingData ++ pairRegions).map LinkeditData.data).Nodup ∧
      run (pairRegions.map Op.trackData) pairTracker pairPages =
        run (pairRegions.reverse.map Op.trackData) pairTracker pairPages :=
  have hl : pairTracker.trackingData.Sorted DataLe := by unfold List.Sorted DataLe; decide
  have hp : pairRegions.Perm pairRegions.reverse := (List.reverse_perm _).symm
  have hnd : ((pairTracker.trackingData ++ pairRegions).map LinkeditData.data).Nodup := by
    decide
  ⟨hl, hp, hnd, track_order_free pairPages hl hp hnd⟩

/-- What a call files its region with: the bytes LINKEDIT holds there for `trackData`; the
payload, then zeros up to the gap's size, for `insertLinkeditData`. -/
def Op.payload (pg : Pages) : Op → ℕ → UInt8
  | trackData d => fun i => pg.lnk (d.data + i)
  | insertLinkeditData _ data src => fun i => if i < data.dataSize then src (data.data + i) else 0
  | insertLoadCommand _ _ => fun _ => 0

def filedWith : List Op → LinkeditTracker → Pages → List (LinkeditData × (ℕ → UInt8))
  | [], _, _ => []
  | op :: ops, t, pg =>
    (op.filed t pg).map (fun d => (follow ops (op.call t pg).1 (op.call t pg).2 d, op.payload pg)) ++
      filedWith ops (op.call t pg).1 (op.call t pg).2

theorem follow_dataSize (ops : List Op) (t : LinkeditTracker) (pg : Pages) (d : LinkeditData) :
    (follow ops t pg d).dataSize = d.dataSize := by
  induction ops generalizing t pg d with
  | nil => rfl
  | cons op ops ih => rw [follow, Function.comp_apply, ih, Op.move_dataSize]

theorem Op.filed_mem (t : LinkeditTracker) (pg : Pages) (op : Op) {d : LinkeditData}
    (hd : d ∈ op.filed t pg) : d ∈ (op.call t pg).1.trackingData :=
  (op.call_registry t pg).mem_iff.mpr (List.mem_append_right _ hd)

theorem Op.filed_bytes {t : LinkeditTracker} {pg : Pages} (hI : Inv t pg.hdr) (op : Op)
    (hR : op.Ready t pg) (hsmall : op.Small) {d : LinkeditData} (hd : d ∈ op.filed t pg)
    {i : ℕ} (hi : i < d.dataSize) : (op.call t pg).2.lnk (d.data + i) = op.payload pg i := by
  cases op with
  | trackData d' =>
    rw [Op.filed, List.mem_singleton] at hd
    subst hd
    rfl
  | insertLoadCommand => cases hd
  | insertLinkeditData after data src =>
    replace hsmall : data.dataSize < 2 ^ 32 - 8 := hsmall
    by_cases hfit : t.lastDataEnd + insertDelta data ≤ t.linkeditEnd
    · rw [Op.filed, (insertLinkeditData_of_fits hfit).1, if_pos rfl, List.mem_singleton] at hd
      subst hd
      rw [Op.call, insertLinkeditData_lnk hfit (hI.toPacked.insertStart_le hR.1).2.1 hsmall,
        insertedByte_gap _ _ _ _ _ hi]
      rfl
    · rw [Op.filed, insertLinkeditData_of_not_fits hfit, if_neg Bool.false_ne_true] at hd
      cases hd

theorem filed_bytes_kept {ops : List Op} {t : LinkeditTracker} {pg : Pages}
    (hI : Inv t pg.hdr) (hS : Safe ops t pg) (hsmall : ∀ op ∈ ops, op.Small) :
    ∀ p ∈ filedWith ops t pg, ∀ i < p.1.dataSize, (run ops t pg).2.lnk (p.1.data + i) = p.2 i := by
  induction ops generalizing t pg with
  | nil => exact fun _ hp => absurd hp (List.not_mem_nil _)
  | cons op ops ih =>
    obtain ⟨hI', -, -⟩ := Op.step hI op hS.1
    have hsmall' : ∀ o ∈ ops, o.Small := fun o ho => hsmall o (.tail _ ho)
    intro p hp i hi
    rw [filedWith, List.mem_append, List.mem_map] at hp
    rcases hp with ⟨d, hd, rfl⟩ | hp
    · -- a region this call files, then moved by the calls after it
      rw [follow_dataSize] at hi
      rw [run, run_keeps_bytes hI' hS.2 hsmall' d (op.filed_mem t pg hd) i hi]
      exact op.filed_bytes hI hS.1 (hsmall op (.head _)) hd hi
    · exact ih hI' hS.2 hsmall' p hp i hi

theorem filed_bytes_kept_pair :
    Inv pairTracker pairPages.hdr ∧ Safe pairOps pairTracker pairPages ∧
      (∀ op ∈ pairOps, op.Small) ∧
      ∀ p ∈ filedWith pairOps pairTracker pairPages, ∀ i < p.1.dataSize,
        (run pairOps pairTracker pairPages).2.lnk (p.1.data + i) = p.2 i :=
  have hI : Inv pairTracker pairPages.hdr := by decide
  have hS : Safe pairOps pairTracker pairPages := by decide
  have hsmall : ∀ op ∈ pairOps, op.Small := by decide
  ⟨hI, hS, hsmall, filed_bytes_kept hI hS hsmall⟩

end DyldLinkedit.TrackerInvariant
