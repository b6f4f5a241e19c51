import DyldLinkedit.TrackerInvariant

/-!
# The load commands keep parsing

A reader of the mach header walks `ncmds` load commands from `commandsStart`, each starting
`cmdsize` bytes after the one before, and expects the walk to end at
`commandsStart + sizeofcmds`. `insertLoadCommand` moves the commands past `after` up by the new
command's `cmdsize`, copies the new command into the gap, adds one to `ncmds` and adds the
`cmdsize` to `sizeofcmds`. So when `after` is one of the walked commands, the walk finds the
new command right after it and the moved commands after that. `insertLinkeditData` writes only
tracked fields, so it leaves the walk alone as long as every field lies in the body of a
command, past its `cmd` and `cmdsize`.
-/

set_option autoImplicit false

namespace DyldLinkedit.CommandWalk
open DyldLinkedit.Memory DyldLinkedit.MachO DyldLinkedit.Tracker DyldLinkedit.Registry
  DyldLinkedit.Insertion DyldLinkedit.TrackerInvariant

/-- The addresses of `n` load commands laid end to end from `a`. -/
def walk (hdr : Mem) : ℕ → ℕ → List ℕ
  | _, 0 => []
  | a, n + 1 => a :: walk hdr (a + cmdsize hdr a) n

/-- Where the walk of `n` commands from `a` ends. -/
def walkEnd (hdr : Mem) : ℕ → ℕ → ℕ
  | a, 0 => a
  | a, n + 1 => walkEnd hdr (a + cmdsize hdr a) n

section Walk

variable (hdr : Mem)

theorem walk_succ (a n : ℕ) : walk hdr a (n + 1) = a :: walk hdr (a + cmdsize hdr a) n := rfl

theorem walkEnd_succ (a n : ℕ) : walkEnd hdr a (n + 1) = walkEnd hdr (a + cmdsize hdr a) n := rfl

theorem walk_append (a m n : ℕ) :
    walk hdr a (m + n) = walk hdr a m ++ walk hdr (walkEnd hdr a m) n := by
  induction m generalizing a with
  | zero => simp [walk, walkEnd]
  | succ m ih => rw [Nat.succ_add, walk, walk, walkEnd, ih, List.cons_append]

theorem walkEnd_add (a m n : ℕ) : walkEnd hdr a (m + n) = walkEnd hdr (walkEnd hdr a m) n := by
  induction m generalizing a with
  | zero => simp [walkEnd]
  | succ m ih => rw [Nat.succ_add, walkEnd, walkEnd, ih]

theorem walkEnd_next (a k : ℕ) :
    walkEnd hdr a k + cmdsize hdr (walkEnd hdr a k) = walkEnd hdr a (k + 1) :=
  (walkEnd_add hdr a k 1).symm

theorem le_walkEnd (a n : ℕ) : a ≤ walkEnd hdr a n := by
  induction n generalizing a with
  | zero => exact le_rfl
  | succ n ih => exact (Nat.le_add_right _ _).trans (ih _)

variable {hdr}

theorem walk_bounds {a n c : ℕ} (hc : c ∈ walk hdr a n) :
    a ≤ c ∧ c + cmdsize hdr c ≤ walkEnd hdr a n := by
  induction n generalizing a with
  | zero => cases hc
  | succ n ih =>
    rcases List.mem_cons.mp hc with rfl | hc
    · exact ⟨le_rfl, le_walkEnd hdr _ n⟩
    · have := ih hc
      exact ⟨(Nat.le_add_right _ _).trans this.1, this.2⟩

theorem walk_pairwise (a n : ℕ) :
    (walk hdr a n).Pairwise fun c c' => c + cmdsize hdr c ≤ c' := by
  induction n generalizing a with
  | zero => exact .nil
  | succ n ih => exact .cons (fun c hc => (walk_bounds hc).1) (ih _)

theorem mem_walk {a n c : ℕ} (hc : c ∈ walk hdr a n) : ∃ k < n, c = walkEnd hdr a k := by
  induction n generalizing a with
  | zero => cases hc
  | succ n ih =>
    rcases List.mem_cons.mp hc with rfl | hc
    · exact ⟨0, Nat.succ_pos _, rfl⟩
    · obtain ⟨k, hk, rfl⟩ := ih hc
      exact ⟨k + 1, Nat.succ_lt_succ hk, rfl⟩

theorem walkEnd_ge {a n : ℕ} (h : ∀ c ∈ walk hdr a n, 8 ≤ cmdsize hdr c) :
    a + 8 * n ≤ walkEnd hdr a n := by
  induction n generalizing a with
  | zero => exact le_rfl
  | succ n ih =>
    have ha := h a (List.mem_cons_self _ _)
    have := ih fun c hc => h c (List.mem_cons_of_mem _ hc)
    rw [walkEnd]
    omega

end Walk

theorem walk_congr {hdr hdr' : Mem} {a n : ℕ}
    (h : ∀ c ∈ walk hdr a n, cmdsize hdr' c = cmdsize hdr c) :
    walk hdr' a n = walk hdr a n ∧ walkEnd hdr' a n = walkEnd hdr a n := by
  induction n generalizing a with
  | zero => exact ⟨rfl, rfl⟩
  | succ n ih =>
    obtain ⟨h₁, h₂⟩ := ih fun c hc => h c (List.mem_cons_of_mem _ hc)
    rw [walk, walk, walkEnd, walkEnd, h a (List.mem_cons_self _ _), h₁, h₂]
    exact ⟨rfl, rfl⟩

theorem walk_shift {hdr hdr' : Mem} {a n δ : ℕ}
    (h : ∀ c ∈ walk hdr a n, cmdsize hdr' (c + δ) = cmdsize hdr c) :
    walk hdr' (a + δ) n = (walk hdr a n).map (· + δ) ∧
      walkEnd hdr' (a + δ) n = walkEnd hdr a n + δ := by
  induction n generalizing a with
  | zero => exact ⟨rfl, rfl⟩
  | succ n ih =>
    obtain ⟨h₁, h₂⟩ := ih fun c hc => h c (List.mem_cons_of_mem _ hc)
    rw [walk, walk, walkEnd, walkEnd, h a (List.mem_cons_self _ _), Nat.add_right_comm, h₁, h₂]
    exact ⟨rfl, rfl⟩

theorem walk_split (hdr : Mem) (a : ℕ) {n k : ℕ} (hk : k < n) :
    walk hdr a n = walk hdr a (k + 1) ++ walk hdr (walkEnd hdr a (k + 1)) (n - (k + 1)) ∧
      walkEnd hdr a n = walkEnd hdr (walkEnd hdr a (k + 1)) (n - (k + 1)) := by
  obtain ⟨m, rfl⟩ := Nat.exists_eq_add_of_lt hk
  rw [show k + m + 1 - (k + 1) = m by omega, show k + m + 1 = k + 1 + m by omega]
  exact ⟨walk_append hdr a _ _, walkEnd_add hdr a _ _⟩

/-- A header that keeps the commands up to `S`, holds a command of `δ` bytes at `S` and the
commands past `S` moved up by `δ` walks one command more. -/
theorem walk_insert {hdr hdr' : Mem} {a k m δ : ℕ}
    (h₁ : ∀ c ∈ walk hdr a (k + 1), cmdsize hdr' c = cmdsize hdr c)
    (h₂ : cmdsize hdr' (walkEnd hdr a (k + 1)) = δ)
    (h₃ : ∀ c ∈ walk hdr (walkEnd hdr a (k + 1)) m, cmdsize hdr' (c + δ) = cmdsize hdr c) :
    walk hdr' a (k + 1 + (m + 1)) = walk hdr a (k + 1) ++ walkEnd hdr a (k + 1) ::
        (walk hdr (walkEnd hdr a (k + 1)) m).map (· + δ) ∧
      walkEnd hdr' a (k + 1 + (m + 1)) = walkEnd hdr (walkEnd hdr a (k + 1)) m + δ := by
  obtain ⟨e₁, e₂⟩ := walk_congr h₁
  obtain ⟨e₃, e₄⟩ := walk_shift h₃
  rw [walk_append hdr' a (k + 1) (m + 1), walkEnd_add hdr' a (k + 1) (m + 1), e₁, e₂,
    walk_succ hdr', walkEnd_succ hdr', h₂, e₃, e₄]
  exact ⟨rfl, rfl⟩

def ncmds (t : LinkeditTracker) (hdr : Mem) : ℕ := read32 hdr (t.header + ncmdsOff)

def commands (t : LinkeditTracker) (hdr : Mem) : List ℕ := walk hdr t.commandsStart (ncmds t hdr)

/-- The word at `o` lies in the body of one of the commands `cs`, past its `cmd` and `cmdsize`. -/
def InBody (hdr : Mem) (cs : List ℕ) (o : ℕ) : Prop :=
  ∃ c ∈ cs, c + 8 ≤ o ∧ o + 4 ≤ c + cmdsize hdr c

instance (hdr : Mem) (cs : List ℕ) (o : ℕ) : Decidable (InBody hdr cs o) :=
  inferInstanceAs (Decidable (∃ c ∈ cs, _))

/-- The load commands parse: `ncmds` commands of at least 8 bytes, laid end to end from
`commandsStart`, fill `sizeofcmds` exactly, and every tracked field lies in the body of one
of them. -/
@[mk_iff] structure Parses (t : LinkeditTracker) (hdr : Mem) : Prop where
  sized : ∀ c ∈ commands t hdr, 8 ≤ cmdsize hdr c
  fills : walkEnd hdr t.commandsStart (ncmds t hdr) = commandsEnd t hdr
  fields : ∀ d ∈ t.trackingData, InBody hdr (commands t hdr) d.offset

instance (t : LinkeditTracker) (hdr : Mem) : Decidable (Parses t hdr) :=
  decidable_of_iff _ (parses_iff t hdr).symm

/-- What a call needs, beside `Op.Ready`, for the commands to keep parsing: a field it files
lies in the body of a command, and a command it inserts follows a walked command and is at
least 8 bytes long. -/
def OpLands (t : LinkeditTracker) (hdr : Mem) : Op → Prop
  | .trackData d => InBody hdr (commands t hdr) d.offset
  | .insertLinkeditData _ data _ => InBody hdr (commands t hdr) data.offset
  | .insertLoadCommand after lc => after ∈ commands t hdr ∧ 8 ≤ cmdsize hdr lc

instance (t : LinkeditTracker) (hdr : Mem) : (op : Op) → Decidable (OpLands t hdr op)
  | .trackData d => inferInstanceAs (Decidable (InBody hdr (commands t hdr) d.offset))
  | .insertLinkeditData _ data _ =>
    inferInstanceAs (Decidable (InBody hdr (commands t hdr) data.offset))
  | .insertLoadCommand _ _ => inferInstanceAs (Decidable (_ ∧ _))

/-- Each call of the sequence lands where the calls before it leave the commands. -/
def Lands : List Op → LinkeditTracker → Pages → Prop
  | [], _, _ => True
  | op :: ops, t, pg => OpLands t pg.hdr op ∧ Lands ops (op.call t pg).1 (op.call t pg).2

instance decLands : (ops : List Op) → (t : LinkeditTracker) → (pg : Pages) →
    Decidable (Lands ops t pg)
  | [], _, _ => isTrue trivial
  | op :: ops, t, pg =>
    haveI := decLands ops (op.call t pg).1 (op.call t pg).2
    inferInstanceAs (Decidable (_ ∧ _))

theorem walked_apart {hdr : Mem} {a n c c' : ℕ} (hc : c ∈ walk hdr a n)
    (hc' : c' ∈ walk hdr a n) (hne : c ≠ c') :
    c + cmdsize hdr c ≤ c' ∨ c' + cmdsize hdr c' ≤ c :=
  List.Pairwise.«forall» (fun _ _ h => Or.symm h) ((walk_pairwise a n).imp Or.inl) hc hc' hne

section Calls

variable {t : LinkeditTracker} {hdr : Mem}

theorem walked_byte_apart (hP : Parses t hdr)
    (hh : t.header + sizeofcmdsOff + 4 ≤ t.commandsStart)
    {o : ℕ} (ho : InBody hdr (commands t hdr) o) {x : ℕ}
    (hx : (t.header + ncmdsOff ≤ x ∧ x < t.header + ncmdsOff + 8) ∨
      ∃ c ∈ commands t hdr, c + cmdsizeOff ≤ x ∧ x < c + cmdsizeOff + 4) :
    x < o ∨ o + 4 ≤ x := by
  obtain ⟨c', hc', h₁, h₂⟩ := ho
  have hs := (walk_bounds hc').1
  have c₁ : cmdsizeOff = 4 := rfl
  have c₂ : ncmdsOff = 16 := rfl
  have c₃ : sizeofcmdsOff = 20 := rfl
  rcases hx with hx | ⟨c, hc, hx⟩
  · omega
  · by_cases he : c = c'
    · subst he
      omega
    · have := hP.sized c hc
      have := walked_apart hc hc' he
      omega

theorem walk_of_agree {t' : LinkeditTracker} {hdr' : Mem}
    (hh : t'.header = t.header) (hs : t'.commandsStart = t.commandsStart)
    (hc : ∀ i < 8, hdr' (t.header + ncmdsOff + i) = hdr (t.header + ncmdsOff + i))
    (hw : ∀ c ∈ commands t hdr, ∀ i < 4, hdr' (c + cmdsizeOff + i) = hdr (c + cmdsizeOff + i)) :
    commands t' hdr' = commands t hdr ∧ commandsEnd t' hdr' = commandsEnd t hdr ∧
      walkEnd hdr' t'.commandsStart (ncmds t' hdr') = walkEnd hdr t.commandsStart (ncmds t hdr) := by
  have hn : ncmds t' hdr' = ncmds t hdr := by
    rw [ncmds, ncmds, hh]
    exact read32_congr fun i hi => hc i (by omega)
  have hsz : read32 hdr' (t.header + sizeofcmdsOff) = read32 hdr (t.header + sizeofcmdsOff) :=
    read32_congr fun i hi => by
      have := hc (4 + i) (by omega)
      rwa [← Nat.add_assoc] at this
  obtain ⟨hw₁, hw₂⟩ := walk_congr fun c hc => read32_congr (hw c hc)
  rw [commands, commands, commandsEnd, commandsEnd, hs, hn, hh, hsz]
  exact ⟨hw₁, rfl, hw₂⟩

theorem parses_of_agree {t' : LinkeditTracker} {hdr' : Mem} (hP : Parses t hdr)
    (hh : t'.header = t.header) (hs : t'.commandsStart = t.commandsStart)
    (hc : ∀ i < 8, hdr' (t.header + ncmdsOff + i) = hdr (t.header + ncmdsOff + i))
    (hw : ∀ c ∈ commands t hdr, ∀ i < 4, hdr' (c + cmdsizeOff + i) = hdr (c + cmdsizeOff + i))
    (hf : ∀ d ∈ t'.trackingData, InBody hdr (commands t hdr) d.offset) : Parses t' hdr' := by
  obtain ⟨hcmd, hE, hW⟩ := walk_of_agree hh hs hc hw
  have hcs : ∀ c ∈ commands t hdr, cmdsize hdr' c = cmdsize hdr c :=
    fun c hc => read32_congr (hw c hc)
  refine ⟨fun c hc => ?_, by rw [hW, hP.fills, hE], fun d hd => ?_⟩
  · rw [hcmd] at hc
    rw [hcs c hc]
    exact hP.sized c hc
  · obtain ⟨c, hc, h₁, h₂⟩ := hf d hd
    exact ⟨c, hcmd ▸ hc, h₁, by rwa [hcs c hc]⟩

theorem parses_trackData (hP : Parses t hdr) {d : LinkeditData}
    (hd : InBody hdr (commands t hdr) d.offset) : Parses (t.trackData d) hdr :=
  ⟨hP.sized, hP.fills, fun d' hd' => (mem_insertByData.mp hd').elim (fun h => h ▸ hd)
    (hP.fields d')⟩

theorem insertLinkeditData_walked {pg : Pages} (hI : Inv t pg.hdr) (hP : Parses t pg.hdr)
    {after : Option LinkeditData} {data : LinkeditData} {src : Mem}
    (hfit : t.lastDataEnd + insertDelta data ≤ t.linkeditEnd) {x : ℕ}
    (hx : (t.header + ncmdsOff ≤ x ∧ x < t.header + ncmdsOff + 8) ∨
      ∃ c ∈ commands t pg.hdr, c + cmdsizeOff ≤ x ∧ x < c + cmdsizeOff + 4) :
    (t.insertLinkeditData pg after data src).2.2.hdr x = pg.hdr x := by
  rw [(@insertLinkeditData_of_fits _ pg after data src hfit).2.2.1]
  exact shiftTracked_of_apart _ _ fun d hd _ => walked_byte_apart hP hI.header (hP.fields d hd) hx

theorem commands_insertLinkeditData {pg : Pages} (hI : Inv t pg.hdr) (hP : Parses t pg.hdr)
    {after : Option LinkeditData} {data : LinkeditData} {src : Mem}
    (hfit : t.lastDataEnd + insertDelta data ≤ t.linkeditEnd) :
    commands (t.insertLinkeditData pg after data src).2.1
      (t.insertLinkeditData pg after data src).2.2.hdr = commands t pg.hdr := by
  rw [(@insertLinkeditData_of_fits _ pg after data src hfit).2.1]
  exact (walk_of_agree rfl rfl
    (fun i hi => insertLinkeditData_walked hI hP hfit (.inl ⟨by omega, by omega⟩))
    (fun c hc i hi => insertLinkeditData_walked hI hP hfit (.inr ⟨c, hc, by omega, by omega⟩))).1

theorem parses_insertLinkeditData {pg : Pages} (hI : Inv t pg.hdr) (hP : Parses t pg.hdr)
    {after : Option LinkeditData} {data : LinkeditData} {src : Mem}
    (hfit : t.lastDataEnd + insertDelta data ≤ t.linkeditEnd)
    (hd : InBody pg.hdr (commands t pg.hdr) data.offset) :
    Parses (t.insertLinkeditData pg after data src).2.1
      (t.insertLinkeditData pg after data src).2.2.hdr := by
  rw [(@insertLinkeditData_of_fits _ pg after data src hfit).2.1]
  refine parses_of_agree hP rfl rfl
    (fun i hi => insertLinkeditData_walked hI hP hfit (.inl ⟨by omega, by omega⟩))
    (fun c hc i hi => insertLinkeditData_walked hI hP hfit (.inr ⟨c, hc, by omega, by omega⟩))
    fun d' hd' => ?_
  rcases mem_insertByData.mp hd' with rfl | hd'
  · exact hd
  · obtain ⟨d, hd, rfl⟩ := List.mem_map.mp hd'
    rw [shiftData_offset]
    exact hP.fields d hd

theorem cmdsizes_insertLoadCommand {pg : Pages} {after lc k : ℕ} (hI : Inv t pg.hdr)
    (hP : Parses t pg.hdr) (hR : CommandReady t pg.hdr after lc)
    (hfit : ¬ t.headerSpaceAvailable <
      u32 (read32 pg.hdr (t.header + sizeofcmdsOff) + cmdsize pg.hdr lc))
    (hk : k < ncmds t pg.hdr) (hafter : after = walkEnd pg.hdr t.commandsStart k)
    (h8 : 8 ≤ cmdsize pg.hdr lc) :
    (∀ c ∈ walk pg.hdr t.commandsStart (k + 1),
      cmdsize (t.insertLoadCommand pg after lc).2.2.hdr c = cmdsize pg.hdr c) ∧
      cmdsize (t.insertLoadCommand pg after lc).2.2.hdr (walkEnd pg.hdr t.commandsStart (k + 1)) =
        cmdsize pg.hdr lc ∧
      ∀ c ∈ walk pg.hdr (walkEnd pg.hdr t.commandsStart (k + 1)) (ncmds t pg.hdr - (k + 1)),
        cmdsize (t.insertLoadCommand pg after lc).2.2.hdr (c + cmdsize pg.hdr lc) =
          cmdsize pg.hdr c := by
  obtain ⟨-, -, hout, hin, -, -⟩ :=
    insertLoadCommand_hdr hfit hI.header hR.start hR.before hR.lc_apart hR.lc_counts
  have hS : after + cmdsize pg.hdr after = walkEnd pg.hdr t.commandsStart (k + 1) := by
    rw [hafter, walkEnd_next]
  obtain ⟨hsplit, hend⟩ := walk_split pg.hdr t.commandsStart hk
  have hsz : ∀ c ∈ walk pg.hdr t.commandsStart (ncmds t pg.hdr), 8 ≤ cmdsize pg.hdr c :=
    hP.sized
  have hfills := hP.fills
  have hh := hI.header
  have hlc := hR.lc_apart
  have hSa := le_walkEnd pg.hdr t.commandsStart (k + 1)
  unfold Apart at hlc
  generalize hSdef : walkEnd pg.hdr t.commandsStart (k + 1) = S at *
  generalize (t.insertLoadCommand pg after lc).2.2.hdr = hdr' at *
  have c₁ : cmdsizeOff = 4 := rfl
  have c₂ : ncmdsOff = 16 := rfl
  have c₃ : sizeofcmdsOff = 20 := rfl
  refine ⟨fun c hc => readLE_congr 4 fun i hi => ?_, readLE_congr 4 fun i hi => ?_,
    fun c hc => readLE_congr 4 fun i hi => ?_⟩
  · -- a command up to `after` stays
    have hb := walk_bounds hc
    have := hsz c (hsplit ▸ List.mem_append_left _ hc)
    rw [hout _ (.inr (by omega)) (.inl (by omega)), if_neg (by omega)]
  · -- `lc` lands at the end of `after`
    rw [hin _ (by omega) (by omega) (by omega)]
    exact congrArg pg.hdr (by omega)
  · -- a command past `after` moves up
    have hb := walk_bounds hc
    have := hsz c (hsplit ▸ List.mem_append_right _ hc)
    rw [hout _ (.inr (by omega)) (.inr (by omega)), if_pos ⟨by omega, by omega⟩]
    exact congrArg pg.hdr (by omega)

theorem ncmds_insertLoadCommand {pg : Pages} {after lc k : ℕ} (hI : Inv t pg.hdr)
    (hP : Parses t pg.hdr) (hR : CommandReady t pg.hdr after lc)
    (hfit : ¬ t.headerSpaceAvailable <
      u32 (read32 pg.hdr (t.header + sizeofcmdsOff) + cmdsize pg.hdr lc))
    (hk : k < ncmds t pg.hdr) :
    ncmds (t.insertLoadCommand pg after lc).2.1 (t.insertLoadCommand pg after lc).2.2.hdr =
      k + 1 + (ncmds t pg.hdr - (k + 1) + 1) := by
  obtain ⟨-, h₂, -, -, hn, -⟩ :=
    insertLoadCommand_hdr hfit hI.header hR.start hR.before hR.lc_apart hR.lc_counts
  have hcount : 8 * ncmds t pg.hdr ≤ read32 pg.hdr (t.header + sizeofcmdsOff) := by
    have := walkEnd_ge hP.sized
    rw [hP.fills, commandsEnd] at this
    omega
  have hfits := hR.fits
  rw [h₂]
  dsimp only [ncmds]
  rw [hn, u32_of_lt (by unfold ncmds at hcount; omega)]
  unfold ncmds at hk
  omega

theorem commands_insertLoadCommand {pg : Pages} {after lc k : ℕ} (hI : Inv t pg.hdr)
    (hP : Parses t pg.hdr) (hR : CommandReady t pg.hdr after lc)
    (hfit : ¬ t.headerSpaceAvailable <
      u32 (read32 pg.hdr (t.header + sizeofcmdsOff) + cmdsize pg.hdr lc))
    (hk : k < ncmds t pg.hdr) (hafter : after = walkEnd pg.hdr t.commandsStart k)
    (h8 : 8 ≤ cmdsize pg.hdr lc) :
    commands (t.insertLoadCommand pg after lc).2.1 (t.insertLoadCommand pg after lc).2.2.hdr =
      walk pg.hdr t.commandsStart (k + 1) ++ walkEnd pg.hdr t.commandsStart (k + 1) ::
        (walk pg.hdr (walkEnd pg.hdr t.commandsStart (k + 1)) (ncmds t pg.hdr - (k + 1))).map
          (· + cmdsize pg.hdr lc) := by
  obtain ⟨-, h₂, -⟩ :=
    insertLoadCommand_hdr hfit hI.header hR.start hR.before hR.lc_apart hR.lc_counts
  obtain ⟨e₁, e₂, e₃⟩ := cmdsizes_insertLoadCommand hI hP hR hfit hk hafter h8
  rw [commands, ncmds_insertLoadCommand hI hP hR hfit hk, h₂]
  exact (walk_insert e₁ e₂ e₃).1

/-- A successful `insertLoadCommand(after, lc)` after a walked command, `lc` at least 8 bytes:
the walk finds the commands up to `after`, then `lc`, then the commands past `after` moved up
by `lc`'s `cmdsize`, and every field with its command. -/
theorem parses_insertLoadCommand {pg : Pages} {after lc : ℕ} (hI : Inv t pg.hdr)
    (hP : Parses t pg.hdr) (hR : CommandReady t pg.hdr after lc)
    (hfit : ¬ t.headerSpaceAvailable <
      u32 (read32 pg.hdr (t.header + sizeofcmdsOff) + cmdsize pg.hdr lc))
    (ha : after ∈ commands t pg.hdr) (h8 : 8 ≤ cmdsize pg.hdr lc) :
    Parses (t.insertLoadCommand pg after lc).2.1 (t.insertLoadCommand pg after lc).2.2.hdr := by
  obtain ⟨-, h₂, -, -, -, hs⟩ :=
    insertLoadCommand_hdr hfit hI.header hR.start hR.before hR.lc_apart hR.lc_counts
  obtain ⟨k, hk, hafter⟩ := mem_walk ha
  obtain ⟨e₁, e₂, e₃⟩ := cmdsizes_insertLoadCommand hI hP hR hfit hk hafter h8
  obtain ⟨hsplit, hend⟩ := walk_split pg.hdr t.commandsStart hk
  have hS : after + cmdsize pg.hdr after = walkEnd pg.hdr t.commandsStart (k + 1) := by
    rw [hafter, walkEnd_next]
  have hmem (c : ℕ) : c ∈ commands t pg.hdr ↔ c ∈ walk pg.hdr t.commandsStart (k + 1) ∨
      c ∈ walk pg.hdr (walkEnd pg.hdr t.commandsStart (k + 1)) (ncmds t pg.hdr - (k + 1)) := by
    rw [commands, hsplit, List.mem_append]
  have hfits := hR.fits
  have hn' := ncmds_insertLoadCommand hI hP hR hfit hk
  have hcmd := commands_insertLoadCommand hI hP hR hfit hk hafter h8
  refine ⟨fun c hc => ?_, ?_, fun d hd => ?_⟩
  · -- every command is at least 8 bytes long
    rw [hcmd] at hc
    rcases List.mem_append.mp hc with hc | hc
    · rw [e₁ c hc]
      exact hP.sized c ((hmem c).2 (.inl hc))
    rcases List.mem_cons.mp hc with rfl | hc
    · rw [e₂]
      exact h8
    · obtain ⟨c₀, hc₀, rfl⟩ := List.mem_map.mp hc
      rw [e₃ c₀ hc₀]
      exact hP.sized c₀ ((hmem c₀).2 (.inr hc₀))
  · -- the walk fills the grown `sizeofcmds`
    rw [hn', h₂]
    dsimp only [commandsEnd]
    rw [(walk_insert e₁ e₂ e₃).2, ← hend, hP.fills, commandsEnd, hs, u32_of_lt hfits]
    omega
  · -- every field moves with its command
    rw [h₂] at hd
    obtain ⟨d₀, hd₀, rfl⟩ := List.mem_map.mp hd
    obtain ⟨c, hc, h₁, h₂⟩ := hP.fields d₀ hd₀
    rw [shiftOffset_offset, hcmd, hS]
    rcases (hmem c).1 hc with hc | hc
    · have hb := (walk_bounds hc).2
      rw [if_neg (by omega)]
      exact ⟨c, List.mem_append_left _ hc, h₁, by rw [e₁ c hc]; exact h₂⟩
    · have hb := (walk_bounds hc).1
      rw [if_pos (by omega)]
      exact ⟨c + cmdsize pg.hdr lc, List.mem_append_right _
        (List.mem_cons_of_mem _ (List.mem_map_of_mem _ hc)), by omega, by rw [e₃ c hc]; omega⟩

end Calls

theorem step_parses {t : LinkeditTracker} {pg : Pages} (hI : Inv t pg.hdr) (hP : Parses t pg.hdr)
    (op : Op) (hR : op.Ready t pg) (hL : OpLands t pg.hdr op) :
    Parses (op.call t pg).1 (op.call t pg).2.hdr := by
  cases op with
  | trackData d => exact parses_trackData hP hL
  | insertLinkeditData after data src =>
    by_cases hfit : t.lastDataEnd + insertDelta data ≤ t.linkeditEnd
    · exact parses_insertLinkeditData hI hP hfit hL
    · simp only [Op.call, insertLinkeditData_of_not_fits hfit]
      exact hP
  | insertLoadCommand after lc =>
    by_cases hfit : t.headerSpaceAvailable <
        u32 (read32 pg.hdr (t.header + sizeofcmdsOff) + cmdsize pg.hdr lc)
    · simp only [Op.call, insertLoadCommand_of_not_fits hfit]
      exact hP
    · dsimp only [Op.call]
      exact parses_insertLoadCommand hI hP hR hfit hL.1 hL.2

/-- From a state in the tracker's invariant whose load commands parse, after any sequence of
calls, each ready and landing in the state the calls before it leave, the load commands
still parse: `ncmds` commands of at least 8 bytes, end to end from `commandsStart`, fill
`sizeofcmds`, and every tracked field lies in the body of one of them. -/
theorem commands_keep_parsing {ops : List Op} {t : LinkeditTracker} {pg : Pages}
    (hI : Inv t pg.hdr) (hP : Parses t pg.hdr) (hS : Safe ops t pg) (hL : Lands ops t pg) :
    Parses (run ops t pg).1 (run ops t pg).2.hdr := by
  induction ops generalizing t pg with
  | nil => exact hP
  | cons op ops ih => exact ih (Op.step hI op hS.1).1 (step_parses hI hP op hS.1 hL.1) hS.2 hL.2

def walkPages : Pages :=
  ⟨writeLog (fun _ => 0) [(ncmdsOff, 1), (sizeofcmdsOff, 32), (32 + cmdsizeOff, 32),
    (0x80 + cmdsizeOff, 8)], fun _ => 0⟩

theorem commands_keep_parsing_pair :
    Inv pairTracker walkPages.hdr ∧ Parses pairTracker walkPages.hdr ∧
      Safe pairOps pairTracker walkPages ∧ Lands pairOps pairTracker walkPages ∧
      Parses (run pairOps pairTracker walkPages).1 (run pairOps pairTracker walkPages).2.hdr :=
  have hI : Inv pairTracker walkPages.hdr := by decide
  have hP : Parses pairTracker walkPages.hdr := by decide
  have hS : Safe pairOps pairTracker walkPages := by decide
  have hL : Lands pairOps pairTracker walkPages := by decide
  ⟨hI, hP, hS, hL, commands_keep_parsing hI hP hS hL⟩

def moveCmd (t : LinkeditTracker) (pg : Pages) : Op → ℕ → ℕ
  | .insertLoadCommand after lc =>
    if (t.insertLoadCommand pg after lc).1 then
      fun c => if after + cmdsize pg.hdr after ≤ c then c + cmdsize pg.hdr lc else c
    else id
  | _ => id

def insertedCmd (t : LinkeditTracker) (pg : Pages) : Op → List ℕ
  | .insertLoadCommand after lc =>
    if (t.insertLoadCommand pg after lc).1 then [after + cmdsize pg.hdr after] else []
  | _ => []

/-- Where a sequence of calls takes each load command. -/
def followCmd : List Op → LinkeditTracker → Pages → ℕ → ℕ
  | [], _, _ => id
  | op :: ops, t, pg => followCmd ops (op.call t pg).1 (op.call t pg).2 ∘ moveCmd t pg op

/-- The commands a sequence of calls inserts, each where the calls after it leave it. -/
def insertedCmds : List Op → LinkeditTracker → Pages → List ℕ
  | [], _, _ => []
  | op :: ops, t, pg =>
    (insertedCmd t pg op).map (followCmd ops (op.call t pg).1 (op.call t pg).2) ++
      insertedCmds ops (op.call t pg).1 (op.call t pg).2

theorem step_commands {t : LinkeditTracker} {pg : Pages} (hI : Inv t pg.hdr)
    (hP : Parses t pg.hdr) (op : Op) (hR : op.Ready t pg) (hL : OpLands t pg.hdr op) :
    (commands (op.call t pg).1 (op.call t pg).2.hdr).Perm
      ((commands t pg.hdr).map (moveCmd t pg op) ++ insertedCmd t pg op) := by
  cases op with
  | trackData d =>
    simp only [moveCmd, insertedCmd, List.map_id, List.append_nil]
    exact .refl _
  | insertLinkeditData after data src =>
    simp only [moveCmd, insertedCmd, List.map_id, List.append_nil]
    by_cases hfit : t.lastDataEnd + insertDelta data ≤ t.linkeditEnd
    · rw [Op.call, commands_insertLinkeditData hI hP hfit]
    · simp only [Op.call, insertLinkeditData_of_not_fits hfit]
      exact .refl _
  | insertLoadCommand after lc =>
    by_cases hfit : t.headerSpaceAvailable <
        u32 (read32 pg.hdr (t.header + sizeofcmdsOff) + cmdsize pg.hdr lc)
    · simp only [Op.call, moveCmd, insertedCmd, insertLoadCommand_of_not_fits hfit,
        Bool.false_eq_true, if_false, List.map_id, List.append_nil]
      exact .refl _
    · obtain ⟨k, hk, hafter⟩ := mem_walk hL.1
      obtain ⟨hsplit, -⟩ := walk_split pg.hdr t.commandsStart hk
      have hS : after + cmdsize pg.hdr after = walkEnd pg.hdr t.commandsStart (k + 1) := by
        rw [hafter, walkEnd_next]
      simp only [Op.call, moveCmd, insertedCmd, (@insertLoadCommand_of_fits t pg after lc hfit).1,
        if_true]
      rw [commands_insertLoadCommand hI hP hR hfit hk hafter hL.2, commands, hsplit,
        List.map_append, hS]
      have hup : ∀ c ∈ walk pg.hdr t.commandsStart (k + 1),
          (if walkEnd pg.hdr t.commandsStart (k + 1) ≤ c then c + cmdsize pg.hdr lc else c) = c :=
        fun c hc => by
          have hb := (walk_bounds hc).2
          have := hP.sized c (by rw [commands, hsplit]; exact List.mem_append_left _ hc)
          exact if_neg (by omega)
      have hpast : ∀ c ∈ walk pg.hdr (walkEnd pg.hdr t.commandsStart (k + 1))
          (ncmds t pg.hdr - (k + 1)),
          (if walkEnd pg.hdr t.commandsStart (k + 1) ≤ c then c + cmdsize pg.hdr lc else c) =
            c + cmdsize pg.hdr lc :=
        fun c hc => if_pos (walk_bounds hc).1
      rw [List.map_congr_left hup, List.map_id', List.map_congr_left hpast]
      exact List.perm_middle.trans (List.perm_append_singleton _ _).symm

/-- From a state in the tracker's invariant whose load commands parse, after any sequence of
calls, each ready and landing, the commands a reader walks are exactly those walked before,
each where the calls moved it, and those the calls inserted: none is lost and none is walked
twice. -/
theorem commands_accounted {ops : List Op} {t : LinkeditTracker} {pg : Pages}
    (hI : Inv t pg.hdr) (hP : Parses t pg.hdr) (hS : Safe ops t pg) (hL : Lands ops t pg) :
    (commands (run ops t pg).1 (run ops t pg).2.hdr).Perm
      ((commands t pg.hdr).map (followCmd ops t pg) ++ insertedCmds ops t pg) := by
  induction ops generalizing t pg with
  | nil =>
    simp only [run, followCmd, insertedCmds, List.map_id, List.append_nil]
    exact .refl _
  | cons op ops ih =>
    have hstep := (step_commands hI hP op hS.1 hL.1).map
      (followCmd ops (op.call t pg).1 (op.call t pg).2)
    rw [List.map_append, List.map_map] at hstep
    rw [run, followCmd, insertedCmds, ← List.append_assoc]
    exact (ih (Op.step hI op hS.1).1 (step_parses hI hP op hS.1 hL.1) hS.2 hL.2).trans
      (hstep.append_right _)

theorem commands_accounted_pair :
    Inv pairTracker walkPages.hdr ∧ Parses pairTracker walkPages.hdr ∧
      Safe pairOps pairTracker walkPages ∧ Lands pairOps pairTracker walkPages ∧
      (commands (run pairOps pairTracker walkPages).1
        (run pairOps pairTracker walkPages).2.hdr).Perm
        ((commands pairTracker walkPages.hdr).map (followCmd pairOps pairTracker walkPages) ++
          insertedCmds pairOps pairTracker walkPages) :=
  have hI : Inv pairTracker walkPages.hdr := by decide
  have hP : Parses pairTracker walkPages.hdr := by decide
  have hS : Safe pairOps pairTracker walkPages := by decide
  have hL : Lands pairOps pairTracker walkPages := by decide
  ⟨hI, hP, hS, hL, commands_accounted hI hP hS hL⟩

end DyldLinkedit.CommandWalk
