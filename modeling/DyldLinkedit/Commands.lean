import DyldLinkedit.Tables

/-!
# The load commands a run stores to

A run stores only to fields of five commands, and reads each field before the pass that
stores to it. In a well-formed image the commands are disjoint, so a field is known by its
command's kind and its offset: `Cmd` names the kinds, and "no store to this field yet"
becomes a fact about short lists of kinds and offsets, which `decide` settles.
-/

set_option autoImplicit false

namespace DyldLinkedit.Commands
open DyldLinkedit.Memory DyldLinkedit.MachO DyldLinkedit.Optimizer DyldLinkedit.Layout
  DyldLinkedit.Passes

/-- The kinds of load command a run stores to. -/
inductive Cmd where
  | dyldInfo
  | symtab
  | dysymtab
  | functionStarts
  | dataInCode
  deriving DecidableEq, Repr

namespace Cmd

def all : List Cmd := [dyldInfo, symtab, dysymtab, functionStarts, dataInCode]

theorem mem_all (k : Cmd) : k ∈ all := by cases k <;> decide

def ids : Cmd → List ℕ
  | dyldInfo => [lcDyldInfo, lcDyldInfoOnly]
  | symtab => [lcSymtab]
  | dysymtab => [lcDysymtab]
  | functionStarts => [lcFunctionStarts]
  | dataInCode => [lcDataInCode]

def size : Cmd → ℕ
  | dyldInfo => dyldInfoCommandSize
  | symtab => symtabCommandSize
  | dysymtab => dysymtabCommandSize
  | functionStarts | dataInCode => linkeditDataCommandSize

/-- A 4-byte field of the kind's record, past the `cmd` word. -/
def Slot (k : Cmd) (f : ℕ) : Prop := 4 ≤ f ∧ f % 4 = 0 ∧ f + 4 ≤ k.size

instance (k : Cmd) (f : ℕ) : Decidable (k.Slot f) := inferInstanceAs (Decidable (_ ∧ _))

theorem ids_disjoint {k k' : Cmd} (hk : k ≠ k') {id : ℕ} (h : id ∈ k.ids) (h' : id ∈ k'.ids) :
    False := by
  have hall : ∀ k ∈ all, ∀ k' ∈ all, k ≠ k' → ∀ id ∈ k.ids, id ∉ k'.ids := by decide
  exact hall k (mem_all k) k' (mem_all k') hk id h h'

theorem segment_not_mem_ids (P : PointerWidth) (k : Cmd) : segmentCommand P ∉ k.ids := by
  cases P <;> cases k <;> decide

theorem minCommandSize_eq (P : PointerWidth) {k : Cmd} {id : ℕ} (h : id ∈ k.ids) :
    minCommandSize P id = k.size := by
  cases k <;> simp only [ids, List.mem_cons, List.mem_singleton, List.not_mem_nil, or_false] at h <;>
    rcases h with rfl | rfl <;> rfl

end Cmd

theorem minCommandSize_ge (P : PointerWidth) (cmd : ℕ) : 8 ≤ minCommandSize P cmd := by
  unfold minCommandSize
  split_ifs <;> first | decide | (cases P <;> decide)

theorem minCommandSize_segment (P : PointerWidth) : minCommandSize P (segmentCommand P) = P.segmentSize := by
  cases P <;> rfl

variable {P : PointerWidth} {mCtx : MachoContext} {hdr : Mem}

theorem commands_apart (hwf : WellFormed P mCtx hdr) {c c' : ℕ} (hc : c ∈ mCtx.loadCommands)
    (hc' : c' ∈ mCtx.loadCommands) (hne : c ≠ c') :
    Apart c (read32 hdr (c + cmdsizeOff)) c' (read32 hdr (c' + cmdsizeOff)) :=
  hwf.disjoint.forall (fun _ _ h => Or.symm h) hc hc' hne

theorem getLoadCommand_spec {cmds : List ℕ} {c : ℕ} (h : mCtx.getLoadCommand hdr cmds = some c) :
    c ∈ mCtx.loadCommands ∧ read32 hdr c ∈ cmds := by
  unfold MachoContext.getLoadCommand at h
  exact ⟨List.mem_of_find?_eq_some h, by simpa using List.find?_some h⟩

def cmdOf (im : Image) : Cmd → Option ℕ
  | .dyldInfo => im.o.dyldInfo
  | .symtab => some im.st
  | .dysymtab => some im.dy
  | .functionStarts => im.functionStarts
  | .dataInCode => im.dataInCode

/-- The image is well formed, the optimizer found its `LC_SYMTAB` and `LC_DYSYMTAB`, and each
command a run uses is one of its load commands, with an identifier of its kind. -/
structure Placed (im : Image) : Prop where
  wf : WellFormed im.o.width im.o.mCtx im.hdr
  symTab : im.o.symTab = some im.st
  dySymTab : im.o.dySymTab = some im.dy
  mem : ∀ k c, cmdOf im k = some c → c ∈ im.o.mCtx.loadCommands ∧ read32 im.hdr c ∈ k.ids

/-- Every store of `log` is to a field named in `W`. -/
def StoresIn (im : Image) (log : List (ℕ × ℕ)) (W : List (Cmd × ℕ)) : Prop :=
  ∀ w ∈ log, ∃ k f c, (k, f) ∈ W ∧ cmdOf im k = some c ∧ w.1 = c + f

namespace Placed

variable {im : Image} (hp : Placed im) {k k' : Cmd} {c c' f f' : ℕ}
include hp

theorem inside (hc : cmdOf im k = some c) : k.size ≤ read32 im.hdr (c + cmdsizeOff) := by
  obtain ⟨hmem, hid⟩ := hp.mem k c hc
  rw [← Cmd.minCommandSize_eq im.o.width hid]
  exact hp.wf.sized c hmem

theorem apart (hc : cmdOf im k = some c) (hc' : cmdOf im k' = some c') (hf : k.Slot f)
    (hf' : k'.Slot f') (hne : (k, f) ≠ (k', f')) : Apart (c + f) 4 (c' + f') 4 := by
  unfold Cmd.Slot at hf hf'
  by_cases hk : k = k'
  · subst hk
    rw [hc] at hc'
    cases hc'
    have : f ≠ f' := fun h => hne (by rw [h])
    unfold Apart
    omega
  · have hcc : c ≠ c' := fun h =>
      Cmd.ids_disjoint hk (hp.mem k c hc).2 (h ▸ (hp.mem k' c' hc').2)
    have h := commands_apart hp.wf (hp.mem k c hc).1 (hp.mem k' c' hc').1 hcc
    have h₁ := hp.inside hc
    have h₂ := hp.inside hc'
    unfold Apart at h ⊢
    omega

theorem apart_cmd (hc : cmdOf im k = some c) (hf : k.Slot f) {lc : ℕ}
    (hlc : lc ∈ im.o.mCtx.loadCommands) : Apart (c + f) 4 lc 4 := by
  unfold Cmd.Slot at hf
  by_cases h : c = lc
  · subst h
    unfold Apart
    omega
  · have hd := commands_apart hp.wf (hp.mem k c hc).1 hlc h
    have h₁ := hp.inside hc
    have h₂ := (minCommandSize_ge im.o.width (read32 im.hdr lc)).trans (hp.wf.sized lc hlc)
    unfold Apart at hd ⊢
    omega

theorem apart_segment (hc : cmdOf im k = some c) (hf : k.Slot f) {seg n : ℕ}
    (hseg : seg ∈ im.o.mCtx.loadCommands) (hid : read32 im.hdr seg = segmentCommand im.o.width)
    (hn : f' + n ≤ im.o.width.segmentSize) : Apart (c + f) 4 (seg + f') n := by
  unfold Cmd.Slot at hf
  have hne : c ≠ seg := fun h =>
    Cmd.segment_not_mem_ids im.o.width k (hid ▸ h ▸ (hp.mem k c hc).2)
  have hd := commands_apart hp.wf (hp.mem k c hc).1 hseg hne
  have h₁ := hp.inside hc
  have h₂ : im.o.width.segmentSize ≤ read32 im.hdr (seg + cmdsizeOff) := by
    have := hp.wf.sized seg hseg
    rwa [hid, minCommandSize_segment] at this
  unfold Apart at hd ⊢
  omega

variable {log : List (ℕ × ℕ)} {W : List (Cmd × ℕ)} (hlog : StoresIn im log W)
  (hW : ∀ p ∈ W, p.1.Slot p.2)
include hlog hW

/-- A field no store of the log names keeps its value. -/
theorem read32_writeLog (m : Mem) (hc : cmdOf im k = some c) (hf : k.Slot f) (hnot : (k, f) ∉ W) :
    read32 (writeLog m log) (c + f) = read32 m (c + f) :=
  read32_writeLog_of_apart fun w hw => by
    obtain ⟨k', f', c', hmem, hc', hw1⟩ := hlog w hw
    rw [hw1]
    exact hp.apart hc' hc (hW _ hmem) hf fun h => hnot (h ▸ hmem)

theorem read_between {s : Run} (hs : Between im log s) (hc : cmdOf im k = some c) (hf : k.Slot f)
    (hnot : (k, f) ∉ W) : read32 s.pages.hdr (c + f) = read32 im.hdr (c + f) := by
  rw [hs.hdr]
  exact hp.read32_writeLog hlog hW _ hc hf hnot

theorem read_between_pair {s : Run} (hs : Between im log s) (hc : cmdOf im k = some c)
    (hf : k.Slot f ∧ k.Slot f') (hnot : (k, f) ∉ W ∧ (k, f') ∉ W) :
    read32 s.pages.hdr (c + f) = read32 im.hdr (c + f) ∧
      read32 s.pages.hdr (c + f') = read32 im.hdr (c + f') :=
  ⟨hp.read_between hlog hW hs hc hf.1 hnot.1, hp.read_between hlog hW hs hc hf.2 hnot.2⟩

theorem reads_between {s : Run} (hs : Between im log s) (hf : Cmd.dysymtab.Slot f ∧ Cmd.dysymtab.Slot f')
    (hnot : ∀ p ∈ [((.dysymtab : Cmd), f), (.dysymtab, f'), (.symtab, symoff), (.symtab, stroff),
      (.symtab, strsize)], p ∉ W) :
    ∀ x ∈ [im.dy + f, im.dy + f', im.st + symoff, im.st + stroff, im.st + strsize],
      read32 s.pages.hdr x = read32 im.hdr x := by
  simp only [List.mem_cons, List.mem_singleton, List.not_mem_nil, or_false, forall_eq_or_imp,
    forall_eq] at hnot ⊢
  have hdy := hp.read_between_pair hlog hW hs (rfl : cmdOf im .dysymtab = _) hf ⟨hnot.1, hnot.2.1⟩
  have hst := hp.read_between_pair hlog hW hs (rfl : cmdOf im .symtab = _)
    (by decide : Cmd.symtab.Slot symoff ∧ Cmd.symtab.Slot stroff) ⟨hnot.2.2.1, hnot.2.2.2.1⟩
  exact ⟨hdy.1, hdy.2, hst.1, hst.2,
    hp.read_between hlog hW hs (rfl : cmdOf im .symtab = _) (by decide) hnot.2.2.2.2⟩

theorem read32_writeLog_cmd (m : Mem) {lc : ℕ} (hlc : lc ∈ im.o.mCtx.loadCommands) :
    read32 (writeLog m log) lc = read32 m lc :=
  read32_writeLog_of_apart fun w hw => by
    obtain ⟨k', f', c', hmem, hc', hw1⟩ := hlog w hw
    rw [hw1]
    exact hp.apart_cmd hc' (hW _ hmem) hlc

theorem readLE_writeLog_segment (m : Mem) {seg f n : ℕ} (hseg : seg ∈ im.o.mCtx.loadCommands)
    (hid : read32 im.hdr seg = segmentCommand im.o.width) (hn : f + n ≤ im.o.width.segmentSize) :
    readLE (writeLog m log) (seg + f) n = readLE m (seg + f) n :=
  readLE_writeLog_of_apart fun w hw => by
    obtain ⟨k', f', c', hmem, hc', hw1⟩ := hlog w hw
    rw [hw1]
    exact hp.apart_segment hc' (hW _ hmem) hseg hid hn

end Placed

section Stores

variable {im : Image}

theorem StoresIn.append {l₁ l₂ : List (ℕ × ℕ)} {W₁ W₂ : List (Cmd × ℕ)} (h₁ : StoresIn im l₁ W₁)
    (h₂ : StoresIn im l₂ W₂) : StoresIn im (l₁ ++ l₂) (W₁ ++ W₂) := fun w hw => by
  rcases List.mem_append.mp hw with hw | hw
  · obtain ⟨k, f, c, hm, hc, he⟩ := h₁ w hw
    exact ⟨k, f, c, List.mem_append_left _ hm, hc, he⟩
  · obtain ⟨k, f, c, hm, hc, he⟩ := h₂ w hw
    exact ⟨k, f, c, List.mem_append_right _ hm, hc, he⟩

theorem storesIn_nil : StoresIn im [] [] := fun _ h => absurd h (List.not_mem_nil _)

theorem storesIn_blobLog (k : Cmd) (offField sizeField start : ℕ) :
    StoresIn im (im.blobLog (cmdOf im k) offField sizeField start) [(k, offField)] := by
  intro w hw
  unfold Image.blobLog at hw
  split at hw
  · rename_i c hc
    split at hw
    · simp at hw
    · rw [List.mem_singleton] at hw
      exact ⟨k, offField, c, List.mem_singleton_self _, hc, by rw [hw]⟩
  · simp at hw

theorem storesIn_rangeLog (startField countField start count : ℕ) :
    StoresIn im (im.rangeLog startField countField start count)
      [(.dysymtab, startField), (.dysymtab, countField)] := by
  intro w hw
  unfold Image.rangeLog at hw
  split at hw
  · simp at hw
  · simp only [List.mem_cons, List.mem_singleton, List.not_mem_nil, or_false] at hw
    rcases hw with rfl | rfl
    · exact ⟨.dysymtab, startField, im.dy, by simp, rfl, rfl⟩
    · exact ⟨.dysymtab, countField, im.dy, by simp, rfl, rfl⟩

theorem storesIn_pair {k : Cmd} {c : ℕ} (hc : cmdOf im k = some c) (f g v w : ℕ) :
    StoresIn im [(c + f, v), (c + g, w)] [(k, f), (k, g)] := by
  intro x hx
  simp only [List.mem_cons, List.mem_singleton, List.not_mem_nil, or_false] at hx
  rcases hx with rfl | rfl
  · exact ⟨k, f, c, by simp, hc, rfl⟩
  · exact ⟨k, g, c, by simp, hc, rfl⟩

end Stores

section Once

variable {im : Image}

/-- The stores of `log` are to the fields of a sublist of `W`, one store each, in order. -/
def StoresOnce (im : Image) (log : List (ℕ × ℕ)) (W : List (Cmd × ℕ)) : Prop :=
  ∃ V, V.Sublist W ∧ List.Forall₂ (fun w p => ∃ c, cmdOf im p.1 = some c ∧ w.1 = c + p.2) log V

theorem exists_of_forall₂ {α β : Type} {R : α → β → Prop} {l₁ : List α} {l₂ : List β}
    (h : List.Forall₂ R l₁ l₂) {a : α} (ha : a ∈ l₁) : ∃ b ∈ l₂, R a b := by
  induction h with
  | nil => cases ha
  | cons hab _ ih =>
    rcases List.mem_cons.mp ha with rfl | ha
    · exact ⟨_, .head _, hab⟩
    · obtain ⟨b, hb, h⟩ := ih ha
      exact ⟨b, .tail _ hb, h⟩

theorem storesOnce_nil : StoresOnce im [] [] := ⟨[], .slnil, .nil⟩

theorem StoresOnce.cons {k : Cmd} {c : ℕ} (hc : cmdOf im k = some c) (f v : ℕ)
    {log : List (ℕ × ℕ)} {W : List (Cmd × ℕ)} (h : StoresOnce im log W) :
    StoresOnce im ((c + f, v) :: log) ((k, f) :: W) :=
  let ⟨V, hV, h⟩ := h
  ⟨(k, f) :: V, hV.cons₂ _, .cons ⟨c, hc, rfl⟩ h⟩

theorem StoresOnce.append {l₁ l₂ : List (ℕ × ℕ)} {W₁ W₂ : List (Cmd × ℕ)}
    (h₁ : StoresOnce im l₁ W₁) (h₂ : StoresOnce im l₂ W₂) : StoresOnce im (l₁ ++ l₂) (W₁ ++ W₂) :=
  let ⟨V₁, hV₁, h₁⟩ := h₁
  let ⟨V₂, hV₂, h₂⟩ := h₂
  ⟨V₁ ++ V₂, hV₁.append hV₂, List.rel_append h₁ h₂⟩

theorem storesOnce_blobLog (k : Cmd) (offField sizeField start : ℕ) :
    StoresOnce im (im.blobLog (cmdOf im k) offField sizeField start) [(k, offField)] := by
  unfold Image.blobLog
  split
  · rename_i c hc
    split
    · exact ⟨[], List.nil_sublist _, .nil⟩
    · exact storesOnce_nil.cons hc _ _
  · exact ⟨[], List.nil_sublist _, .nil⟩

theorem storesOnce_rangeLog (startField countField start count : ℕ) :
    StoresOnce im (im.rangeLog startField countField start count)
      [(.dysymtab, startField), (.dysymtab, countField)] := by
  unfold Image.rangeLog
  split
  · exact ⟨[], List.nil_sublist _, .nil⟩
  · exact (storesOnce_nil.cons (k := .dysymtab) rfl _ _).cons (k := .dysymtab) rfl _ _

/-- Stores made once to distinct fields are pairwise apart. -/
theorem StoresOnce.pairwise (hp : Placed im) {log : List (ℕ × ℕ)} {W : List (Cmd × ℕ)}
    (h : StoresOnce im log W) (hW : ∀ p ∈ W, p.1.Slot p.2) (hnd : W.Nodup) :
    log.Pairwise fun a b => Apart a.1 4 b.1 4 := by
  obtain ⟨V, hV, h⟩ := h
  replace hW : ∀ p ∈ V, p.1.Slot p.2 := fun p hp => hW p (hV.subset hp)
  replace hnd := hnd.sublist hV
  clear hV
  induction h with
  | nil => exact .nil
  | @cons w p log V hwp _ ih =>
    obtain ⟨c, hc, hw⟩ := hwp
    rw [List.nodup_cons] at hnd
    refine .cons (fun w' hw' => ?_) (ih (fun q hq => hW q (.tail _ hq)) hnd.2)
    obtain ⟨p', hp', c', hc', hw'⟩ := exists_of_forall₂ (by assumption) hw'
    rw [hw, hw']
    exact hp.apart hc hc' (hW p (.head _)) (hW p' (.tail _ hp')) fun h => hnd.1 (by
      rwa [show p = p' from Prod.ext (congrArg Prod.fst h) (congrArg Prod.snd h)])

end Once

end DyldLinkedit.Commands
