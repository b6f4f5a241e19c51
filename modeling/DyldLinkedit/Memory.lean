import Mathlib

/-!
# Byte memories

The extractor works on raw mappings: the image's header pages, its LINKEDIT pages, the
symbols subcache and the scratch buffer returned by `calloc`. Each is a byte memory
indexed by address. A `uint32_t` store keeps its value modulo `2^32`; `u32` is that
reduction, applied wherever the code's 32-bit arithmetic can wrap.
-/

set_option autoImplicit false

namespace DyldLinkedit.Memory

abbrev Mem := ℕ → UInt8

/-- The value a `uint32_t` keeps. -/
def u32 (n : ℕ) : ℕ := n % 2 ^ 32

/-- Little-endian value of the `n` bytes at `a`. -/
def readLE (m : Mem) (a : ℕ) : ℕ → ℕ
  | 0 => 0
  | n + 1 => (m a).toNat + 256 * readLE m (a + 1) n

def read32 (m : Mem) (a : ℕ) : ℕ := readLE m a 4

def writeLE (m : Mem) (a v n : ℕ) : Mem :=
  fun x => if a ≤ x ∧ x < a + n then UInt8.ofNat (v / 256 ^ (x - a)) else m x

def write32 (m : Mem) (a v : ℕ) : Mem := writeLE m a v 4

/-- `memcpy(dst + d, src + s, n)`; also `memmove` when `src` is the memory before the move. -/
def copy (dst : Mem) (d : ℕ) (src : Mem) (s n : ℕ) : Mem :=
  fun x => if d ≤ x ∧ x < d + n then src (s + (x - d)) else dst x

/-- `memset(m + d, b, n)`. -/
def fill (m : Mem) (d n : ℕ) (b : UInt8) : Mem :=
  fun x => if d ≤ x ∧ x < d + n then b else m x

/-- Copy the bytes of a string (a `std::string_view`) to `d`, without a terminator. -/
def copyBytes (m : Mem) (d : ℕ) (bs : List UInt8) : Mem :=
  fun x => if d ≤ x ∧ x < d + bs.length then bs.getD (x - d) 0 else m x

/-- The NUL-terminated string at `a`, scanned over at most `n` bytes. -/
def cstr (m : Mem) (a : ℕ) : ℕ → List UInt8
  | 0 => []
  | n + 1 => if m a = 0 then [] else m a :: cstr m (a + 1) n

/-- Two byte ranges `[a, a + n)` and `[b, b + k)` share no byte. -/
def Apart (a n b k : ℕ) : Prop := a + n ≤ b ∨ b + k ≤ a

instance (a n b k : ℕ) : Decidable (Apart a n b k) := inferInstanceAs (Decidable (_ ∨ _))

theorem byte_toNat (n : ℕ) : (UInt8.ofNat n).toNat = n % 256 := by
  simp [UInt8.ofNat, UInt8.toNat]

@[simp] theorem u32_zero : u32 0 = 0 := rfl

theorem u32_of_lt {n : ℕ} (h : n < 2 ^ 32) : u32 n = n := Nat.mod_eq_of_lt h

theorem u32_lt (n : ℕ) : u32 n < 2 ^ 32 := Nat.mod_lt _ (by decide)

theorem readLE_congr {m m' : Mem} {a b : ℕ} (n : ℕ) (h : ∀ i < n, m (a + i) = m' (b + i)) :
    readLE m a n = readLE m' b n := by
  induction n generalizing a b with
  | zero => rfl
  | succ n ih =>
    have h0 : m a = m' b := h 0 (by omega)
    have hs : ∀ i < n, m (a + 1 + i) = m' (b + 1 + i) := fun i hi => by
      simpa [Nat.add_assoc, Nat.add_comm 1 i] using h (i + 1) (by omega)
    simp only [readLE, h0, ih hs]

theorem read32_congr {m m' : Mem} {a : ℕ} (h : ∀ i < 4, m (a + i) = m' (a + i)) :
    read32 m a = read32 m' a := readLE_congr 4 h

theorem read32_eq (m : Mem) (a : ℕ) : read32 m a = (m a).toNat + 256 * (m (a + 1)).toNat +
    65536 * (m (a + 2)).toNat + 16777216 * (m (a + 3)).toNat := by
  simp only [read32, readLE, Nat.add_assoc, Nat.reduceAdd]
  omega

theorem byte_of_read32 (m : Mem) (a : ℕ) {i : ℕ} (hi : i < 4) :
    m (a + i) = UInt8.ofNat (read32 m a / 256 ^ i) := by
  have h0 := (m a).toNat_lt_size
  have h1 := (m (a + 1)).toNat_lt_size
  have h2 := (m (a + 2)).toNat_lt_size
  have h3 := (m (a + 3)).toNat_lt_size
  apply UInt8.toNat.inj
  rw [byte_toNat, read32_eq]
  obtain rfl | rfl | rfl | rfl : i = 0 ∨ i = 1 ∨ i = 2 ∨ i = 3 := by omega
  all_goals simp only [UInt8.size, Nat.add_zero, pow_zero, pow_one, Nat.reducePow] at *; omega

theorem readLE_lt (m : Mem) (a n : ℕ) : readLE m a n < 256 ^ n := by
  induction n generalizing a with
  | zero => simp [readLE]
  | succ n ih =>
    have hb : (m a).toNat < 256 := (m a).toNat_lt_size
    have := ih (a + 1)
    simp only [readLE, Nat.pow_succ]
    omega

theorem read32_lt (m : Mem) (a : ℕ) : read32 m a < 2 ^ 32 := readLE_lt m a 4

theorem writeLE_at (m : Mem) (a v : ℕ) {n i : ℕ} (h : i < n) :
    writeLE m a v n (a + i) = UInt8.ofNat (v / 256 ^ i) := by
  simp [writeLE, h]

theorem writeLE_of_apart (m : Mem) (a v n : ℕ) {x : ℕ} (h : x < a ∨ a + n ≤ x) :
    writeLE m a v n x = m x := by
  simp only [writeLE]
  split_ifs <;> first | rfl | omega

theorem read32_write32_self (m : Mem) (a v : ℕ) : read32 (write32 m a v) a = u32 v := by
  have h0 := writeLE_at m a v (n := 4) (i := 0) (by omega)
  simp only [Nat.add_zero] at h0
  simp only [read32_eq, write32, h0, writeLE_at m a v (show 1 < 4 by omega),
    writeLE_at m a v (show 2 < 4 by omega), writeLE_at m a v (show 3 < 4 by omega),
    byte_toNat, u32]
  omega

theorem readLE_writeLE_self (m : Mem) (a v n : ℕ) : readLE (writeLE m a v n) a n = v % 256 ^ n := by
  induction n generalizing a v with
  | zero => simp [readLE, Nat.mod_one]
  | succ n ih =>
    have h0 : writeLE m a v (n + 1) a = UInt8.ofNat v := by
      simpa using writeLE_at m a v (Nat.succ_pos n)
    have hs : readLE (writeLE m a v (n + 1)) (a + 1) n =
        readLE (writeLE m (a + 1) (v / 256) n) (a + 1) n := readLE_congr n fun i hi => by
      rw [writeLE_at _ _ _ hi, show a + 1 + i = a + (i + 1) by omega,
        writeLE_at _ _ _ (by omega : i + 1 < n + 1), Nat.pow_succ', Nat.div_div_eq_div_mul]
    rw [readLE, h0, hs, ih, byte_toNat, Nat.pow_succ', Nat.mod_mul]

theorem readLE_writeLE_of_apart (m : Mem) {a b n k : ℕ} (v : ℕ) (h : Apart a n b k) :
    readLE (writeLE m a v n) b k = readLE m b k :=
  readLE_congr k fun i hi => writeLE_of_apart m a v n (by unfold Apart at h; omega)

theorem readLE_write32_of_apart (m : Mem) {a b n : ℕ} (v : ℕ) (h : Apart a 4 b n) :
    readLE (write32 m a v) b n = readLE m b n := readLE_writeLE_of_apart m v h

theorem read32_write32_of_apart (m : Mem) {a b : ℕ} (v : ℕ) (h : Apart a 4 b 4) :
    read32 (write32 m a v) b = read32 m b := readLE_write32_of_apart m v h

@[simp] theorem copy_zero (dst : Mem) (d : ℕ) (src : Mem) (s : ℕ) : copy dst d src s 0 = dst := by
  funext x
  simp only [copy]
  split_ifs <;> first | rfl | omega

theorem copy_of_apart (dst : Mem) (d : ℕ) (src : Mem) (s n : ℕ) {x : ℕ} (h : x < d ∨ d + n ≤ x) :
    copy dst d src s n x = dst x := by
  simp only [copy]
  split_ifs <;> first | rfl | omega

theorem copy_at (dst : Mem) (d : ℕ) (src : Mem) (s n : ℕ) {i : ℕ} (h : i < n) :
    copy dst d src s n (d + i) = src (s + i) := by
  simp [copy, h]

theorem read32_copy_of_apart (dst : Mem) {d : ℕ} (src : Mem) (s : ℕ) {n a : ℕ} (h : Apart d n a 4) :
    read32 (copy dst d src s n) a = read32 dst a :=
  read32_congr fun _ _ => copy_of_apart dst d src s n (by unfold Apart at h; omega)

theorem copyBytes_of_apart (m : Mem) (d : ℕ) (bs : List UInt8) {x : ℕ}
    (h : x < d ∨ d + bs.length ≤ x) : copyBytes m d bs x = m x := by
  simp only [copyBytes]
  split_ifs <;> first | rfl | omega

theorem copyBytes_at (m : Mem) (d : ℕ) (bs : List UInt8) {i : ℕ} (h : i < bs.length) :
    copyBytes m d bs (d + i) = bs.getD i 0 := by
  simp [copyBytes, h]

theorem cstr_congr {m m' : Mem} {a b : ℕ} (n : ℕ) (h : ∀ i < n, m (a + i) = m' (b + i)) :
    cstr m a n = cstr m' b n := by
  induction n generalizing a b with
  | zero => rfl
  | succ n ih =>
    have h0 : m a = m' b := h 0 (by omega)
    have hs : ∀ i < n, m (a + 1 + i) = m' (b + 1 + i) := fun i hi => by
      simpa [Nat.add_assoc, Nat.add_comm 1 i] using h (i + 1) (by omega)
    simp only [cstr, h0, ih hs]

theorem zero_not_mem_cstr (m : Mem) (a n : ℕ) : (0 : UInt8) ∉ cstr m a n := by
  induction n generalizing a with
  | zero => simp [cstr]
  | succ n ih =>
    simp only [cstr]
    split
    · simp
    · simpa [Ne.symm ‹¬m a = 0›] using ih (a + 1)

theorem cstr_eq_of_bytes {m : Mem} {a n : ℕ} {k : List UInt8}
    (hk : ∀ j < k.length, m (a + j) = k.getD j 0) (hnul : m (a + k.length) = 0)
    (hfree : (0 : UInt8) ∉ k) (hn : k.length < n) : cstr m a n = k := by
  induction k generalizing a n with
  | nil =>
    obtain ⟨n, rfl⟩ : ∃ n', n = n' + 1 := ⟨n - 1, by simp at hn; omega⟩
    simpa [cstr] using hnul
  | cons b k ih =>
    obtain ⟨n, rfl⟩ : ∃ n', n = n' + 1 := ⟨n - 1, by simp at hn; omega⟩
    have h0 : m a = b := by simpa using hk 0 (by simp)
    simp only [List.mem_cons, not_or] at hfree
    have hrest := ih (a := a + 1) (n := n) (fun j hj => by
      simpa [Nat.add_assoc, Nat.add_comm 1 j] using hk (j + 1) (by simp; omega))
      (by simpa [Nat.add_assoc, Nat.add_comm 1] using hnul) hfree.2 (by simp at hn; omega)
    simp [cstr, h0, Ne.symm hfree.1, hrest]

theorem cstr_bytes (m : Mem) (a : ℕ) {n : ℕ} (hn : (cstr m a n).length < n) :
    (List.range ((cstr m a n).length + 1)).map (fun j => m (a + j)) = cstr m a n ++ [0] := by
  induction n generalizing a with
  | zero => simp at hn
  | succ n ih =>
    by_cases h0 : m a = 0
    · simp [cstr, h0, List.range_succ]
    · simp only [cstr, h0, if_false, List.length_cons] at hn ⊢
      rw [List.range_succ_eq_map, List.map_cons, List.map_map, List.cons_append, Nat.add_zero,
        ← ih (a + 1) (by omega)]
      congr 2
      funext j
      simp only [Function.comp, Nat.succ_eq_add_one]
      rw [Nat.add_comm j 1, Nat.add_assoc]

example : read32 (write32 (fun _ => 0) 100 0x12345678) 100 = 0x12345678 := by decide

/-- The 32-bit stores of `log`, made in order. A run's changes to the load commands are
such a log. -/
def writeLog (m : Mem) (log : List (ℕ × ℕ)) : Mem := log.foldl (fun m w => write32 m w.1 w.2) m

@[simp] theorem writeLog_nil (m : Mem) : writeLog m [] = m := rfl

@[simp] theorem writeLog_cons (m : Mem) (w : ℕ × ℕ) (log : List (ℕ × ℕ)) :
    writeLog m (w :: log) = writeLog (write32 m w.1 w.2) log := rfl

theorem writeLog_append (m : Mem) (l₁ l₂ : List (ℕ × ℕ)) :
    writeLog m (l₁ ++ l₂) = writeLog (writeLog m l₁) l₂ := List.foldl_append _ _ _ _

theorem writeLog_of_apart {m : Mem} {log : List (ℕ × ℕ)} {x : ℕ}
    (h : ∀ w ∈ log, x < w.1 ∨ w.1 + 4 ≤ x) : writeLog m log x = m x := by
  induction log generalizing m with
  | nil => rfl
  | cons w log ih =>
    simp only [List.mem_cons, forall_eq_or_imp] at h
    rw [writeLog_cons, ih h.2]
    exact writeLE_of_apart m _ _ _ h.1

theorem readLE_writeLog_of_apart {m : Mem} {log : List (ℕ × ℕ)} {a n : ℕ}
    (h : ∀ w ∈ log, Apart w.1 4 a n) : readLE (writeLog m log) a n = readLE m a n :=
  readLE_congr n fun i hi => writeLog_of_apart fun w hw => by
    have := h w hw
    unfold Apart at this
    omega

theorem read32_writeLog_of_apart {m : Mem} {log : List (ℕ × ℕ)} {a : ℕ}
    (h : ∀ w ∈ log, Apart w.1 4 a 4) : read32 (writeLog m log) a = read32 m a :=
  readLE_writeLog_of_apart h

theorem read32_writeLog_of_mem {m : Mem} {log : List (ℕ × ℕ)} {w : ℕ × ℕ}
    (hlog : log.Pairwise fun a b => Apart a.1 4 b.1 4) (hw : w ∈ log) :
    read32 (writeLog m log) w.1 = u32 w.2 := by
  induction log generalizing m with
  | nil => simp at hw
  | cons v log ih =>
    rw [List.pairwise_cons] at hlog
    rw [writeLog_cons]
    rcases List.mem_cons.mp hw with rfl | hw
    · rw [read32_writeLog_of_apart fun u hu => ?_, read32_write32_self]
      have := hlog.1 u hu
      unfold Apart at this ⊢
      omega
    · exact ih hlog.2 hw

end DyldLinkedit.Memory
