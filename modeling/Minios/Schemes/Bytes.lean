import Mathlib

/-! Little-endian fields in a block of bytes.

    A block of `n` bytes is a function `Fin n → UInt8`. C code overlays structs on such blocks; a
    struct field of `k` bytes at offset `i` is read by `getLE` and written by `setLE`. The two laws
    a client needs: a field reads back what was written to it (modulo its width), and writing a
    field leaves every disjoint field alone. -/

namespace Minios.Schemes

variable {n : ℕ}

/-- Byte `i` of a block (0 past its end). -/
def getByte (b : Fin n → UInt8) (i : ℕ) : UInt8 := if h : i < n then b ⟨i, h⟩ else 0

/-- Store one byte (past the end: nothing). -/
def setByte (b : Fin n → UInt8) (i : ℕ) (v : UInt8) : Fin n → UInt8 :=
  fun j => if j.val = i then v else b j

/-- The `k`-byte little-endian number at offset `i`. -/
def getLE (b : Fin n → UInt8) : ℕ → ℕ → ℕ
  | _, 0 => 0
  | i, k + 1 => (getByte b i).toNat + 256 * getLE b (i + 1) k

/-- Store the low `k` bytes of `v` at offset `i`, least significant first. -/
def setLE (b : Fin n → UInt8) : ℕ → ℕ → ℕ → (Fin n → UInt8)
  | _, 0, _ => b
  | i, k + 1, v => setLE (setByte b i (UInt8.ofNat v)) (i + 1) k (v / 256)

theorem getByte_setByte (b : Fin n → UInt8) (i j : ℕ) (v : UInt8) (hi : i < n) :
    getByte (setByte b i v) j = if j = i then v else getByte b j := by
  unfold getByte setByte
  by_cases hj : j < n
  · simp [hj]
  · have : j ≠ i := by omega
    simp [hj, this]

theorem getByte_setByte_ne (b : Fin n → UInt8) {i j : ℕ} (v : UInt8) (h : j ≠ i) :
    getByte (setByte b i v) j = getByte b j := by
  unfold getByte setByte
  by_cases hj : j < n
  · simp [hj, h]
  · simp [hj]

theorem getByte_setLE_ne (k : ℕ) : ∀ (b : Fin n → UInt8) (i v : ℕ) {j : ℕ},
    (j < i ∨ i + k ≤ j) → getByte (setLE b i k v) j = getByte b j := by
  induction k with
  | zero => intro b i v j _; rfl
  | succ k ih =>
    intro b i v j h
    rw [setLE, ih _ _ _ (by omega), getByte_setByte_ne _ _ (by omega)]

/-- A field only depends on its own bytes. -/
theorem getLE_congr {m : ℕ} (a : Fin n → UInt8) (b : Fin m → UInt8) (k : ℕ) : ∀ i j : ℕ,
    (∀ t < k, getByte a (i + t) = getByte b (j + t)) → getLE a i k = getLE b j k := by
  induction k with
  | zero => intro i j _; rfl
  | succ k ih =>
    intro i j h
    have h0 := h 0 (by omega)
    rw [Nat.add_zero, Nat.add_zero] at h0
    rw [getLE, getLE, h0, ih (i + 1) (j + 1)]
    intro t ht
    have := h (t + 1) (by omega)
    rwa [show i + 1 + t = i + (t + 1) by omega, show j + 1 + t = j + (t + 1) by omega]

theorem getByte_zero (i : ℕ) : getByte (fun _ : Fin n => 0) i = 0 := by
  rw [getByte]; split <;> rfl

theorem getLE_zero (k : ℕ) : ∀ i, getLE (fun _ : Fin n => 0) i k = 0 := by
  induction k with
  | zero => intro i; rfl
  | succ k ih => intro i; rw [getLE, getByte_zero, ih]; rfl

/-- FRAME: writing a field leaves a disjoint field alone. -/
theorem getLE_setLE_disj (b : Fin n → UInt8) {i k v j m : ℕ} (h : i + k ≤ j ∨ j + m ≤ i) :
    getLE (setLE b i k v) j m = getLE b j m :=
  getLE_congr _ _ m j j fun t ht => getByte_setLE_ne k b i v (by omega)

/-- READ BACK: a field holds what was written, modulo its width. -/
theorem getLE_setLE_same (k : ℕ) : ∀ (b : Fin n → UInt8) (i v : ℕ), i + k ≤ n →
    getLE (setLE b i k v) i k = v % 256 ^ k := by
  induction k with
  | zero => intro b i v _; rw [pow_zero, Nat.mod_one]; rfl
  | succ k ih =>
    intro b i v h
    rw [getLE, setLE, ih _ _ _ (by omega), getByte_setLE_ne _ _ _ _ (by omega),
      getByte_setByte _ _ _ _ (by omega), if_pos rfl, UInt8.toNat_ofNat', pow_succ' 256,
      Nat.mod_mul]

theorem getLE_lt (b : Fin n → UInt8) (k : ℕ) : ∀ i, getLE b i k < 256 ^ k := by
  induction k with
  | zero => intro i; simp [getLE]
  | succ k ih =>
    intro i
    have h1 := ih (i + 1)
    have h2 := (getByte b i).toNat_lt
    rw [getLE, pow_succ']
    omega

/-- Overwrite the bytes from offset `o` on. -/
def setBytes (b : Fin n → UInt8) (o : ℕ) (xs : List UInt8) : Fin n → UInt8 := fun j =>
  if o ≤ j.val then xs.getD (j.val - o) (b j) else b j

theorem getByte_setBytes (b : Fin n → UInt8) {o : ℕ} {xs : List UInt8} (h : o + xs.length ≤ n) (j : ℕ) :
    getByte (setBytes b o xs) j = if o ≤ j ∧ j < o + xs.length then xs.getD (j - o) 0 else getByte b j := by
  unfold getByte setBytes
  by_cases hj : j < n
  · rw [dif_pos hj, dif_pos hj]
    by_cases ho : o ≤ j
    · by_cases hx : j < o + xs.length
      · have hlt : j - o < xs.length := by omega
        rw [if_pos ho, if_pos ⟨ho, hx⟩, List.getD_eq_getElem _ _ hlt, List.getD_eq_getElem _ _ hlt]
      · rw [if_pos ho, if_neg (by omega), List.getD_eq_default _ _ (show xs.length ≤ j - o by omega)]
    · rw [if_neg ho, if_neg (by omega)]
  · rw [dif_neg hj, dif_neg hj, if_neg (by omega)]

/-! ### Slices -/

/-- `m` values of a function from `lo` on. -/
def slice {α : Type*} (f : ℕ → α) (lo m : ℕ) : List α := (List.range m).map fun j => f (lo + j)

@[simp] theorem length_slice {α : Type*} (f : ℕ → α) (lo m : ℕ) : (slice f lo m).length = m := by
  simp [slice]

@[simp] theorem slice_zero {α : Type*} (f : ℕ → α) (lo : ℕ) : slice f lo 0 = [] := rfl

theorem slice_add {α : Type*} (f : ℕ → α) (lo a b : ℕ) :
    slice f lo (a + b) = slice f lo a ++ slice f (lo + a) b := by
  simp [slice, List.range_add, Nat.add_assoc]

theorem slice_congr {α : Type*} {f g : ℕ → α} {lo lo' m : ℕ} (h : ∀ j, j < m → f (lo + j) = g (lo' + j)) :
    slice f lo m = slice g lo' m :=
  List.map_congr_left fun j hj => h j (List.mem_range.mp hj)

theorem getElem?_slice {α : Type*} (f : ℕ → α) (lo m j : ℕ) :
    (slice f lo m)[j]? = if j < m then some (f (lo + j)) else none := by
  simp only [slice, List.getElem?_map]
  split <;> simp_all

end Minios.Schemes
