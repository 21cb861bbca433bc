import Minios.Fs.Files

/-! `kernel/fs.h`, `kernel/string.c`: directory entries and names.

    A directory is a file of 16-byte entries: an inode number (0 for none) and DIRSIZ bytes of name.
    A name that is shorter is filled up with NULs; one of DIRSIZ bytes has no NUL at all. So what an
    entry is called is the bytes before the first NUL, or all of them (`Dirent.key`), and that is what
    `namecmp` compares and `strncpy` writes. -/

namespace Minios.Fs
open Schemes Function

/-! ### Strings -/

/-- A string as C has it: no NUL inside. -/
structure Str where
  bytes : List UInt8
  noNul : 0 ∉ bytes
  deriving DecidableEq

/-- A name as `skipelem` leaves it in its buffer: NUL-terminated, or DIRSIZ bytes. -/
structure Name extends Str where
  short : bytes.length ≤ DIRSIZ
  deriving DecidableEq

theorem Name.ext_bytes : ∀ {a b : Name}, a.bytes = b.bytes → a = b
  | ⟨⟨_, _⟩, _⟩, ⟨⟨_, _⟩, _⟩, rfl => rfl

/-- Byte `j` of the buffer that holds a string; NULs after its end. -/
def Str.at (x : Str) (j : ℕ) : UInt8 := x.bytes.getD j 0

def Name.dot : Name := ⟨⟨[46], by decide⟩, by decide⟩

def Name.dotdot : Name := ⟨⟨[46, 46], by decide⟩, by decide⟩

/-- The string in the first `n` bytes of a buffer. -/
def cstr : ℕ → (ℕ → UInt8) → List UInt8
  | 0, _ => []
  | n + 1, f => if f 0 = 0 then [] else f 0 :: cstr n fun j => f (j + 1)

def strncmp (p q : ℕ → UInt8) : ℕ → ℤ
  | 0 => 0
  | n + 1 =>
    if p 0 ≠ 0 ∧ p 0 = q 0 then strncmp (fun j => p (j + 1)) (fun j => q (j + 1)) n
    else (p 0).toNat - (q 0).toNat

theorem strncmp_eq_zero : ∀ (n : ℕ) (p q : ℕ → UInt8), strncmp p q n = 0 ↔ cstr n p = cstr n q
  | 0, _, _ => by simp [strncmp, cstr]
  | n + 1, p, q => by
      have hsub : ((p 0).toNat : ℤ) - (q 0).toNat = 0 ↔ p 0 = q 0 := by
        rw [sub_eq_zero, Nat.cast_inj, UInt8.toNat_inj]
      rw [strncmp, cstr, cstr]
      split
      · rename_i h
        rw [strncmp_eq_zero n, if_neg h.1, if_neg (h.2 ▸ h.1), List.cons.injEq]
        exact (and_iff_right h.2).symm
      · rename_i h
        rw [hsub]
        by_cases hp : p 0 = 0 <;> by_cases hq : q 0 = 0
        · simp [hp, hq]
        · simp [hp, hq, Ne.symm hq]
        · simp [hp, hq]
        · have hne : p 0 ≠ q 0 := fun he => h ⟨hp, he⟩
          simp [hp, hq, hne]

theorem cstr_congr {f g : ℕ → UInt8} : ∀ {n : ℕ}, (∀ j, j < n → f j = g j) → cstr n f = cstr n g
  | 0, _ => rfl
  | n + 1, h => by
      rw [cstr, cstr, h 0 (Nat.succ_pos n), cstr_congr fun j hj => h (j + 1) (Nat.succ_lt_succ hj)]

/-- A buffer that holds a string of at most `n` bytes. -/
theorem cstr_getD : ∀ (xs : List UInt8) {n : ℕ}, 0 ∉ xs → xs.length ≤ n → cstr n (fun j => xs.getD j 0) = xs
  | [], 0, _, _ => rfl
  | [], _ + 1, _, _ => rfl
  | x :: xs, n + 1, h0, hlen => by
      rw [List.mem_cons, not_or] at h0
      rw [cstr, if_neg (by exact Ne.symm h0.1)]
      exact congrArg (x :: ·) (cstr_getD xs h0.2 (Nat.le_of_succ_le_succ hlen))

theorem cstr_at (x : Name) : cstr DIRSIZ x.at = x.bytes := cstr_getD x.bytes x.noNul x.short

/-! ### Paths -/

/-- `'/'` -/
abbrev SLASH : UInt8 := 47

/-- Copy the next path element from path into name, and return the path after it. -/
def skipelem (path : Str) : Option (Name × Str) :=
  let s := path.bytes.dropWhile (· = SLASH)
  have hs : 0 ∉ s := fun h => path.noNul ((List.dropWhile_sublist _).mem h)
  if s = [] then none
  else some
    (⟨⟨(s.takeWhile (· ≠ SLASH)).take DIRSIZ,
        fun h => hs ((List.takeWhile_sublist _).mem (List.mem_of_mem_take h))⟩, List.length_take_le ..⟩,
      ⟨(s.dropWhile (· ≠ SLASH)).dropWhile (· = SLASH),
        fun h => hs ((List.dropWhile_sublist _).mem ((List.dropWhile_sublist _).mem h))⟩)

theorem skipelem_length {path rest : Str} {name : Name} (h : skipelem path = some (name, rest)) :
    rest.bytes.length < path.bytes.length := by
  rw [skipelem] at h
  split at h
  · cases h
  · rename_i hne
    obtain ⟨-, rfl⟩ := Prod.mk.inj (Option.some.inj h)
    obtain ⟨c, cs, hs⟩ := List.exists_cons_of_ne_nil hne
    have hc : c ≠ SLASH := by
      have := List.head_dropWhile_not (fun x => decide (x = SLASH)) hne
      simpa [hs] using this
    dsimp only
    rw [hs, List.dropWhile_cons_of_pos (by simpa using hc)]
    calc ((cs.dropWhile (· ≠ SLASH)).dropWhile (· = SLASH)).length
        ≤ (cs.dropWhile (· ≠ SLASH)).length := (List.dropWhile_sublist _).length_le
      _ ≤ cs.length := (List.dropWhile_sublist _).length_le
      _ < (c :: cs).length := Nat.lt_succ_self _
      _ = (path.bytes.dropWhile (· = SLASH)).length := by rw [hs]
      _ ≤ path.bytes.length := (List.dropWhile_sublist _).length_le

/-! ### Entries -/

/-- `sizeof(struct dirent)` -/
abbrev DESIZE : ℕ := 16

structure Dirent where
  inum : ℕ
  name : Fin DIRSIZ → UInt8

/-- The bytes of an entry, as `readi` delivers them. -/
def Dirent.decode (xs : List UInt8) : Dirent where
  inum := (xs.getD 0 0).toNat + 256 * (xs.getD 1 0).toNat
  name := fun j => xs.getD (2 + j.val) 0

def Dirent.encode (de : Dirent) : List UInt8 :=
  UInt8.ofNat de.inum :: UInt8.ofNat (de.inum / 256) :: List.ofFn de.name

/-- What an entry is called. -/
def Dirent.key (de : Dirent) : List UInt8 := cstr DIRSIZ (getByte de.name)

def namecmp (name : Name) (s : Fin DIRSIZ → UInt8) : ℤ := strncmp name.at (getByte s) DIRSIZ

theorem namecmp_eq_zero (name : Name) (de : Dirent) : namecmp name de.name = 0 ↔ de.key = name.bytes := by
  rw [namecmp, strncmp_eq_zero, cstr_at, Dirent.key, eq_comm]

/-- `strncpy(de.name, name, DIRSIZ); de.inum = inum;` -/
def Dirent.of (name : Name) (inum : ℕ) : Dirent := ⟨inum, fun j => name.at j⟩

/-- An entry cleared by `memset`. -/
def Dirent.zero : Dirent := ⟨0, fun _ => 0⟩

theorem key_of (name : Name) (inum : ℕ) : (Dirent.of name inum).key = name.bytes := by
  rw [Dirent.key, ← cstr_at name]
  refine cstr_congr fun j hj => ?_
  rw [getByte, dif_pos hj]
  rfl

@[simp] theorem length_encode (de : Dirent) : de.encode.length = DESIZE := by
  rw [Dirent.encode, List.length_cons, List.length_cons, List.length_ofFn]

/-- READ BACK: an entry whose inode number fits. -/
theorem decode_encode {de : Dirent} (h : de.inum < 2 ^ 16) : Dirent.decode de.encode = de := by
  obtain ⟨inum, name⟩ := de
  have hname : (fun j : Fin DIRSIZ => (List.ofFn name).getD j.val 0) = name := by
    funext j
    rw [List.getD_eq_getElem?_getD, List.getElem?_ofFn, dif_pos j.isLt]
    rfl
  have hinum : (UInt8.ofNat inum).toNat + 256 * (UInt8.ofNat (inum / 256)).toNat = inum := by
    rw [UInt8.toNat_ofNat', UInt8.toNat_ofNat']
    dsimp only at h
    omega
  have hshift : ∀ j : ℕ, (UInt8.ofNat inum :: UInt8.ofNat (inum / 256) :: List.ofFn name).getD (2 + j) 0 =
      (List.ofFn name).getD j 0 := fun j => by rw [Nat.add_comm]; rfl
  rw [Dirent.encode, Dirent.decode, Dirent.mk.injEq]
  exact ⟨hinum, funext fun j => (hshift j.val).trans (congrFun hname j)⟩

/-- Entry `k` of a directory. -/
def Node.dirent (nd : Node) (k : ℕ) : Dirent := Dirent.decode (slice nd.byte (DESIZE * k) DESIZE)

/-- Number of entries. -/
def Node.entries (nd : Node) : ℕ := nd.size / DESIZE

theorem dirent_congr {nd nd' : Node} {k : ℕ} (h : ∀ o, DESIZE * k ≤ o → o < DESIZE * k + DESIZE → nd'.byte o = nd.byte o) :
    nd'.dirent k = nd.dirent k :=
  congrArg Dirent.decode (slice_congr fun j hj => h _ (Nat.le_add_right ..) (by omega))

/-- The directory with entry `k` written over, or appended. -/
def Node.setDirent (nd : Node) (k : ℕ) (de : Dirent) : Node :=
  nd.splice (DESIZE * k) (fun j => de.encode.getD j 0) DESIZE

theorem dirent_setDirent_self (nd : Node) (k : ℕ) {de : Dirent} (h : de.inum < 2 ^ 16) :
    (nd.setDirent k de).dirent k = de := by
  have hbytes : slice (nd.setDirent k de).byte (DESIZE * k) DESIZE = de.encode := by
    refine List.ext_getElem? fun j => ?_
    rw [getElem?_slice]
    split
    · rename_i hj
      rw [Node.setDirent, Node.splice]
      dsimp only
      rw [if_pos ⟨Nat.le_add_right .., by omega⟩, Nat.add_sub_cancel_left,
        List.getD_eq_getElem _ _ (by rw [length_encode]; exact hj), ← List.getElem?_eq_getElem]
    · rename_i hj
      exact (List.getElem?_eq_none (by rw [length_encode]; exact Nat.not_lt.mp hj)).symm
  rw [Node.dirent, hbytes, decode_encode h]

theorem dirent_setDirent_ne (nd : Node) {k j : ℕ} (hj : j ≠ k) (de : Dirent) :
    (nd.setDirent k de).dirent j = nd.dirent j := by
  refine dirent_congr fun o h1 h2 => ?_
  rw [Node.setDirent, Node.splice]
  dsimp only
  rw [if_neg]
  intro h
  rcases Nat.lt_or_gt_of_ne hj with hlt | hlt <;> simp only [DESIZE] at * <;> omega

end Minios.Fs
