import Minios.Schemes.Run
import Minios.Fs.Mkfs
import Minios.Fs.Table

/-! `kernel/fs.c`: inodes refine byte arrays.

    The abstract file system maps inode numbers to byte lists. It is told what each call was asked
    and what it returned, and accepts the answers a byte array can give:

        readi   returns the bytes of the array from `off` on, at most `n`
        writei  returns how many bytes it took, all of them unless no block is free, and
                those bytes are in the array afterwards
        itrunc  leaves the empty array

    Every other array stays the same. -/

namespace Minios.Fs
open Schemes Function

/-- A call by the holder of an inode's lock. Sources and destinations are mapped. -/
inductive Call where
  | readi (p : IPtr) (off n : ℕ)
  | writei (p : IPtr) (off : ℕ) (xs : List UInt8)
  | itrunc (p : IPtr)

/-- What was seen of a call: the inode number, the arguments and what was returned; after `writei`
    also whether the free map is full. -/
inductive Event where
  | read (i off n : ℕ) (r : ℤ) (out : List UInt8)
  | write (i off : ℕ) (xs : List UInt8) (r : ℤ) (full : Bool)
  | trunc (i : ℕ)

/-- No bit of the free map is clear. -/
def isFull (s : FS) : Bool := (List.range s.sb.size).all (bitAt s.sb s.disk)

def Call.exec : Call → M Event
  | .readi p off n => do
    let ip ← inode p
    let (r, out) ← Fs.readi p (fun _ => true) off n
    return .read ip.inum off n r out
  | .writei p off xs => do
    let ip ← inode p
    let r ← Fs.writei p (fun j => xs[j]?) off xs.length
    return .write ip.inum off xs r (isFull (← Prog.get))
  | .itrunc p => do
    let ip ← inode p
    Fs.itrunc p
    return .trunc ip.inum

/-- The calls one after the other. -/
def execAll : List Call → M (List Event)
  | [] => return []
  | c :: cs => do
    let e ← c.exec
    return e :: (← execAll cs)

/-- The caller holds the inode, and the arguments are `uint`s. -/
def Call.Ok (s : FS) : Call → Prop
  | .readi p off n => Ready s p ∧ off < 2 ^ 32 ∧ n < 2 ^ 32
  | .writei p off xs => Ready s p ∧ off < 2 ^ 32 ∧ xs.length < 2 ^ 32
  | .itrunc p => Ready s p

/-- The abstract file system. -/
abbrev Arrays := ℕ → List UInt8

/-- `ys` put into `xs` at `off`. -/
def spliceAt (xs : List UInt8) (off : ℕ) (ys : List UInt8) : List UInt8 :=
  xs.take off ++ ys ++ xs.drop (off + ys.length)

/-- What the abstract file system does when it is told an event, `none` if it cannot happen. -/
def Arrays.step (a : Arrays) : Event → Option Arrays
  | .read i off n r out =>
    if off ≤ (a i).length ∧ off + n < 2 ^ 32 then
      if out = ((a i).drop off).take n ∧ r = out.length then some a else none
    else if r = 0 ∧ out = [] then some a else none
  | .write i off xs r full =>
    if off ≤ (a i).length ∧ off + xs.length ≤ MAXFILE * BSIZE then
      if 0 ≤ r ∧ r ≤ xs.length ∧ (r < xs.length → full = true) then
        some (update a i (spliceAt (a i) off (xs.take r.toNat)))
      else none
    else if r = -1 then some a else none
  | .trunc i => some (update a i [])

/-- Each inode as the array of its bytes. -/
def contents (s : FS) : Arrays := fun i => (node s i).contents

variable {s t : FS} {p : IPtr}

/-! ### Slices of a node -/

theorem length_contents (nd : Node) : nd.contents.length = nd.size := length_slice ..

theorem slice_eq_take_drop (nd : Node) {off n : ℕ} (h : off ≤ nd.size) :
    slice nd.byte off (min n (nd.size - off)) = (nd.contents.drop off).take n := by
  refine List.ext_getElem? fun j => ?_
  rw [List.getElem?_take, List.getElem?_drop, Node.contents, getElem?_slice, getElem?_slice, Nat.zero_add]
  rcases Nat.lt_or_ge j (min n (nd.size - off)) with hj | hj
  · rw [if_pos hj, if_pos (by omega), if_pos (by omega)]
  · rw [if_neg (by omega)]
    split
    · rw [if_neg (by omega)]
    · rfl

theorem contents_splice (nd : Node) {off : ℕ} (h : off ≤ nd.size) (f : ℕ → UInt8) (m : ℕ) :
    (nd.splice off f m).contents = spliceAt nd.contents off (slice f 0 m) := by
  have hlen : (nd.contents.take off).length = off := by
    rw [List.length_take, length_contents, min_eq_left h]
  refine List.ext_getElem? fun j => ?_
  rw [spliceAt, List.append_assoc, List.getElem?_append, List.getElem?_append, hlen, length_slice,
    List.getElem?_take, List.getElem?_drop, Node.contents, Node.contents, getElem?_slice, getElem?_slice,
    getElem?_slice, getElem?_slice]
  simp only [Nat.zero_add, Node.splice]
  rcases Nat.lt_or_ge j off with h1 | h1
  · rw [if_pos (by omega), if_neg (by omega), if_pos h1, if_pos h1, if_pos (by omega)]
  · rw [if_neg (show ¬ j < off by omega)]
    rcases Nat.lt_or_ge j (off + m) with h2 | h2
    · rw [if_pos (by omega), if_pos ⟨h1, h2⟩, if_pos (by omega), if_pos (by omega)]
    · rw [if_neg (show ¬ (off ≤ j ∧ j < off + m) by omega), if_neg (show ¬ j - off < m by omega),
        show off + m + (j - off - m) = j by omega]
      rcases Nat.lt_or_ge j nd.size with h3 | h3
      · rw [if_pos (by omega), if_pos h3]
      · rw [if_neg (by omega), if_neg (by omega)]

theorem slice_srcByte (xs : List UInt8) {m : ℕ} (h : m ≤ xs.length) :
    slice (srcByte fun j => xs[j]?) 0 m = xs.take m := by
  refine List.ext_getElem? fun j => ?_
  rw [getElem?_slice, List.getElem?_take, Nat.zero_add, srcByte]
  split
  · rw [List.getElem?_eq_getElem (by omega)]; rfl
  · rfl

theorem contents_update {nd : Node} {i : ℕ} (h : node t = update (node s) i nd) :
    contents t = update (contents s) i nd.contents := by
  funext j
  rw [contents, h]
  rcases eq_or_ne j i with rfl | hne
  · rw [update_self, update_self]
  · rw [update_of_ne hne, update_of_ne hne, contents]

theorem isFull_of_full (h : Full s.sb s.disk) : isFull s = true :=
  List.all_eq_true.mpr fun b hb => h b (List.mem_range.mp hb)

/-! ### One call, and all of them -/

theorem ready_of_view (h : view t = view s) (hp : Ready s p) : Ready t p := by
  have hk := congrFun h p
  simp only [view, Prod.mk.injEq] at hk
  exact ⟨hk.1 ▸ hp.ref, hk.2.2 ▸ hp.valid⟩

theorem Call.Ok.of_view {c : Call} (h : view t = view s) (hc : c.Ok s) : c.Ok t := by
  cases c with
  | readi p off n => exact ⟨ready_of_view h hc.1, hc.2⟩
  | writei p off xs => exact ⟨ready_of_view h hc.1, hc.2⟩
  | itrunc p => exact ready_of_view h hc

theorem exec_spec (hw : Wf s) {c : Call} (hc : c.Ok s) :
    wp c.exec (fun e t => Wf t ∧ view t = view s ∧ (contents s).step e = some (contents t))
      (fun _ => False) s := by
  cases c with
  | readi p off n =>
    obtain ⟨hp, hoff, hn⟩ := hc
    rw [Call.exec, wp_bind, wp_inode, wp_bind]
    refine (readi_spec hw hp hoff hn).mono ?_
    rintro ⟨r, out⟩ t ⟨rfl, h⟩
    refine ⟨hw, rfl, ?_⟩
    rw [Arrays.step, contents, length_contents]
    split at h
    · rename_i hin
      rcases h with h | h
      · rw [slice_eq_take_drop _ hin.1] at h
        obtain ⟨rfl, rfl⟩ := Prod.mk.inj h
        rw [if_pos hin, if_pos ⟨rfl, by rw [List.length_take, List.length_drop, length_contents]⟩]
      · exact absurd (fun _ _ => rfl) h.2
    · rename_i hout
      rw [if_neg hout, if_pos (Prod.mk.inj h)]
  | writei p off xs =>
    obtain ⟨hp, hoff, hn⟩ := hc
    have hsrc : MappedSrc (fun j => xs[j]?) xs.length := fun j hj => by simpa using hj
    rw [Call.exec, wp_bind, wp_inode, wp_bind]
    refine (writei_spec hw hp hoff hn fun _ => hsrc).mono fun r t h => ?_
    simp only [wp_bind, wp_get, wp_pure, Arrays.step, contents, length_contents]
    split at h
    · rename_i hin
      obtain ⟨tot, nd, rfl, hle, hdid, -, -, h⟩ := h
      obtain ⟨rfl, hshort, -⟩ := h hsrc
      have hfull : (tot : ℤ) < xs.length → isFull t = true := fun h =>
        isFull_of_full (hshort (by exact_mod_cast h)).1
      refine ⟨hdid.wf, hdid.view, ?_⟩
      have hcontents := contents_update hdid.node
      rw [contents_splice _ hin.1, slice_srcByte xs hle] at hcontents
      rw [if_pos hin, if_pos ⟨Int.natCast_nonneg _, by exact_mod_cast hle, hfull⟩, Int.toNat_natCast]
      exact congrArg some hcontents.symm
    · rename_i hout
      obtain ⟨rfl, rfl⟩ := h
      exact ⟨hw, rfl, by rw [if_neg hout, if_pos rfl]⟩
  | itrunc p =>
    rw [Call.exec, wp_bind, wp_inode, wp_bind]
    refine (itrunc_did hw hc).mono fun _ t ht => ⟨ht.1.wf, ht.1.view, ?_⟩
    rw [Arrays.step, contents_update ht.1.node]
    rfl

/-- CORRECT (refinement): a sequence of calls on any inodes returns, and a file system of byte arrays
    could have given the same answers and would hold the same contents afterwards. -/
theorem files_refine (hw : Wf s) {calls : List Call} (hcalls : ∀ c ∈ calls, c.Ok s) :
    ∃ es t, execAll calls s = .ok (es, t) ∧ Wf t ∧ run Arrays.step (contents s) es = some (contents t) := by
  have key : ∀ (calls : List Call) {s : FS}, Wf s → (∀ c ∈ calls, c.Ok s) → wp (execAll calls)
      (fun es t => Wf t ∧ run Arrays.step (contents s) es = some (contents t)) (fun _ => False) s := by
    intro calls
    induction calls with
    | nil => exact fun hw _ => ⟨hw, rfl⟩
    | cons c cs ih =>
      intro s hw hcalls
      rw [execAll]
      refine (exec_spec hw (hcalls c List.mem_cons_self)).bind fun e t ht => ?_
      obtain ⟨hwt, hview, hstep⟩ := ht
      rw [wp_bind]
      refine (ih hwt fun c' hc' => (hcalls c' (List.mem_cons_of_mem _ hc')).of_view hview).mono
        fun es u hu => ⟨hu.1, ?_⟩
      rw [run_cons, hstep]
      exact hu.2
  exact (key calls hw hcalls).returns

/-- Booted from a fresh image, with the root directory open and locked. -/
def FS.rooted (sb : Superblock) : FS := (FS.fresh sb).setInode 0 ⟨ROOTINO, 1, true, true, rootDinode sb⟩

theorem rooted_locked {sb : Superblock} (hs : sb.Small) : Wf (.rooted sb) ∧ Ready (.rooted sb) 0 := by
  have hgot : Got (.fresh sb) ROOTINO 0 ((FS.fresh sb).setInode 0 (Inode.zero.recycle ROOTINO)) :=
    got_first (fresh_image sb hs).wf rfl sb.root fun j hj => absurd hj (Nat.lt_irrefl 0)
  have hentry := FS.setInode_self (.fresh sb) 0 (Inode.zero.recycle ROOTINO)
  have hroot : dinode ((FS.fresh sb).setInode 0 (Inode.zero.recycle ROOTINO)) ROOTINO = rootDinode sb := by
    rw [hgot.quiet.dinode, dinode_fresh sb hs, update_self]
  have hlock : Locked ((FS.fresh sb).setInode 0 (Inode.zero.recycle ROOTINO)) 0 (((FS.fresh sb).setInode 0
      (Inode.zero.recycle ROOTINO)).setInode 0 ⟨ROOTINO, 1, true, true, rootDinode sb⟩) := by
    refine locked_setInode hgot.wf ?_ ?_ ?_ rfl ?_ (show T_DIR ≠ 0 by decide)
    · rw [rc, hentry]; exact Nat.one_pos
    · rw [hentry]; rfl
    · rw [hentry]; rfl
    · rw [hentry]; exact hroot.symm
  have hrooted : ((FS.fresh sb).setInode 0 (Inode.zero.recycle ROOTINO)).setInode 0 ⟨ROOTINO, 1, true, true, rootDinode sb⟩ =
      .rooted sb := by
    rw [FS.rooted, FS.setInode, FS.setInode, FS.setInode]
    simp only [update_idem]
  rw [hrooted] at hlock
  exact ⟨hlock.wf, hlock.ready⟩

theorem files_refine_rooted : ∃ es t,
    execAll [.writei 0 2000 [1], .writei 0 1000 (List.replicate 30 7), .readi 0 990 20, .itrunc 0, .readi 0 0 5] (.rooted .std) =
      .ok (es, t) ∧ Wf t ∧ run Arrays.step (contents (.rooted .std)) es = some (contents t) := by
  obtain ⟨hw, hp⟩ := rooted_locked Superblock.std_small
  refine files_refine hw fun c hc => ?_
  simp only [List.mem_cons, List.not_mem_nil, or_false] at hc
  rcases hc with rfl | rfl | rfl | rfl | rfl
  · exact ⟨hp, by decide, by decide⟩
  · exact ⟨hp, by decide, by decide⟩
  · exact ⟨hp, by decide, by decide⟩
  · exact hp
  · exact ⟨hp, by decide, by decide⟩

end Minios.Fs
