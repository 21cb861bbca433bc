import Minios.Fs.Trunc

/-! `kernel/fs.c`: inodes as files.

    To its users an inode is a type, a link count and a string of bytes. `node s i` is that view of
    inode `i`, `Wf s` what holds of disk and inode table whenever no function of this layer is in
    progress, and each function gets one specification: what it returns, that it keeps `Wf`, and how
    it changes the nodes and the references. Callers of these functions need not know about blocks. -/

namespace Minios.Fs
open Schemes Function

variable {D D' : ℕ → Dinode} {i j : ℕ} {p : IPtr} {s t u : FS}

/-- An inode as its users see it. -/
structure Node where
  type : ℕ
  major : ℕ
  minor : ℕ
  nlink : ℕ
  size : ℕ
  byte : ℕ → UInt8

/-- An inode that is not allocated. -/
def Node.free : Node := ⟨0, 0, 0, 0, 0, fun _ => 0⟩

def nodeOf (disk : Disk) (d : Dinode) : Node :=
  if d.type = 0 then .free
  else ⟨d.type, d.major, d.minor, d.nlink, d.size, fun o => if o < d.size then byteAt disk d o else 0⟩

def node (s : FS) (i : ℕ) : Node := nodeOf s.disk (dinode s i)

/-- The contents of a file. -/
def Node.contents (nd : Node) : List UInt8 := slice nd.byte 0 nd.size

/-- The file with the bytes `f 0, ..., f (m - 1)` put at `off`. -/
def Node.splice (nd : Node) (off : ℕ) (f : ℕ → UInt8) (m : ℕ) : Node :=
  { nd with size := max nd.size (off + m)
            byte := fun o => if off ≤ o ∧ o < off + m then f (o - off) else nd.byte o }

/-- The file without contents. -/
def Node.emptied (nd : Node) : Node := { nd with size := 0, byte := fun _ => 0 }

theorem nodeOf_free {disk : Disk} {d : Dinode} (h : d.type = 0) : nodeOf disk d = .free := if_pos h

theorem nodeOf_live {disk : Disk} {d : Dinode} (h : d.type ≠ 0) : nodeOf disk d =
    ⟨d.type, d.major, d.minor, d.nlink, d.size, fun o => if o < d.size then byteAt disk d o else 0⟩ :=
  if_neg h

theorem nodeOf_type (disk : Disk) (d : Dinode) : (nodeOf disk d).type = d.type := by
  rw [nodeOf]
  split
  · rename_i h; rw [h]; rfl
  · rfl

theorem node_type (s : FS) (i : ℕ) : (node s i).type = (dinode s i).type := nodeOf_type ..

theorem nodeOf_congr {disk disk' : Disk} {d : Dinode}
    (h : d.type ≠ 0 → ∀ o, byteAt disk' d o = byteAt disk d o) : nodeOf disk' d = nodeOf disk d := by
  rw [nodeOf, nodeOf]
  split
  · rfl
  · rename_i hd; simp only [h hd]

theorem live_iff : Live s.sb (dinode s) i ↔ (dinode s i).type ≠ 0 := by
  refine ⟨fun h => h.2, fun h => ⟨?_, h⟩⟩
  by_contra hi
  rw [dinode_of_ge (Nat.not_lt.mp hi)] at h
  exact h rfl

/-- What holds of disk and inode table between the functions of this layer. -/
structure Wf (s : FS) : Prop where
  core : Core s.sb s.disk s.torn (dinode s)
  inum_lt : ∀ k, 0 < (s.itable k).ref → (s.itable k).inum < s.sb.ninodes
  uniq : ∀ j k, 0 < (s.itable j).ref → 0 < (s.itable k).ref → (s.itable j).inum = (s.itable k).inum → j = k
  sync : ∀ k, 0 < (s.itable k).ref → (s.itable k).valid = true →
    (s.itable k).d = dinode s (s.itable k).inum ∧ (dinode s (s.itable k).inum).type ≠ 0

/-- What a caller can see of a table entry. -/
def view (s : FS) (k : IPtr) : ℕ × ℕ × Bool := ((s.itable k).ref, (s.itable k).inum, (s.itable k).valid)

theorem view_tab {d : Dinode} (h : t.itable = s.tab p d) : view t = view s := by
  funext k
  rw [view, view, h]
  rcases eq_or_ne k p with rfl | hne
  · rw [FS.tab_self]; rfl
  · rw [FS.tab_ne _ hne]

/-! ### From the table back to the disk -/

theorem Others.updated (h : Others i s (dinode s) u D') (hu : Updated u t i (D' i)) : dinode t = D' := by
  rw [hu.dinode, dinode_low h.sb h.low]
  funext j
  rcases eq_or_ne j i with rfl | hne
  · rw [update_self]
  · rw [update_of_ne hne, h.other j hne]

theorem Others.node_eq (h : Others i s (dinode s) u D') (hu : Updated u t i (D' i))
    (hi : i < s.sb.ninodes) : node t = update (node s) i (nodeOf u.disk (D' i)) := by
  funext j
  rw [node, h.updated hu]
  rcases eq_or_ne j i with rfl | hne
  · rw [update_self]
    exact nodeOf_congr fun hj o => h.core.byteAt_high hu.high ⟨h.sb ▸ hi, hj⟩ o
  · rw [update_of_ne hne, node, h.other j hne]
    refine nodeOf_congr fun hj o => ?_
    have hl : Live s.sb (dinode s) j := live_iff.mpr hj
    have hl' : Live u.sb D' j := by rw [Live, h.sb, h.other j hne]; exact hl
    have := h.core.byteAt_high hu.high hl' o
    rw [h.other j hne] at this
    rw [this, h.byte j hne hl o]

theorem Others.core_updated (h : Others i s (dinode s) u D') (hu : Updated u t i (D' i)) :
    Core t.sb t.disk t.torn (dinode t) := by
  rw [h.updated hu, hu.sb]
  exact h.core.high hu.high hu.torn

/-- Table entry `p` is in use and has a copy of its inode. -/
structure Ready (s : FS) (p : IPtr) : Prop where
  ref : 0 < (s.itable p).ref
  valid : (s.itable p).valid = true

section Ready
variable (hw : Wf s) (hp : Ready s p)
include hw hp

theorem Ready.lt : (s.itable p).inum < s.sb.ninodes := hw.inum_lt p hp.ref

theorem Ready.d : (s.itable p).d = dinode s (s.itable p).inum := (hw.sync p hp.ref hp.valid).1

theorem Ready.type : (dinode s (s.itable p).inum).type ≠ 0 := (hw.sync p hp.ref hp.valid).2

theorem Ready.live : Live s.sb (dinode s) (s.itable p).inum := live_iff.mpr (hp.type hw)

theorem Ready.node : node s (s.itable p).inum = ⟨(s.itable p).d.type, (s.itable p).d.major,
    (s.itable p).d.minor, (s.itable p).d.nlink, (s.itable p).d.size,
    fun o => if o < (s.itable p).d.size then byteAt s.disk (s.itable p).d o else 0⟩ := by
  rw [hp.d hw]
  exact nodeOf_live (hp.type hw)

end Ready

/-- What a function that works on the inode of entry `p` did: all is well, and the inode's node is now
    `nd`. -/
structure Did (p : IPtr) (s : FS) (nd : Node) (t : FS) : Prop where
  wf : Wf t
  sb : t.sb = s.sb
  view : view t = view s
  node : node t = update (node s) (s.itable p).inum nd
  other : ∀ j, j ≠ (s.itable p).inum → dinode t j = dinode s j

theorem Wf.did (hw : Wf s) (hp : Ready s p) (h : Others (s.itable p).inum s (dinode s) u D')
    (hu : Updated u t (s.itable p).inum (D' (s.itable p).inum))
    (htype : (D' (s.itable p).inum).type ≠ 0) (htab : t.itable = s.tab p (D' (s.itable p).inum)) :
    Did p s (nodeOf u.disk (D' (s.itable p).inum)) t := by
  have hD := h.updated hu
  have hsb : t.sb = s.sb := hu.sb.trans h.sb
  have hview := view_tab htab
  have href : ∀ k, (t.itable k).ref = (s.itable k).ref := fun k => congrArg Prod.fst (congrFun hview k)
  have hnum : ∀ k, (t.itable k).inum = (s.itable k).inum := fun k =>
    congrArg (fun v => v.2.1) (congrFun hview k)
  have hvalid : ∀ k, (t.itable k).valid = (s.itable k).valid := fun k =>
    congrArg (fun v => v.2.2) (congrFun hview k)
  refine ⟨⟨h.core_updated hu, fun k hk => ?_, fun j k hj hk he => ?_, fun k hk hv => ?_⟩, hsb, hview,
    h.node_eq hu (hp.lt hw), fun j hj => by rw [hD, h.other j hj]⟩
  · rw [hsb, hnum]; exact hw.inum_lt k (href k ▸ hk)
  · rw [hnum, hnum] at he
    exact hw.uniq j k (href j ▸ hj) (href k ▸ hk) he
  · rw [href] at hk
    rw [hvalid] at hv
    rw [hnum, hD]
    rcases eq_or_ne k p with rfl | hne
    · rw [htab, FS.tab_self]; exact ⟨rfl, htype⟩
    · have hki : (s.itable k).inum ≠ (s.itable p).inum := fun he => hne (hw.uniq k p hk hp.ref he)
      rw [htab, FS.tab_ne _ hne, h.other _ hki]
      exact hw.sync k hk hv

theorem Updated.full {d : Dinode} (hu : Updated s t i d) (h : Full s.sb s.disk) : Full t.sb t.disk := by
  rw [hu.sb]
  exact fun b hb => (bitAt_congr (hu.high _ (s.sb.le_bblock b))).trans (h b hb)

theorem iupdate_did {d : Dinode} (hw : Wf s) (hp : Ready s p)
    (h : Others (s.itable p).inum s (dinode s) u D') (hd : D' (s.itable p).inum = d)
    (htype : d.type ≠ 0) (htab : u.itable = s.tab p d) :
    wp (iupdate p) (fun _ t => Did p s (nodeOf u.disk d) t ∧ Updated u t (s.itable p).inum d)
      (fun _ => False) u := by
  subst hd
  have hentry : u.itable p = (s.itable p).withD (D' (s.itable p).inum) := by
    rw [htab, FS.tab_self]
  have hlive : Live u.sb D' (s.itable p).inum := ⟨h.sb ▸ hp.lt hw, htype⟩
  refine (iupdate_spec ?_ ?_).mono fun _ t hu => ?_
  · rw [hentry]; exact hlive.1
  · rw [hentry]; exact h.core.fits _ hlive
  · rw [hentry] at hu
    exact ⟨hw.did hp h hu htype (hu.itable.trans htab), hu⟩

/-! ### Contents -/

theorem MAXFILE_lt : MAXFILE * BSIZE < 2 ^ 32 := by decide

/-- READ: the bytes that are there. -/
theorem readi_spec {dst : ℕ → Bool} {off n : ℕ} (hw : Wf s) (hp : Ready s p) (hoff : off < 2 ^ 32)
    (hn : n < 2 ^ 32) :
    wp (readi p dst off n) (fun r t => t = s ∧
      if off ≤ (node s (s.itable p).inum).size ∧ off + n < 2 ^ 32 then
        let m := min n ((node s (s.itable p).inum).size - off)
        r = ((m : ℤ), slice (node s (s.itable p).inum).byte off m) ∨
          r.1 = -1 ∧ ¬ ∀ j, j < m → dst j = true
      else r = (0, [])) (fun _ => False) s := by
  obtain ⟨hmax, hfill⟩ := hw.core.filled _ (hp.live hw)
  rw [← hp.d hw] at hmax hfill
  simp only [hp.node hw, readi, wp_bind, wp_inode]
  split
  · rename_i hbad
    rw [wp_pure, if_neg (by omega)]
    exact ⟨rfl, rfl⟩
  · rename_i hok
    have hok : off ≤ (s.itable p).d.size ∧ off + n < 2 ^ 32 := by omega
    simp only [if_pos hok]
    have hm : (if (off + n) % 2 ^ 32 > (s.itable p).d.size then (s.itable p).d.size - off else n) =
        min n ((s.itable p).d.size - off) := by
      rw [Nat.mod_eq_of_lt hok.2]; split <;> omega
    rw [hm]
    refine (readiLoop_spec _ off 0 [] (Nat.le_add_right ..) (Nat.zero_le _) (by omega)
      fun bn hbn => hfill bn (by omega)).mono fun r t hr => ⟨hr.1, hr.2.imp_left fun h => ?_⟩
    rw [h, List.nil_append, Nat.sub_zero]
    refine congrArg _ (slice_congr fun j hj => ?_)
    rw [if_pos (by omega)]

theorem Written.others {src : ℕ → Option UInt8} {n off off' tot : ℕ}
    (h : Written i p src n off 0 s D off' tot t D') (hi : Live s.sb D i) (hmax : off' ≤ MAXFILE * BSIZE) :
    Others i s D t (update D' i ((D' i).setSize (max (D i).size off'))) := by
  have hi' := h.live hi
  obtain ⟨h1, h2⟩ := h.core.filled i hi'
  rw [h.like.size] at h1 h2
  refine ⟨h.core.setFields hi' rfl rfl ?_ ⟨max_le h1 hmax, fun bn hbn => ?_⟩, h.sb,
    fun j hj => (update_of_ne hj ..).trans (h.other j hj), h.byte, h.low⟩
  · have hf := h.core.fits i hi'
    have := MAXFILE_lt
    exact ⟨hf.type, hf.major, hf.minor, hf.nlink, lt_of_le_of_lt (max_le h1 hmax) this, hf.addrs⟩
  · rw [ref_setSize]
    exact (lt_max_iff.mp hbn).elim (h2 bn) (h.fill bn)

theorem Written.node_eq {src : ℕ → Option UInt8} {n off off' tot : ℕ}
    (h : Written i p src n off 0 s D off' tot t D') (hi : Live s.sb D i) (hmax : off' ≤ MAXFILE * BSIZE)
    (hsize : (D i).size ≤ MAXFILE * BSIZE) (hoff : off ≤ (D i).size) (hsrc : MappedSrc src n) :
    nodeOf t.disk ((D' i).setSize (max (D i).size off')) =
      (nodeOf s.disk (D i)).splice off (srcByte src) tot := by
  have hoff' : off' = off + tot := h.moved
  have hlike := h.like
  rw [nodeOf_live (by exact hlike.type ▸ hi.2), nodeOf_live hi.2, Node.splice, hoff']
  simp only [Node.mk.injEq]
  refine ⟨hlike.type, hlike.major, hlike.minor, hlike.nlink, rfl, ?_⟩
  funext o
  rw [byteAt_setSize, Dinode.setSize]
  dsimp only
  rcases Nat.lt_or_ge o (max (D i).size (off + tot)) with ho | ho
  · rw [if_pos ho, h.own hsrc o (by omega), hoff', Nat.zero_add]
    split
    · rfl
    · rw [if_pos (by omega)]
  · rw [if_neg (by omega), if_neg (by omega), if_neg (by omega)]

/-- WRITE: `tot` bytes are put at `off`; all of them when the source is mapped, unless a block past the
    end of the file was needed and none was free. -/
theorem writei_spec {src : ℕ → Option UInt8} {off n : ℕ} (hw : Wf s) (hp : Ready s p)
    (hoff : off < 2 ^ 32) (hn : n < 2 ^ 32)
    (hdir : (node s (s.itable p).inum).type = T_DIR → MappedSrc src n) :
    wp (writei p src off n) (fun r t =>
      if off ≤ (node s (s.itable p).inum).size ∧ off + n ≤ MAXFILE * BSIZE then
        ∃ (tot : ℕ) (nd : Node), r = tot ∧ tot ≤ n ∧ Did p s nd t ∧
          nd.type = (node s (s.itable p).inum).type ∧ nd.nlink = (node s (s.itable p).inum).nlink ∧
          (MappedSrc src n → nd = (node s (s.itable p).inum).splice off (srcByte src) tot ∧
            (tot < n → Full t.sb t.disk ∧ (node s (s.itable p).inum).size ≤ off + tot ∧
              ((off + tot) % BSIZE = 0 ∨ tot = 0)) ∧ ∀ b, t.torn b = s.torn b ∨ t.torn b = none)
      else r = -1 ∧ t = s) (fun _ => False) s := by
  have hi := hp.live hw
  have hd := hp.d hw
  have hnode : node s (s.itable p).inum = nodeOf s.disk (dinode s (s.itable p).inum) := rfl
  obtain ⟨hmax, hfill⟩ := hw.core.filled _ hi
  have hlt := MAXFILE_lt
  have hsize : (node s (s.itable p).inum).size = (dinode s (s.itable p).inum).size := by
    rw [hnode, nodeOf_live hi.2]
  rw [node_type] at hdir
  rw [writei, wp_bind, wp_inode, hsize, hd]
  split
  · rw [wp_pure, if_neg (by omega)]
    exact ⟨rfl, rfl⟩
  · rename_i h1
    rw [Nat.mod_eq_of_lt (by omega)]
    split
    · rw [wp_pure, if_neg (by omega)]
      exact ⟨rfl, rfl⟩
    · rename_i h2
      have hcond : off ≤ (dinode s (s.itable p).inum).size ∧ off + n ≤ MAXFILE * BSIZE := by omega
      simp only [if_pos hcond]
      refine (writeiLoop_spec n off 0 hw.core hi hd hdir (Nat.le_add_right ..) (Nat.zero_le _)
        hcond.2 fun bn hbn => hfill bn (lt_of_lt_of_le hbn hcond.1)).bind ?_
      rintro ⟨off', tot⟩ t ⟨D₁, h⟩
      have hle : off' ≤ MAXFILE * BSIZE := by have := h.moved; have := h.le; omega
      have hentry : (t.itable p).d = D₁ (s.itable p).inum := by rw [h.itable, FS.tab_self]; rfl
      have hsize₁ := h.like.size
      -- whether or not the size has to change, this is the state before `iupdate`
      have hend : wp (do iupdate p; pure (tot : ℤ)) (fun r u => ∃ (tot : ℕ) (nd : Node), r = tot ∧
          tot ≤ n ∧ Did p s nd u ∧ nd.type = (node s (s.itable p).inum).type ∧
          nd.nlink = (node s (s.itable p).inum).nlink ∧
          (MappedSrc src n → nd = (node s (s.itable p).inum).splice off (srcByte src) tot ∧
            (tot < n → Full u.sb u.disk ∧ (dinode s (s.itable p).inum).size ≤ off + tot ∧
              ((off + tot) % BSIZE = 0 ∨ tot = 0)) ∧ ∀ b, u.torn b = s.torn b ∨ u.torn b = none)) (fun _ => False)
          (t.setD p ((D₁ (s.itable p).inum).setSize (max (dinode s (s.itable p).inum).size off'))) := by
        rw [wp_bind]
        refine (iupdate_did hw hp ((h.others hi hle).setD ..) (update_self ..)
          (by exact h.like.type ▸ hi.2) (FS.tab_tab h.itable _)).mono fun _ u hu => ?_
        refine ⟨tot, _, rfl, h.le.2, hu.1, ?_, ?_, fun hsrc => ⟨?_, fun hlt => ?_, fun b => ?_⟩⟩
        · rw [nodeOf_type, node_type]; exact h.like.type
        · rw [hnode, nodeOf_live hi.2, nodeOf_live (by exact h.like.type ▸ hi.2)]
          exact h.like.nlink
        · exact h.node_eq hi hle hmax hcond.1 hsrc
        · obtain ⟨h1, h2, h3⟩ := h.short hsrc hlt
          obtain rfl : off' = off + tot := h.moved
          refine ⟨hu.2.full h1, ?_, h3⟩
          by_contra hin
          exact hfill _ (lt_of_le_of_lt (block_le _) (Nat.not_le.mp hin)) h2
        · rcases hu.2.torn b with h1 | h1
          · rw [h1]; exact h.torn hsrc b
          · exact Or.inr h1
      simp only [wp_bind, wp_inode, hentry, hsize₁]
      split
      · rename_i hgt
        rw [max_eq_right (le_of_lt hgt)] at hend
        rw [wp_bind, wp_setD, hentry]
        exact hend
      · rename_i hge
        have hsame : (D₁ (s.itable p).inum).setSize (dinode s (s.itable p).inum).size =
            D₁ (s.itable p).inum := by rw [← hsize₁]; rfl
        rw [max_eq_left (Nat.not_lt.mp hge), hsame, FS.setD_eq_self (by exact hentry)] at hend
        exact hend

/-- TRUNCATE: no contents are left. -/
theorem itrunc_did (hw : Wf s) (hp : Ready s p) :
    wp (itrunc p) (fun _ t => Did p s (node s (s.itable p).inum).emptied t ∧
      ∀ b, t.torn b = s.torn b ∨ t.torn b = none) (fun _ => False) s := by
  have hi := hp.live hw
  refine (itrunc_spec hw.core hi (hp.d hw) rfl).mono fun _ t ht => ?_
  obtain ⟨u, ht⟩ := ht
  have hnode : nodeOf u.disk (dinode s (s.itable p).inum).emptied =
      (node s (s.itable p).inum).emptied := by
    rw [node, nodeOf_live hi.2, nodeOf_live (d := Dinode.emptied _) (by exact hi.2)]
    rfl
  have hd := hw.did hp ht.others (by rw [update_self]; exact ht.updated) (by rw [update_self]; exact hi.2)
    (by rw [update_self]; exact ht.itable)
  rw [update_self, hnode] at hd
  exact ⟨hd, ht.torn⟩

/-! ### Fields -/

/-- A change to the link count and the device numbers only. -/
structure Tame (f : Dinode → Dinode) : Prop where
  type : ∀ d, (f d).type = d.type
  size : ∀ d, (f d).size = d.size
  addrs : ∀ d, (f d).addrs = d.addrs
  fits : ∀ d : Dinode, d.Fits → (f d).Fits

theorem tame_setNlink {n : Dinode → ℕ} (hn : ∀ d, n d < 2 ^ 16) : Tame fun d => d.setNlink (n d) where
  type _ := rfl
  size _ := rfl
  addrs _ := rfl
  fits d h := ⟨h.type, h.major, h.minor, hn d, h.size, h.addrs⟩

theorem tame_link : Tame .link := tame_setNlink fun _ => Nat.mod_lt _ (Nat.two_pow_pos 16)

theorem tame_unlink : Tame .unlink := tame_setNlink fun _ => Nat.mod_lt _ (Nat.two_pow_pos 16)

theorem tame_clear : Tame (·.setNlink 0) := tame_setNlink fun _ => Nat.two_pow_pos 16

theorem tame_create (major minor : ℕ) : Tame (.create major minor) where
  type _ := rfl
  size _ := rfl
  addrs _ := rfl
  fits _ h := ⟨h.type, Nat.mod_lt _ (Nat.two_pow_pos 16), Nat.mod_lt _ (Nat.two_pow_pos 16),
    show 1 < 2 ^ 16 by decide, h.size, h.addrs⟩

theorem setFields_did {f : Dinode → Dinode} (hf : Tame f) (hw : Wf s) (hp : Ready s p) :
    wp (do setD p f; iupdate p) (fun _ t => Did p s { node s (s.itable p).inum with
      major := (f (s.itable p).d).major
      minor := (f (s.itable p).d).minor
      nlink := (f (s.itable p).d).nlink } t) (fun _ => False) s := by
  have hi := hp.live hw
  have hd := hp.d hw
  have htype := hf.type (s.itable p).d
  have hsize := hf.size (s.itable p).d
  have haddrs := hf.addrs (s.itable p).d
  have htype' : (f (s.itable p).d).type ≠ 0 := by rw [htype, hd]; exact hi.2
  have hfilled : Filled s.disk (f (s.itable p).d) := by
    obtain ⟨h1, h2⟩ := hw.core.filled _ hi
    rw [← hd] at h1 h2
    refine ⟨hsize ▸ h1, fun bn hbn => ?_⟩
    rw [ref_addrs haddrs]
    exact h2 bn (hsize ▸ hbn)
  have hcore := hw.core.setFields hi (by rw [haddrs, hd]) (by rw [htype, hd]) (hf.fits _ (hd ▸ hw.core.fits _ hi)) hfilled
  have hothers : Others (s.itable p).inum s (dinode s) (s.setD p (f (s.itable p).d))
      (update (dinode s) (s.itable p).inum (f (s.itable p).d)) :=
    ⟨hcore, rfl, fun j hj => update_of_ne hj .., fun _ _ _ _ => rfl, fun _ _ => rfl⟩
  rw [wp_bind, wp_setD]
  refine (iupdate_did hw hp hothers (update_self ..) htype' rfl).mono fun _ t ht => ?_
  have hnode : nodeOf s.disk (f (s.itable p).d) = { node s (s.itable p).inum with
      major := (f (s.itable p).d).major
      minor := (f (s.itable p).d).minor
      nlink := (f (s.itable p).d).nlink } := by
    rw [hp.node hw, nodeOf_live htype']
    simp only [htype, hsize, byteAt_addrs haddrs]
  exact hnode ▸ ht.1

/-! ### Buffers -/

/-- A buffer that was changed and not logged is recycled: some bytes of a plain file change back. -/
theorem Core.evict {b : ℕ} {x : Block} (hc : Core s.sb s.disk s.torn D) (hb : s.torn b = some x) :
    Core s.sb (update s.disk b x) (update s.torn b none) D := by
  obtain ⟨hdata, hplain⟩ := hc.torn b (by rw [hb]; simp)
  have hind : ∀ {i}, Live s.sb D i → ∀ k, ref (update s.disk b x) (D i) k = ref s.disk (D i) k := fun hi =>
    ref_congr fun _ => update_of_ne (hplain _ hi).1 ..
  have hrefs : refs s.sb (update s.disk b x) D = refs s.sb s.disk D := by
    funext ⟨i, k⟩
    rw [refs, refs]
    split
    · rename_i hi; exact hind hi k
    · rfl
  refine ⟨?_, hc.fits, fun i hi => ⟨(hc.filled i hi).1, fun bn hbn => ?_⟩, fun c hcb => ?_⟩
  · rw [hrefs]
    refine hc.books.congr fun c hmap => update_of_ne ?_ ..
    rintro rfl
    exact hdata.not_isMap hmap
  · rw [hind hi]; exact (hc.filled i hi).2 bn hbn
  · have hne : c ≠ b := by rintro rfl; exact hcb (update_self ..)
    rw [update_of_ne hne] at hcb
    obtain ⟨h1, h2⟩ := hc.torn c hcb
    refine ⟨h1, fun i hi => ⟨(h2 i hi).1, fun ht k => ?_⟩⟩
    rw [hind hi]; exact (h2 i hi).2 ht k

/-- What recycling a buffer does. -/
structure Evicted (s t : FS) : Prop where
  wf : Wf t
  sb : t.sb = s.sb
  itable : t.itable = s.itable
  dinode : dinode t = dinode s
  dirs : ∀ i, (node s i).type = T_DIR → node t i = node s i

theorem Wf.evict (hw : Wf s) (b : ℕ) : Evicted s (s.evict b) := by
  rw [FS.evict]
  split
  · rename_i x hb
    obtain ⟨hdata, hplain⟩ := hw.core.torn b (by rw [hb]; simp)
    have hD : dinode { s with disk := update s.disk b x, torn := update s.torn b none } = dinode s := by
      refine dinode_low (by rfl) fun c hc => update_of_ne ?_ ..
      have h1 := s.sb.bmapstart_lt
      have h2 := hdata.1
      omega
    refine ⟨⟨?_, hw.inum_lt, hw.uniq, ?_⟩, rfl, rfl, hD, fun i hi => ?_⟩
    · rw [hD]; exact hw.core.evict hb
    · rw [hD]; exact hw.sync
    · rw [node_type] at hi
      rw [node, hD]
      refine nodeOf_congr fun htype o => ?_
      have hl : Live s.sb (Fs.dinode s) i := live_iff.mpr htype
      exact byteAt_congr (fun _ => update_of_ne (hplain i hl).1 ..) fun _ => update_of_ne ((hplain i hl).2 hi _) ..
  · exact ⟨hw, rfl, rfl, rfl, fun _ _ => rfl⟩

end Minios.Fs
