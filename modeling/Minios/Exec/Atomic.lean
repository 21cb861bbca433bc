import Minios.Exec.Image
import Minios.Sysfile.Kept

/-! `exec` is all or nothing.

        free ──▶ new image ──COMMIT──▶ the process's          old image ──▶ free
                     │
                     └── bad ──▶ free again, and nothing else has changed

    While it builds the new image, `exec` writes only to pages that were free; so whatever fails, giving them back is
    all there is to undo. -/

namespace Minios.Exec
open Schemes Function Fs Vm
open Sysfile (readHeader)

variable {s t u : Kernel} {m m' : Machine} {root trapframe : Frame} {ip : IPtr} {n n' : ℕ} {E : Crash → Prop}

/-! ### The new image -/

/-- An address space built of free pages. -/
structure Built (m m' : Machine) (root trapframe : Frame) (n : ℕ) : Prop where
  space : Space m' root trapframe n
  moved : Moved m m' 0 (owned m' root n)

/-- Free pages are different pages of memory. -/
structure Pool (m : Machine) : Prop where
  apart : (m.free : Multiset Frame).Nodup
  ram : ∀ f ∈ m.free, m.img.Ram f

theorem Pool.live (hm : Pool m) (h : Built m m' root trapframe n) : Vm.Live m' root trapframe n where
  space := h.space
  apart := by rw [h.moved.pages, add_zero]; exact hm.apart
  ram f hf := by
    rw [h.moved.pages, add_zero] at hf
    rw [h.moved.img]
    exact hm.ram f hf

theorem Built.became {m'' : Machine} (h : Built m m' root trapframe n) (h' : Became m' m'' root trapframe n n') :
    Built m m'' root trapframe n' := ⟨h'.space, h.moved.trans h'.moved⟩

/-- UNDO: the pages of the new image are free again. -/
theorem Built.free {sz : Word} {E : Vm.Panic → Prop} (hm : Pool m) (h : Built m m' root trapframe (pages sz.toNat)) :
    wp (proc_freepagetable root sz) (fun _ u => Moved m u 0 0) E m' := by
  have hl := hm.live h
  refine (proc_freepagetable_spec h.space hl.apart fun f hf => ?_).mono fun _ u hu => h.moved.trans hu
  exact hl.ram f (Multiset.mem_add.mpr (.inr hf))

/-! ### The file -/

/-- The file has been found and locked, in a transaction. -/
structure Opened (s t : Kernel) (ip : IPtr) : Prop where
  proc : t.proc = s.proc
  outstanding : t.outstanding = s.outstanding + 1
  ok : Ok False none t.fs
  ready : Ready t.fs ip
  locked : (t.fs.itable ip).locked = true
  refs : rc t.fs = plus (rc s.fs) ip

/-- File and transaction are released. -/
structure Closed (s t : Kernel) : Prop where
  proc : t.proc = s.proc
  outstanding : t.outstanding = s.outstanding
  ok : Ok False none t.fs
  refs : rc t.fs = rc s.fs

/-- Nothing has happened: no page but free ones was written, and the same are free. -/
structure Untouched (s t : Kernel) : Prop extends Closed s t where
  moved : Moved s.vm t.vm 0 0

theorem Opened.setVm (h : Opened s t ip) (m : Machine) : Opened s (t.setVm m) ip :=
  ⟨h.proc, h.outstanding, h.ok, h.ready, h.locked, h.refs⟩

theorem Closed.setVm (h : Closed s t) (m : Machine) : Closed s (t.setVm m) := ⟨h.proc, h.outstanding, h.ok, h.refs⟩

/-- CLOSE: `iunlockput` and `end_op`. -/
theorem Opened.close (h : Opened s t ip) : wp (onFs (iunlockput ip)) (fun _ u => wp end_op (fun _ v =>
    Closed s v ∧ v.vm = t.vm) E u) E t := by
  refine wp_zoom.mpr ((iunlockput_total h.ok.wf h.ready h.locked h.refs).total.mono fun _ fs hput => ?_)
  have hgo : Go _ none _ t.fs fs := hput.plain h.refs h.ok
  refine wp_modify.mpr ⟨⟨h.proc, ?_, hgo.ok, hput.ref⟩, rfl⟩
  show t.outstanding - 1 = s.outstanding
  rw [h.outstanding]; rfl

theorem bad_first (h : Opened s t ip) (hm : Moved s.vm t.vm 0 0) :
    wp (bad none 0 (some ip)) (fun r u => r = -1 ∧ Untouched s u) E t := by
  unfold bad
  refine h.close.bind fun _ u hu => hu.bind fun _ v hv => ⟨rfl, ⟨hv.1, ?_⟩⟩
  rw [hv.2]; exact hm

theorem bad_open {sz : Word} (hp : Pool s.vm) (h : Opened s t ip) (hb : Built s.vm t.vm root trapframe (pages sz.toNat)) :
    wp (bad (some root) sz (some ip)) (fun r u => r = -1 ∧ Untouched s u) E t := by
  rw [bad]
  refine (wp_zoom.mpr ((hb.free hp).mono fun _ m hm => ?_) : wp (onVm _) _ _ _).bind
    (Q := fun _ u => Opened s u ip ∧ Moved s.vm u.vm 0 0) ?_
  · exact ⟨h.setVm m, hm⟩
  · rintro _ u ⟨hu, hm⟩
    refine hu.close.bind fun _ v hv => hv.bind fun _ w hw => ⟨rfl, ⟨hw.1, ?_⟩⟩
    rw [hw.2]; exact hm

theorem bad_closed {sz : Word} (hp : Pool s.vm) (h : Closed s t) (hb : Built s.vm t.vm root trapframe (pages sz.toNat)) :
    wp (bad (some root) sz none) (fun r u => r = -1 ∧ Untouched s u) E t := by
  rw [bad, wp_bind]
  exact wp_zoom.mpr ((hb.free hp).mono fun _ m hm => ⟨rfl, ⟨h.setVm m, hm⟩⟩)

/-! ### Loading the program -/

/-- Only the new image has changed, and the user may read all of it. -/
structure Loaded (t u : Kernel) (root trapframe : Frame) (n n' : ℕ) : Prop where
  rest : u = t.setVm u.vm
  became : Became t.vm u.vm root trapframe n n'
  access : Accessible u.vm root n'

theorem Loaded.trans {n'' : ℕ} (h : Loaded s t root trapframe n n') (h' : Loaded t u root trapframe n' n'') :
    Loaded s u root trapframe n n'' :=
  ⟨by rw [h'.rest, h.rest]; rfl, h.became.trans h'.became, h'.access⟩

/-- The file can be read, and the image written. -/
structure Loading (t : Kernel) (ip : IPtr) (root trapframe : Frame) (n : ℕ) : Prop where
  wf : Wf t.fs
  ready : Ready t.fs ip
  live : Vm.Live t.vm root trapframe n
  access : Accessible t.vm root n

theorem Loading.step (h : Loading t ip root trapframe n) (h' : Loaded t u root trapframe n n') :
    Loading u ip root trapframe n' := by
  have hfs : u.fs = t.fs := by rw [h'.rest]; rfl
  exact ⟨by rw [hfs]; exact h.wf, by rw [hfs]; exact h.ready, h'.became.live h.live, h'.access⟩

theorem Loading.refl (h : Loading t ip root trapframe n) : Loaded t t root trapframe n n :=
  ⟨rfl, .refl h.live.space, h.access⟩

theorem readi_same {off k : ℕ} (h : Loading t ip root trapframe n) (hoff : off < 2 ^ 32) (hk : k < 2 ^ 32) :
    wp (onFs (readi ip (fun _ => true) off k)) (fun _ u => u = t) E t :=
  wp_zoom.mpr ((readi_spec h.wf h.ready hoff hk).total.mono fun r fs hr => by rw [hr.1]; rfl)

theorem readHeader_same {off k : ℕ} (hw : Wf t.fs) (hr : Ready t.fs ip) (hoff : off < 2 ^ 32) (hk : k < 2 ^ 32) :
    wp (onFs (readHeader ip off k)) (fun _ u => u = t) E t := by
  refine wp_zoom.mpr ((readi_spec hw hr hoff hk).total.bind fun r fs hr => ?_)
  show t.setFs fs = t
  rw [hr.1]; rfl

theorem Loading.walkaddr {va : Word} (h : Loading t ip root trapframe n) (hp : pageno va < n) :
    wp (onVm (Vm.walkaddr root va)) (fun pa u => u = t ∧ pa ≠ 0 ∧
      frame pa = frameOf (lookup t.vm.mem root (pageno va))) E t := by
  refine wp_zoom.mpr ((walkaddr_spec h.live.userSpace va).mono ?_)
  rintro pa m ⟨hm, hpa⟩
  refine ⟨by rw [hm]; rfl, ?_⟩
  have hT := TOP_eq
  have hle := h.live.space.le
  rcases hpa with ⟨-, hnone⟩ | ⟨h0, -, hf⟩
  · obtain ⟨pte, hl, hu⟩ := h.access _ hp
    have hlt : va.toNat < MAXVA.toNat := by
      rw [show MAXVA.toNat = 2 ^ 38 from rfl]
      rw [pageno] at hp
      omega
    have hf : uframe t.vm.mem root (va.toNat / 4096) = some (frame (PTE2PA pte)) := by
      rw [uframe, ← pageno, hl]; exact if_pos hu
    rw [ubyte_of_uframe hlt hf] at hnone
    cases hnone
  · exact ⟨h0, (h.live.space.uframe_lt hf).2⟩

theorem Loading.write {p : ℕ} {f : Frame} (h : Loading t ip root trapframe n) (hp : p < n)
    (hf : f = frameOf (lookup t.vm.mem root p)) (page : Page) :
    Loaded t (t.setVm (t.vm.setMem (update t.vm.mem f page))) root trapframe n n := by
  have hw := h.live.write hp hf page
  refine ⟨rfl, hw.became h.live.space, fun x hx => ?_⟩
  show ∃ pte, lookup (t.vm.setMem (update t.vm.mem f page)).mem root x = some pte ∧ _
  rw [hw.same.lookup]
  exact h.access x hx

theorem loadsegLoop_spec {va : Word} {offset sz : ℕ} (hva : va.toNat % 4096 = 0) (hsz : sz < 2 ^ 31)
    (hfit : va.toNat + sz ≤ n * 4096) : ∀ rounds i t, Loading t ip root trapframe n → i % 4096 = 0 → i < sz + 4096 →
    sz + 4096 ≤ i + rounds * 4096 →
    wp (loadsegLoop root va ip offset sz rounds i) (fun _ u => Loaded t u root trapframe n n) E t
  | 0, i, t, _, _, hlt, hle => by omega
  | rounds + 1, i, t, h, hi, hlt, hle => by
      rw [loadsegLoop]
      refine wp_ite.mpr ⟨fun hi' => ?_, fun _ => h.refl⟩
      have hT := TOP_eq
      have hn := h.live.space.le
      have haddr : (va + BitVec.ofNat 64 i).toNat = va.toNat + i := by
        rw [BitVec.toNat_add, BitVec.toNat_ofNat]; omega
      have hp : pageno (va + BitVec.ofNat 64 i) < n := by rw [pageno, haddr]; omega
      refine (h.walkaddr hp).bind ?_
      rintro pa u ⟨hu, h0, hf⟩
      rw [hu, if_neg h0]
      refine (readi_same h (Nat.mod_lt _ (by decide)) (by omega)).bind fun r u hu => ?_
      rw [hu, wp_bind]
      have hw := h.write hp hf
      refine wp_zoom.mpr (wp_modify.mpr (wp_ite.mpr ⟨fun _ => hw _, fun _ => ?_⟩))
      rw [Nat.mod_eq_of_lt (by omega : i + 4096 < 2 ^ 32)]
      refine (loadsegLoop_spec hva hsz hfit rounds (i + 4096) _ (h.step (hw _)) (by omega) (by omega) (by omega)).mono
        fun _ v hv => (hw _).trans hv

theorem flags2perm_lt (flags : ℕ) : (flags2perm flags).toNat < 1024 := by
  unfold flags2perm
  split <;> split <;> decide

theorem Grown.accessible {m m' : Machine} {perm : Word} {k : ℕ} (h : Grown m m' root n k (PTE_R ||| PTE_U ||| perm))
    (ha : Accessible m root n) : Accessible m' root (n + k) := fun x hx => by
  rcases Nat.lt_or_ge x n with hlt | hge
  · rw [h.beside x (by omega)]
    exact ha x hlt
  · obtain ⟨f, hf, -⟩ := h.here x hge hx
    refine ⟨_, hf, fun h0 => ?_⟩
    have := congrArg (fun w : Word => w.getLsbD 4) h0
    simp at this

/-- GROW the image. -/
theorem Loading.uvmalloc {sz newsz perm : Word} (h : Loading t ip root trapframe (pages sz.toNat))
    (hperm : perm.toNat < 1024) : wp (onVm (Vm.uvmalloc root sz newsz perm)) (fun sz1 u =>
      (sz1 = 0 ∧ u = t.setVm u.vm ∧ Became t.vm u.vm root trapframe (pages sz.toNat) (pages sz.toNat)) ∨
      (sz.toNat ≤ sz1.toNat ∧ newsz.toNat ≤ sz1.toNat ∧ Loaded t u root trapframe (pages sz.toNat) (pages sz1.toNat))) E t := by
  refine wp_zoom.mpr ((h.live.uvmalloc hperm).mono fun sz1 m hm => ?_)
  rcases hm with ⟨h0, -, hb⟩ | ⟨hr, hb, hg⟩
  · exact .inl ⟨h0, rfl, hb⟩
  · refine .inr ?_
    have hacc := Grown.accessible hg h.access
    by_cases hlt : newsz < sz
    · rw [if_pos hlt] at hr
      subst hr
      have hle := BitVec.lt_def.mp hlt
      rw [Nat.sub_eq_zero_of_le (pages_mono hle.le), Nat.add_zero] at hacc
      exact ⟨le_rfl, hle.le, ⟨rfl, hb, hacc⟩⟩
    · rw [if_neg hlt] at hr
      subst hr
      have hle := BitVec.le_def.mp (BitVec.not_lt.mp hlt)
      rw [Nat.add_sub_cancel' (pages_mono hle)] at hacc
      exact ⟨hle, le_rfl, ⟨rfl, hb, hacc⟩⟩

/-- LOAD: whatever the headers say, the image is one of the size reached. -/
theorem loadProgram_spec : ∀ phnum off sz t, off < 2 ^ 32 → Loading t ip root trapframe (pages sz.toNat) →
    wp (loadProgram ip root phnum off sz) (fun r u => u = t.setVm u.vm ∧
      Became t.vm u.vm root trapframe (pages sz.toNat) (pages r.2.toNat)) E t
  | 0, off, sz, t, _, h => ⟨rfl, .refl h.live.space⟩
  | phnum + 1, off, sz, t, hoff, h => by
      have hstop : ∀ {ok : Bool}, wp (pure (ok, sz) : KM (Bool × Word)) (fun r u => u = t.setVm u.vm ∧
          Became t.vm u.vm root trapframe (pages sz.toNat) (pages r.2.toNat)) E t := ⟨rfl, .refl h.live.space⟩
      rw [loadProgram]
      refine (readHeader_same h.wf h.ready hoff (by decide)).bind fun r u hu => ?_
      rw [hu]
      cases r with
      | none => exact hstop
      | some bytes =>
        have hnext : (off + Proghdr.size) % 2 ^ 32 < 2 ^ 32 := Nat.mod_lt _ (by decide)
        refine wp_ite.mpr ⟨fun _ => loadProgram_spec phnum _ sz t hnext h, fun _ => ?_⟩
        refine wp_ite.mpr ⟨fun _ => hstop, fun hmem => wp_ite.mpr ⟨fun _ => hstop, fun hwrap => ?_⟩⟩
        refine wp_ite.mpr ⟨fun _ => hstop, fun hal => ?_⟩
        generalize Proghdr.read bytes = ph at hmem hwrap hal ⊢
        refine (h.uvmalloc (flags2perm_lt ph.flags)).bind fun sz1 u hu => ?_
        rcases hu with ⟨h0, hrest, hb⟩ | ⟨hge, hle, hl⟩
        · rw [if_pos h0]
          exact ⟨hrest, hb⟩
        refine wp_ite.mpr ⟨fun h0 => ?_, fun _ => ?_⟩
        · rw [h0] at hge hl
          have hb := hl.became
          refine ⟨hl.rest, ?_⟩
          show Became t.vm u.vm root trapframe (pages sz.toNat) (pages sz.toNat)
          rw [show sz.toNat = 0 from Nat.le_zero.mp hge] at hb ⊢
          exact hb
        -- the segment is inside the image, so it is much smaller than 4 GiB
        have hcard := (h.step hl).live.card
        rw [pages] at hcard
        have hmem := BitVec.le_def.mp (BitVec.not_lt.mp hmem)
        have hwrap := BitVec.le_def.mp (BitVec.not_lt.mp hwrap)
        have hsum : (ph.vaddr + ph.memsz).toNat = ph.vaddr.toNat + ph.memsz.toNat := by bv_omega
        rw [hsum] at hle
        have hpage : ph.vaddr.toNat % 4096 = 0 := by
          have := congrArg BitVec.toNat (not_not.mp hal)
          rwa [BitVec.toNat_umod] at this
        refine (loadsegLoop_spec hpage ?_ ?_ _ 0 u (h.step hl) rfl ?_ ?_).bind fun ok v hv => ?_
        · omega
        · rw [pages]; omega
        · omega
        · omega
        · have hb := hl.trans hv
          refine wp_ite.mpr ⟨fun _ => ?_, fun _ => ⟨hb.rest, hb.became⟩⟩
          refine (loadProgram_spec phnum _ sz1 v hnext (h.step hb)).mono ?_
          rintro r w ⟨hw, hw'⟩
          exact ⟨by rw [hw, hb.rest]; rfl, hb.became.trans hw'⟩

/-! ### The stack -/

/-- COPY to the stack. -/
theorem copyout_onVm {va : Word} {src : List UInt8} (h : Vm.Live t.vm root trapframe n) :
    wp (onVm (copyout root va src)) (fun _ u => u = t.setVm u.vm ∧ Became t.vm u.vm root trapframe n n) E t :=
  wp_zoom.mpr ((h.copyout va src).mono fun _ _ hm => ⟨rfl, hm⟩)

/-- ARGUMENTS: `ustack` has room for all of them and the 0 at the end. -/
theorem pushArgs_spec {stackbase : Word} : ∀ argv sp ustack t, ustack.length + argv.length < MAXARG →
    Vm.Live t.vm root trapframe n → wp (pushArgs root stackbase argv sp ustack) (fun _ u => u = t.setVm u.vm ∧
      Became t.vm u.vm root trapframe n n) E t
  | [], sp, ustack, t, hlt, h => by
      rw [pushArgs, if_neg (by simpa using hlt)]
      exact ⟨rfl, .refl h.space⟩
  | arg :: argv, sp, ustack, t, hlt, h => by
      rw [List.length_cons] at hlt
      rw [pushArgs, if_neg (by omega)]
      refine wp_ite.mpr ⟨fun _ => ⟨rfl, .refl h.space⟩, fun _ => ?_⟩
      refine (copyout_onVm h).bind ?_
      rintro r u ⟨hu, hb⟩
      refine wp_ite.mpr ⟨fun _ => ⟨hu, hb⟩, fun _ => ?_⟩
      refine (pushArgs_spec argv _ _ u ?_ (hb.live h)).mono fun r v hv => ⟨?_, hb.trans hv.2⟩
      · rw [List.length_append, List.length_singleton]; omega
      · rw [hv.1, hu]; rfl

theorem pushUstack_spec {stackbase sp : Word} {ustack : List Word} (h : Vm.Live t.vm root trapframe n) :
    wp (pushUstack root stackbase sp ustack) (fun _ u => u = t.setVm u.vm ∧
      Became t.vm u.vm root trapframe n n) E t := by
  rw [pushUstack]
  refine wp_ite.mpr ⟨fun _ => ⟨rfl, .refl h.space⟩, fun _ => ?_⟩
  exact (copyout_onVm h).bind fun r u hu => wp_ite.mpr ⟨fun _ => hu, fun _ => hu⟩

/-! ### The new image takes the place of the old one -/

/-- What holds of a process between system calls: its files are in order, its address space is its own, and so is its
    trapframe. -/
structure Running (s : Kernel) : Prop where
  ok : Ok False none s.fs
  cwd : 0 < rc s.fs s.proc.cwd
  live : Vm.Live s.vm s.proc.pagetable s.proc.trapframe (pages s.proc.sz.toNat)
  trapframe : s.proc.trapframe ∉ (s.vm.free + owned s.vm s.proc.pagetable (pages s.proc.sz.toNat) : Multiset Frame)

/-- The process has another image, and the pages of the old one are free. -/
structure Replaced (s t : Kernel) : Prop where
  running : Running t
  outstanding : t.outstanding = s.outstanding
  refs : rc t.fs = rc s.fs
  cwd : t.proc.cwd = s.proc.cwd
  trapframe : t.proc.trapframe = s.proc.trapframe
  freed : owned s.vm s.proc.pagetable (pages s.proc.sz.toNat) ≤ t.vm.free
  pages : (t.vm.free + owned t.vm t.proc.pagetable (pages t.proc.sz.toNat) : Multiset Frame) =
    s.vm.free + owned s.vm s.proc.pagetable (pages s.proc.sz.toNat)
  mem : ∀ f, f ∉ (s.vm.free + owned s.vm s.proc.pagetable (Vm.pages s.proc.sz.toNat) : Multiset Frame) →
    f ≠ s.proc.trapframe → t.vm.mem f = s.vm.mem f

theorem Running.pool (h : Running s) : Pool s.vm :=
  ⟨(Multiset.nodup_add.mp h.live.apart).1, fun f hf => h.live.ram f (Multiset.mem_add.mpr (.inl hf))⟩

/-- What is left when the old address space has been freed. -/
structure Switched (m u : Machine) (old root trapframe : Frame) (n₀ n : ℕ) : Prop where
  img : u.img = m.img
  space : Space u root trapframe n
  freed : owned m old n₀ ≤ u.free
  pages : (u.free + owned u root n : Multiset Frame) = m.free + owned m old n₀
  mem : ∀ f, f ∉ (m.free + owned m old n₀ : Multiset Frame) → f ≠ trapframe → u.mem f = m.mem f

/-- SWITCH: the two address spaces share no page, so freeing the old one leaves the new one alone. -/
theorem Built.switch {old : Frame} {sz : Word} {m₁ : Machine} {E : Vm.Panic → Prop}
    (hl : Vm.Live m old trapframe (pages sz.toNat))
    (htf : trapframe ∉ (m.free + owned m old (pages sz.toNat) : Multiset Frame)) (hb : Built m m' root trapframe n)
    (himg : m₁.img = m'.img) (hfree : m₁.free = m'.free) (hmem : ∀ f, f ≠ trapframe → m₁.mem f = m'.mem f) :
    wp (proc_freepagetable old sz) (fun _ u => Switched m u old root trapframe (pages sz.toNat) n) E m₁ := by
  obtain ⟨hnf, hold, hdisj⟩ := Multiset.nodup_add.mp hl.apart
  have hpages : (m'.free + owned m' root n : Multiset Frame) = m.free := by rw [hb.moved.pages, add_zero]
  have hle : (m'.free : Multiset Frame) ≤ m.free := by rw [← hpages]; exact Multiset.le_add_right _ _
  rw [← hpages] at hnf
  obtain ⟨-, -, hapart⟩ := Multiset.nodup_add.mp hnf
  rw [Multiset.mem_add, not_or] at htf
  -- the old one has not changed
  have hkeep : ∀ f ∈ tables m.mem old, m₁.mem f = m.mem f := fun f hf => by
    have hf : f ∈ owned m old (pages sz.toNat) := Multiset.mem_add.mpr (.inl hf)
    rw [hmem f (by rintro rfl; exact htf.2 hf)]
    refine hb.moved.mem f ?_
    rw [add_zero]
    exact Multiset.disjoint_right.mp hdisj hf
  obtain ⟨hsp, hown⟩ := hl.space.beside (himg.trans hb.moved.img) hkeep
  have hfreed := proc_freepagetable_spec (E := E) hsp (by
    rw [hown, hfree]
    exact Multiset.nodup_of_le (by gcongr) hl.apart) (by
    rw [hown, himg, hb.moved.img]
    exact fun f hf => hl.ram f (Multiset.mem_add.mpr (.inr hf)))
  refine hfreed.mono fun _ u hu => ?_
  rw [hown] at hu
  -- nor has the new one
  have hkeep' : ∀ f ∈ tables m'.mem root, u.mem f = m'.mem f := fun f hf => by
    have hf : f ∈ owned m' root n := Multiset.mem_add.mpr (.inl hf)
    have hfm : f ∈ (m.free : Multiset Frame) := by rw [← hpages]; exact Multiset.mem_add.mpr (.inr hf)
    rw [hu.mem f, hmem f]
    · rintro rfl; exact htf.1 hfm
    · rw [hfree, Multiset.mem_add, not_or]
      exact ⟨Multiset.disjoint_right.mp hapart hf, Multiset.disjoint_left.mp hdisj hfm⟩
  obtain ⟨hsp', hown'⟩ := hb.space.beside (hu.img.trans himg) hkeep'
  have huf : (u.free : Multiset Frame) = m'.free + owned m old (pages sz.toNat) := by
    rw [← hfree, ← hu.pages, add_zero]
  refine ⟨(hu.img.trans himg).trans hb.moved.img, hsp', ?_, ?_, fun f hf hne => ?_⟩
  · rw [huf]; exact Multiset.le_add_left _ _
  · rw [huf, hown', add_right_comm, hpages]
  · rw [hu.mem f, hmem f hne, hb.moved.mem f]
    · rw [add_zero]; exact fun h => hf (Multiset.mem_add.mpr (.inl h))
    · rw [hfree]; exact fun h => hf (Multiset.mem_of_le (by gcongr) h)

/-- The trapframe has been written. -/
structure Marked (t u : Kernel) : Prop where
  rest : u = t.setVm u.vm
  img : u.vm.img = t.vm.img
  free : u.vm.free = t.vm.free
  mem : ∀ f, f ≠ t.proc.trapframe → u.vm.mem f = t.vm.mem f

theorem setTrapframe_spec (off : ℕ) (w : Word) (t : Kernel) : wp (setTrapframe off w) (fun _ u => Marked t u) E t :=
  ⟨rfl, rfl, rfl, fun _ hf => update_of_ne hf ..⟩

/-- COMMIT. -/
theorem commit_spec {path : Str} {entry sz sp : Word} (hs : Running s) (h : Closed s t)
    (hb : Built s.vm t.vm root s.proc.trapframe (pages sz.toNat)) :
    wp (commit path entry root sz sp s.proc.sz) (fun _ u => Replaced s u ∧ u.vm.img = s.vm.img) E t := by
  rw [commit]
  refine (setTrapframe_spec A1 sp t).bind fun _ t₁ h₁ => ?_
  have hp₁ : t₁.proc = s.proc := by rw [h₁.rest]; exact h.proc
  simp only [wp_bind, wp_get, wp_modify, hp₁]
  refine (setTrapframe_spec EPC entry _).mono fun _ t₂ h₂ => (setTrapframe_spec SP sp t₂).mono fun _ t₃ h₃ => ?_
  have hp₂ : t₂.proc = ⟨root, sz, s.proc.trapframe, s.proc.cwd, lastElem path⟩ := by rw [h₂.rest]; rfl
  have hp₃ : t₃.proc = ⟨root, sz, s.proc.trapframe, s.proc.cwd, lastElem path⟩ := by rw [h₃.rest]; exact hp₂
  have ho : t₃.outstanding = s.outstanding := by rw [h₃.rest, h₂.rest, ← h.outstanding, h₁.rest]; rfl
  have hfs : t₃.fs = t.fs := by rw [h₃.rest, h₂.rest, h₁.rest]; rfl
  refine wp_zoom.mpr ((hb.switch hs.live hs.trapframe ?_ ?_ fun f hf => ?_).mono fun _ u hu => ?_)
  · exact h₃.img.trans (h₂.img.trans h₁.img)
  · exact h₃.free.trans (h₂.free.trans h₁.free)
  · have hne : f ≠ t.proc.trapframe := by rw [h.proc]; exact hf
    rw [h₃.mem f (by rw [hp₂]; exact hf), h₂.mem f hf]
    exact h₁.mem f hne
  · have hpages := hu.pages
    have hrun : Running (t₃.setVm u) := by
      refine ⟨?_, ?_, ⟨?_, ?_, ?_⟩, ?_⟩
      · show Ok False none t₃.fs
        rw [hfs]; exact h.ok
      · show 0 < rc t₃.fs t₃.proc.cwd
        rw [hfs, h.refs, hp₃]; exact hs.cwd
      · show Space u t₃.proc.pagetable t₃.proc.trapframe (pages t₃.proc.sz.toNat)
        rw [hp₃]; exact hu.space
      · show (u.free + owned u t₃.proc.pagetable (pages t₃.proc.sz.toNat) : Multiset Frame).Nodup
        rw [hp₃, hpages]; exact hs.live.apart
      · show ∀ f ∈ (u.free + owned u t₃.proc.pagetable (pages t₃.proc.sz.toNat) : Multiset Frame), u.img.Ram f
        rw [hp₃, hpages, hu.img]; exact hs.live.ram
      · show t₃.proc.trapframe ∉ (u.free + owned u t₃.proc.pagetable (pages t₃.proc.sz.toNat) : Multiset Frame)
        rw [hp₃, hpages]; exact hs.trapframe
    refine ⟨⟨hrun, ho, ?_, ?_, ?_, hu.freed, ?_, hu.mem⟩, hu.img⟩
    · show rc t₃.fs = rc s.fs
      rw [hfs, h.refs]
    · show t₃.proc.cwd = s.proc.cwd
      rw [hp₃]
    · show t₃.proc.trapframe = s.proc.trapframe
      rw [hp₃]
    · show (u.free + owned u t₃.proc.pagetable (pages t₃.proc.sz.toNat) : Multiset Frame) = _
      rw [hp₃, hpages]

/-! ### `exec` -/

theorem pages_mul (n : ℕ) : pages (n * 4096) = n := by rw [pages]; omega

/-- The outcome of `exec`. -/
def Atomic (s : Kernel) (argv : List Str) (r : ℤ) (t : Kernel) : Prop :=
  (r = -1 ∧ Untouched s t) ∨ (r = argv.length ∧ Replaced s t)

/-- The same, on the same machine. -/
def AtomicOn (s : Kernel) (argv : List Str) (r : ℤ) (t : Kernel) : Prop := Atomic s argv r t ∧ t.vm.img = s.vm.img

theorem AtomicOn.failed {argv : List Str} {r : ℤ} (h : r = -1 ∧ Untouched s t) : AtomicOn s argv r t :=
  ⟨.inl h, h.2.moved.img⟩

theorem uvmalloc_stack {sz : Word} {E : Vm.Panic → Prop} (hl : Vm.Live m root trapframe (pages sz.toNat)) :
    wp (uvmalloc root (PGROUNDUP sz) (PGROUNDUP sz + 2 * PGSIZE) PTE_W) (fun sz1 m' =>
      (sz1 = 0 ∧ Became m m' root trapframe (pages sz.toNat) (pages (PGROUNDUP sz).toNat)) ∨
      (sz1.toNat = (pages sz.toNat + 2) * 4096 ∧ Became m m' root trapframe (pages sz.toNat) (pages sz1.toNat))) E m := by
  have hcard := hl.card
  have hup : (PGROUNDUP sz).toNat = pages sz.toNat * 4096 := PGROUNDUP_toNat (by rw [pages] at hcard; omega)
  have hpages : pages (PGROUNDUP sz).toNat = pages sz.toNat := by rw [hup, pages_mul]
  have hnew : (PGROUNDUP sz + 2 * PGSIZE).toNat = (pages sz.toNat + 2) * 4096 := by
    rw [BitVec.toNat_add, hup, show (2 * PGSIZE).toNat = 8192 from rfl]; omega
  rw [← hpages] at hl
  refine (hl.uvmalloc (show PTE_W.toNat < 1024 by decide)).mono fun sz1 m' hm => ?_
  rw [hpages] at hm ⊢
  refine hm.imp (fun h => ⟨h.1, h.2.2⟩) ?_
  rintro ⟨hr, hb, _⟩
  refine ⟨?_, hb⟩
  have hlt : ¬ PGROUNDUP sz + 2 * PGSIZE < PGROUNDUP sz := by
    rw [BitVec.not_lt, BitVec.le_def, hnew, hup]; omega
  rw [hr, if_neg hlt, hnew]

/-- STACK: a guard page, the arguments, and the new image. -/
theorem start_spec {path : Str} {argv : List Str} {entry sz : Word} (hs : Running s) (hargv : argv.length < MAXARG)
    (h : Closed s t) (hb : Built s.vm t.vm root s.proc.trapframe (pages sz.toNat)) :
    wp (start path argv entry root sz) (AtomicOn s argv) E t := by
  have hl := hs.pool.live hb
  have hcard := hl.card
  have hbad : ∀ {sz' : Word} {u : Kernel}, u = t.setVm u.vm →
      Became t.vm u.vm root s.proc.trapframe (pages sz.toNat) (pages sz'.toNat) →
      wp (bad (some root) sz' none) (AtomicOn s argv) E u := fun hu hbc => by
    refine (bad_closed hs.pool ?_ (hb.became hbc)).mono fun r v hv => .failed hv
    rw [hu]; exact h.setVm _
  rw [start, wp_bind, wp_get, h.proc, wp_bind]
  refine wp_zoom.mpr ((uvmalloc_stack hl).mono fun sz1 m hm => ?_)
  rcases hm with ⟨h0, hbc⟩ | ⟨hsz1, hbc⟩
  · rw [if_pos h0]
    exact hbad rfl hbc
  have hne : sz1 ≠ 0 := fun h0 => by
    rw [h0] at hsz1
    exact absurd hsz1 (by rw [show BitVec.toNat (0 : Word) = 0 from rfl]; omega)
  have hguard : sz1 - 2 * PGSIZE = vaddr (pages sz.toNat) := BitVec.eq_of_toNat_eq (by
    rw [vaddr_toNat (by omega), BitVec.toNat_sub, hsz1, show (2 * PGSIZE).toNat = 8192 from rfl]; omega)
  rw [if_neg hne, wp_bind]
  refine wp_zoom.mpr (((hbc.live hl).uvmclear hguard (by rw [hsz1, pages_mul]; omega)).mono fun _ m₂ hm₂ => ?_)
  have hbc₂ := hbc.trans hm₂.1
  refine (pushArgs_spec argv _ _ _ (by simpa using hargv) (hbc₂.live hl)).bind ?_
  rintro r u ⟨hu, hbu⟩
  have hbc₃ := hbc₂.trans hbu
  have hu : u = t.setVm u.vm := by rw [hu]; rfl
  cases r with
  | none => exact hbad hu hbc₃
  | some r =>
    obtain ⟨sp, ustack⟩ := r
    refine (pushUstack_spec (hbc₃.live hl)).bind ?_
    rintro r v ⟨hv, hbv⟩
    have hbc₄ := hbc₃.trans hbv
    have hv : v = t.setVm v.vm := by rw [hv, hu]; rfl
    cases r with
    | none => exact hbad hv hbc₄
    | some sp =>
      refine (commit_spec hs ?_ (hb.became hbc₄)).bind fun _ w hw => ⟨.inr ⟨rfl, hw.1⟩, hw.2⟩
      rw [hv]; exact h.setVm _

theorem load_on {path : Str} {argv : List Str} (hs : Running s) (hargv : argv.length < MAXARG) (h : Opened s t ip)
    (hvm : t.vm = s.vm) : wp (load path argv ip) (AtomicOn s argv) E t := by
  have hbad : ∀ {m : Machine}, Moved s.vm m 0 0 → wp (bad none 0 (some ip)) (AtomicOn s argv) E (t.setVm m) := fun hm =>
    (bad_first (h.setVm _) hm).mono fun r u hu => .failed hu
  have hsame : Moved s.vm t.vm 0 0 := by rw [hvm]; exact ⟨rfl, rfl, fun _ _ => rfl⟩
  rw [load]
  refine (readHeader_same h.ok.wf h.ready (by decide) (by decide)).bind fun r u hu => ?_
  rw [hu]
  cases r with
  | none => exact hbad hsame
  | some bytes =>
    refine wp_ite.mpr ⟨fun _ => hbad hsame, fun _ => ?_⟩
    generalize Elfhdr.read bytes = elf
    have hp : Pool t.vm := by rw [hvm]; exact hs.pool
    rw [wp_bind, wp_get, h.proc, wp_bind]
    refine wp_zoom.mpr ((proc_pagetable_spec _ hp.apart hp.ram).mono fun r m hm => ?_)
    cases r with
    | none => exact hbad (hvm ▸ hm)
    | some root =>
      have hb : Built s.vm m root s.proc.trapframe (pages (0 : Word).toNat) :=
        ⟨hm.2, by rw [show owned m root _ = tables m.mem root from add_zero _, ← hvm]; exact hm.1⟩
      have hload : Loading (t.setVm m) ip root s.proc.trapframe (pages (0 : Word).toNat) :=
        ⟨h.ok.wf, h.ready, hs.pool.live hb, fun x hx => absurd hx (Nat.not_lt_zero _)⟩
      refine (loadProgram_spec _ _ 0 _ (Nat.mod_lt _ (by decide)) hload).bind ?_
      rintro r u ⟨hu, hbu⟩
      have hop : Opened s u ip := by rw [hu]; exact h.setVm _
      have hbu := hb.became hbu
      refine wp_ite.mpr ⟨fun _ => ?_, fun _ => (bad_open hs.pool hop hbu).mono fun r v hv => .failed hv⟩
      refine hop.close.bind fun _ v hv => hv.bind fun _ w hw => start_spec hs hargv hw.1 ?_
      rw [hw.2]; exact hbu

theorem load_spec {path : Str} {argv : List Str} (hs : Running s) (hargv : argv.length < MAXARG) (h : Opened s t ip)
    (hvm : t.vm = s.vm) : wp (load path argv ip) (Atomic s argv) E t :=
  (load_on hs hargv h hvm).mono fun _ _ h => h.1

theorem openImage_spec (path : Str) (hs : Running s) : wp (openImage s.proc.cwd path) (fun r fs =>
      Ok False none fs ∧ rc fs = more (rc s.fs) r ∧ ∀ ip, r = some ip → Ready fs ip ∧ (fs.itable ip).locked = true)
    (fun _ => True) s.fs := by
  rw [openImage]
  refine ((namei_go path hs.ok hs.cwd).weaken fun _ _ => trivial).bind ?_
  rintro r fs ⟨hgo, hrc⟩
  cases r with
  | none => exact ⟨hgo.ok, hrc, by rintro _ ⟨⟩⟩
  | some ip =>
    have hpos : 0 < rc fs ip := by rw [hrc]; exact plus_pos _ ip
    refine (((ilock_go hgo.ok hpos).and (ilock_locked fs ip)).weaken fun _ _ => trivial).bind ?_
    rintro _ fs' ⟨hl, hk⟩
    refine ⟨(hl.go (H := rc fs) hgo.ok).ok, hl.ref.trans hrc, fun j hj => ?_⟩
    cases hj
    exact ⟨hl.ready, hk⟩

/-- `exec` failed: the process is what it was, and so are the pages that are free. -/
structure Failed (s t : Kernel) : Prop extends Untouched s t where
  running : Running t
  user : ubyte t.vm t.proc.pagetable = ubyte s.vm s.proc.pagetable
  trapframe : t.vm.mem s.proc.trapframe = s.vm.mem s.proc.trapframe

theorem Untouched.failed (hs : Running s) (h : Untouched s t) : Failed s t := by
  obtain ⟨-, -, hdisj⟩ := Multiset.nodup_add.mp hs.live.apart
  have hmem : ∀ f, f ∉ (s.vm.free : Multiset Frame) → t.vm.mem f = s.vm.mem f := fun f hf =>
    h.moved.mem f (by rwa [add_zero])
  have hown : ∀ f ∈ owned s.vm s.proc.pagetable (pages s.proc.sz.toNat), t.vm.mem f = s.vm.mem f := fun f hf =>
    hmem f (Multiset.disjoint_right.mp hdisj hf)
  have htab : ∀ f ∈ tables s.vm.mem s.proc.pagetable, t.vm.mem f = s.vm.mem f := fun f hf =>
    hown f (Multiset.mem_add.mpr (.inl hf))
  have hfree : (t.vm.free : Multiset Frame) = s.vm.free := by have := h.moved.pages; rwa [add_zero, add_zero] at this
  obtain ⟨hsp, hsame⟩ := hs.live.space.beside h.moved.img htab
  refine ⟨h, ⟨h.ok, by rw [h.refs, h.proc]; exact hs.cwd, ⟨?_, ?_, ?_⟩, ?_⟩, funext fun a => ?_, ?_⟩
  · rw [h.proc]; exact hsp
  · rw [h.proc, hsame, hfree]; exact hs.live.apart
  · rw [h.proc, hsame, hfree, h.moved.img]; exact hs.live.ram
  · rw [h.proc, hsame, hfree]; exact hs.trapframe
  · rw [h.proc, ubyte, ubyte, uframe, uframe, (sameTable htab).lookup, ← uframe]
    cases hf : uframe s.vm.mem s.proc.pagetable (a / 4096) with
    | none => rfl
    | some f =>
      obtain ⟨hlt, rfl⟩ := hs.live.space.uframe_lt hf
      have hin : frameOf (lookup s.vm.mem s.proc.pagetable (a / 4096)) ∈
          frames (lookup s.vm.mem s.proc.pagetable) 0 (pages s.proc.sz.toNat) := mem_frames (Nat.zero_le _) (by omega)
      have hpage := hown _ (Multiset.mem_add.mpr (.inr hin))
      rw [Option.map_some, Option.map_some, hpage]
  · exact hmem _ fun hf => hs.trapframe (Multiset.mem_add.mpr (.inl hf))

/-- The bare machine, with a page for the root of a page table. -/
def fivePages : Machine := { Machine.bare with free := 0x80100#52 :: 0x80104#52 :: Machine.bare.free }

/-- A process in the root directory, with an empty address space and its trapframe at `0x80200000`. -/
def Kernel.boot : Kernel where
  fs := (FS.fresh .std).setInode 0 (Inode.zero.recycle ROOTINO)
  vm := ((proc_pagetable 0x80200#52).after fivePages).getD fivePages
  outstanding := 0
  proc := ⟨0x80100#52, 0, 0x80200#52, 0, []⟩

theorem boot_pool : Pool fivePages := by
  refine ⟨by decide, fun f hf => ?_⟩
  simp only [fivePages, Machine.bare, List.mem_cons, List.not_mem_nil, or_false] at hf
  rcases hf with rfl | rfl | rfl | rfl | rfl <;> exact ⟨by decide, by decide⟩

theorem boot_built : Built fivePages Kernel.boot.vm 0x80100#52 0x80200#52 0 := by
  have hrun : (proc_pagetable 0x80200#52 fivePages).toOption.any (fun r => decide (r.1 = some 0x80100#52)) = true := by
    decide +kernel
  obtain ⟨r, m, hm, hr⟩ := (proc_pagetable_spec (E := fun _ => False) 0x80200#52 boot_pool.apart boot_pool.ram).returns
  have hvm : Kernel.boot.vm = m := by rw [Kernel.boot, Prog.after, hm]; rfl
  rw [hm] at hrun
  obtain rfl : r = some 0x80100#52 := of_decide_eq_true hrun
  rw [hvm]
  exact ⟨hr.2, by rw [show owned m _ 0 = tables m.mem _ from add_zero _]; exact hr.1⟩

theorem boot_running : Running .boot := by
  have himage := fresh_image _ Superblock.std_small
  have hok := Sysfile.ok_of_image himage Sysfile.entered_fresh
  have hgot : Got (.fresh .std) ROOTINO 0 Kernel.boot.fs :=
    got_first himage.wf rfl Superblock.std.root fun j hj => absurd hj (Nat.lt_irrefl 0)
  refine ⟨(hgot.go hok False.elim).ok, ?_, boot_pool.live boot_built, ?_⟩
  · show 0 < rc Kernel.boot.fs 0
    rw [hgot.ref]; exact plus_pos _ _
  · show 0x80200#52 ∉ (Kernel.boot.vm.free + owned Kernel.boot.vm 0x80100#52 0 : Multiset Frame)
    rw [boot_built.moved.pages, add_zero]
    decide

end Minios.Exec
