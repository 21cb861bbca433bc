import Minios.Exec.Grow

/-! `sys_exec` of `kernel/sysfile.c`, and a process from system call to system call.

        free ──kalloc──▶ argv[] ──kfree──▶ free           PAGES = free + page table + user memory + argv[]

    Whatever a program has in its registers and memory, PAGES stays the same, with no page twice. -/

namespace Minios.Exec
open Schemes Function Fs Vm
open Sysfile (leAt MAXPATH)

variable {s t u : Kernel} {m : Machine} {A B : Multiset Frame} {E : Crash → Prop}

abbrev A0 : ℕ := 112

/-- An argument register, at its offset in the trapframe. -/
def argraw (off : ℕ) : KM Word := do
  let s ← Prog.get
  return BitVec.ofNat 64 (getLE (s.vm.mem s.proc.trapframe) off 8)

/-- Fetch the uint64 at `addr` from the current process; both tests are needed, in case of overflow. -/
def fetchaddr (addr : Word) : KM (Option Word) := do
  let p := (← Prog.get).proc
  if addr ≥ p.sz ∨ addr + 8 > p.sz then return none
  let (r, bytes) ← onVm (copyin p.pagetable addr 8)
  return if r = 0 then some (BitVec.ofNat 64 (leAt bytes 0 8)) else none

theorem cstr_noNul (buf : List UInt8) : 0 ∉ buf.takeWhile (· ≠ 0) := fun h => by simpa using List.mem_takeWhile_imp h

/-- The string in a buffer. -/
def cstr (buf : List UInt8) : Str := ⟨buf.takeWhile (· ≠ 0), cstr_noNul buf⟩

/-- Fetch the string at `addr` from the current process: its length or -1, and what is in the buffer then. -/
def fetchstr (addr : Word) (max : ℕ) : KM (ℤ × List UInt8) := do
  let (r, buf) ← onVm (copyinstr (← Prog.get).proc.pagetable addr max)
  return (if r < 0 then -1 else (cstr buf).bytes.length, buf)

/-- The loop of `sys_exec`: the pages in `argv` so far, as many as the strings; the strings, if all could be fetched. -/
def fetchArgs (uargv : Word) : ℕ → List Frame → List Str → KM (List Frame × Option (List Str))
  | 0, argv, _ => return (argv, none)
  | room + 1, argv, strs => do
    match ← fetchaddr (uargv + BitVec.ofNat 64 (8 * argv.length)) with
    | none => return (argv, none)
    | some uarg =>
      if uarg = 0 then return (argv, some strs)
      match ← onVm kalloc with
      | none => return (argv, none)
      | some page =>
        let (r, buf) ← fetchstr uarg 4096
        onVm (memmove page 0 buf)
        if r < 0 then return (argv ++ [page], none)
        fetchArgs uargv room (argv ++ [page]) (strs ++ [cstr buf])

def kfreeAll : List Frame → VM Unit
  | [] => return
  | page :: argv => do
    kfree page.pa
    kfreeAll argv

def sys_exec : KM ℤ := do
  let uargv ← argraw A1
  let (r, path) ← fetchstr (← argraw A0) MAXPATH
  if r < 0 then return -1
  let (argv, strs) ← fetchArgs uargv MAXARG [] []
  match strs with
  | none =>
    onVm (kfreeAll argv)
    return -1
  | some strs =>
    let ret ← exec (cstr path) strs
    onVm (kfreeAll argv)
    return ret

/-! ### Pages -/

/-- The pages of a process, and the free ones. -/
def Kernel.pages (s : Kernel) : Multiset Frame := s.vm.free + owned s.vm s.proc.pagetable (Vm.pages s.proc.sz.toNat)

/-- From `s` to `t` no page got lost or into use twice: the pages are the same, but for `A`, which the kernel holds; no
    transaction is open and no inode held that was not. -/
structure Accounted (s t : Kernel) (A : Multiset Frame) : Prop where
  running : Running t
  img : t.vm.img = s.vm.img
  pages : t.pages + A = s.pages
  trapframe : t.proc.trapframe = s.proc.trapframe
  files : t.outstanding = s.outstanding ∧ t.proc.cwd = s.proc.cwd ∧ rc t.fs = rc s.fs
  mem : ∀ f ∉ s.pages, f ≠ s.proc.trapframe → t.vm.mem f = s.vm.mem f

theorem Accounted.refl (hs : Running s) : Accounted s s 0 :=
  ⟨hs, rfl, add_zero _, rfl, ⟨rfl, rfl, rfl⟩, fun _ _ _ => rfl⟩

theorem Accounted.trans (h : Accounted s t A) (h' : Accounted t u 0) : Accounted s u A where
  running := h'.running
  img := h'.img.trans h.img
  pages := by rw [← h.pages, ← h'.pages, add_zero]
  trapframe := h'.trapframe.trans h.trapframe
  files := ⟨h'.files.1.trans h.files.1, h'.files.2.1.trans h.files.2.1, h'.files.2.2.trans h.files.2.2⟩
  mem f hf hne := by
    rw [h'.mem f (fun hin => hf ?_) (by rwa [h.trapframe]), h.mem f hf hne]
    rw [← h.pages]
    exact Multiset.mem_add.mpr (.inl hin)

/-- MOVE pages between the free ones and the kernel's, writing only to these and to the trapframe. -/
theorem Accounted.move (hs : Running s) (h : Accounted s t A) (himg : m.img = t.vm.img)
    (hmem : ∀ f, f ∉ (t.vm.free + A : Multiset Frame) → f ≠ s.proc.trapframe → m.mem f = t.vm.mem f)
    (hfree : (m.free + B : Multiset Frame) = t.vm.free + A) : Accounted s (t.setVm m) B := by
  have hpages :
      (t.vm.free + A + owned t.vm t.proc.pagetable (Vm.pages t.proc.sz.toNat) : Multiset Frame) = s.pages := by
    rw [← h.pages, Kernel.pages, add_right_comm]
  have hapart : s.pages.Nodup := hs.live.apart
  have hown : ∀ f ∈ owned t.vm t.proc.pagetable (Vm.pages t.proc.sz.toNat), m.mem f = t.vm.mem f := fun f hf => by
    refine hmem f (fun hin => ?_) ?_
    · rw [← hpages] at hapart
      exact Multiset.disjoint_left.mp (Multiset.nodup_add.mp hapart).2.2 hin hf
    · rintro rfl
      rw [← h.trapframe] at hf
      exact h.running.trapframe (Multiset.mem_add.mpr (.inr hf))
  obtain ⟨hsp, hsame⟩ := h.running.live.space.beside himg fun f hf => hown f (Multiset.mem_add.mpr (.inl hf))
  have hnow : (t.setVm m).pages + B = s.pages := by
    rw [← hpages, ← hfree, add_right_comm, ← hsame]
    rfl
  have hle : (t.setVm m).pages ≤ s.pages := hnow ▸ Multiset.le_add_right _ _
  have himg' : m.img = s.vm.img := himg.trans h.img
  refine ⟨⟨h.running.ok, h.running.cwd, ⟨hsp, Multiset.nodup_of_le hle hapart, fun f hf => ?_⟩, fun hin => ?_⟩, himg',
    hnow, h.trapframe, h.files, fun f hf hne => (hmem f (fun hin => hf ?_) hne).trans (h.mem f hf hne)⟩
  · show m.img.Ram f
    rw [himg']
    exact hs.live.ram f (Multiset.mem_of_le hle hf)
  · exact hs.trapframe (h.trapframe ▸ Multiset.mem_of_le hle hin)
  · exact hpages ▸ Multiset.mem_add.mpr (.inl hin)

/-- Another size, and pages moved between the process and the free ones. -/
theorem Accounted.became {sz : Word} (hs : Running s) (h : Became s.vm m s.proc.pagetable s.proc.trapframe
    (Vm.pages s.proc.sz.toNat) (Vm.pages sz.toNat)) :
    Accounted s { s with vm := m, proc := { s.proc with sz := sz } } 0 where
  running := ⟨hs.ok, hs.cwd, h.live hs.live, by
    rw [show (m.free + owned m _ _ : Multiset Frame) = _ from h.moved.pages]
    exact hs.trapframe⟩
  img := h.moved.img
  pages := (add_zero _).trans h.moved.pages
  trapframe := rfl
  files := ⟨rfl, rfl, rfl⟩
  mem f hf _ := h.moved.mem f hf

/-! ### What the calls do with them -/

theorem fetchaddr_same (hs : Running s) (addr : Word) : wp (fetchaddr addr) (fun _ t => t = s) E s := by
  rw [fetchaddr, wp_bind, wp_get]
  refine wp_ite.mpr ⟨fun _ => rfl, fun _ => ?_⟩
  refine wp_bind.mpr (wp_zoom.mpr ((copyin_spec hs.live.userSpace addr 8).mono ?_))
  rintro r _ ⟨rfl, -⟩
  rfl

theorem fetchstr_same (hs : Running s) (addr : Word) (max : ℕ) : wp (fetchstr addr max) (fun _ t => t = s) E s := by
  rw [fetchstr, wp_bind, wp_get]
  refine wp_bind.mpr (wp_zoom.mpr ((copyinstr_spec hs.live.userSpace addr max).mono ?_))
  rintro r _ ⟨rfl, -⟩
  rfl

theorem fetchArgs_spec (hs : Running s) (uargv : Word) : ∀ room argv strs t, Accounted s t (argv : List Frame) →
    strs.length + room = MAXARG → wp (fetchArgs uargv room argv strs) (fun r u => Accounted s u (r.1 : List Frame) ∧
      ∀ strs', r.2 = some strs' → strs'.length < MAXARG) E t := by
  intro room
  induction room with
  | zero =>
    intro argv strs t h _
    exact ⟨h, by rintro _ ⟨⟩⟩
  | succ room ih =>
    intro argv strs t h hroom
    rw [fetchArgs]
    refine (fetchaddr_same h.running _).bind ?_
    rintro r _ rfl
    cases r with
    | none => exact ⟨h, by rintro _ ⟨⟩⟩
    | some uarg =>
      refine wp_ite.mpr ⟨fun _ => ⟨h, by rintro _ ⟨⟩; omega⟩, fun _ => ?_⟩
      refine wp_bind.mpr (wp_zoom.mpr ((kalloc_spec _).mono fun r m hr => ?_))
      cases r with
      | none =>
        have hr : Denied _ m := hr
        exact ⟨h.move hs hr.img (fun f _ _ => by rw [hr.mem]) (by rw [hr.free]), by rintro _ ⟨⟩⟩
      | some page =>
        have hr : Took _ page m := hr
        rename Kernel => t
        have htook : Accounted s (t.setVm m) (argv ++ [page] : List Frame) := by
          refine h.move hs hr.img (fun f hf _ => ?_) ?_
          · rw [hr.mem, update_of_ne]
            rintro rfl
            exact hf (by simp [hr.free])
          · rw [hr.free, Multiset.coe_add, Multiset.coe_add, Multiset.coe_eq_coe, ← List.append_assoc]
            exact List.perm_append_singleton ..
        refine (fetchstr_same htook.running _ _).bind ?_
        rintro r _ rfl
        refine wp_bind.mpr (wp_zoom.mpr (wp_modify.mpr ?_))
        have hput : Accounted s ((t.setVm m).setVm (m.setMem (update m.mem page (setBytes (m.mem page) 0 r.2))))
            (argv ++ [page] : List Frame) :=
          htook.move hs rfl (fun f hf _ => update_of_ne (by rintro rfl; exact hf (by simp)) _ _) rfl
        refine wp_ite.mpr ⟨fun _ => ⟨hput, by rintro _ ⟨⟩⟩, fun _ => ih _ _ _ hput ?_⟩
        rw [List.length_append, List.length_singleton]
        omega

theorem kfreeAll_spec (hs : Running s) : ∀ argv t, Accounted s t (argv : List Frame) →
    wp (onVm (kfreeAll argv)) (fun _ u => Accounted s u 0) E t := by
  intro argv
  induction argv with
  | nil => exact fun t h => h
  | cons page argv ih =>
    intro t h
    have hin : page ∈ s.pages := h.pages ▸ Multiset.mem_add.mpr (.inr (List.mem_cons_self ..))
    have hram : t.vm.img.Ram page := h.img ▸ hs.live.ram page hin
    refine wp_zoom.mpr (wp_bind.mpr ((kfree_spec hram).mono fun _ m hm => ?_))
    have hgave : Accounted s (t.setVm m) (argv : List Frame) := by
      refine h.move hs hm.img (fun f hf _ => ?_) ?_
      · rw [hm.mem, update_of_ne]
        rintro rfl
        exact hf (by simp)
      · rw [hm.free, ← Multiset.cons_coe, ← Multiset.cons_coe, Multiset.cons_add, Multiset.add_cons]
    exact wp_zoom.mp (ih _ hgave)

theorem exec_accounted (path : Str) {argv : List Str} (hs : Running s) (hargv : argv.length < MAXARG) :
    wp (exec path argv) (fun _ t => Accounted s t 0) (fun e => ∃ x, e = .fs x) s := by
  have hdone : ∀ r t, AtomicOn s argv r t → Accounted s t 0 := by
    rintro r t ⟨⟨-, h⟩ | ⟨-, h⟩, himg⟩
    · have hsame : Accounted s (s.setVm t.vm) 0 := (Accounted.refl hs).move hs himg (fun f hf _ => h.moved.mem f hf)
        h.moved.pages
      refine ⟨(h.failed hs).running, himg, ?_, by rw [h.proc], ⟨h.outstanding, by rw [h.proc], h.refs⟩, hsame.mem⟩
      rw [Kernel.pages, h.proc]
      exact hsame.pages
    · exact ⟨h.running, himg, (add_zero _).trans h.pages, h.trapframe, ⟨h.outstanding, h.cwd, h.refs⟩, h.mem⟩
  refine wp.mono (Q := AtomicOn s argv) ?_ hdone
  rw [exec, wp_bind, begin_op, wp_modify, wp_bind, wp_get, wp_bind]
  refine wp_zoom.mpr (((openImage_spec path hs).weaken fun x _ => ⟨x, rfl⟩).mono ?_)
  rintro r fs ⟨hok, hrc, hip⟩
  cases r with
  | none => exact .failed ⟨rfl, ⟨rfl, rfl, hok, hrc⟩, rfl, rfl, fun _ _ => rfl⟩
  | some ip =>
    obtain ⟨hready, hlocked⟩ := hip ip rfl
    exact load_on hs hargv ⟨rfl, rfl, hok, hready, hlocked, hrc⟩ rfl

theorem sys_exec_accounted (hs : Running s) :
    wp sys_exec (fun _ t => Accounted s t 0) (fun e => ∃ x, e = .fs x) s := by
  simp only [sys_exec, argraw, wp_bind, wp_get, wp_pure]
  generalize BitVec.ofNat 64 (getLE _ A0 8) = a0
  refine (fetchstr_same hs a0 _).mono ?_
  rintro r _ rfl
  refine wp_ite.mpr ⟨fun _ => .refl hs, fun _ => ?_⟩
  refine (fetchArgs_spec hs _ MAXARG [] [] _ (.refl hs) rfl).bind ?_
  rintro r t ⟨h, hlen⟩
  cases hr : r.2 with
  | none => exact (kfreeAll_spec hs r.1 t h).bind fun _ u hu => hu
  | some strs =>
    refine (exec_accounted _ h.running (hlen strs hr)).bind fun _ u hu => ?_
    exact (kfreeAll_spec hs r.1 u (h.trans hu)).bind fun _ v hv => hv

theorem sys_sbrk_accounted (hs : Running s) (a0 : Word) : wp (sys_sbrk a0) (fun _ t => Accounted s t 0) E s := by
  have hgrow : ∀ n, wp (growproc n) (fun _ t => Accounted s t 0) E s := fun n => by
    rw [growproc, wp_bind, wp_get]
    refine wp_ite.mpr ⟨fun _ => ?_, fun _ => wp_ite.mpr ⟨fun _ => ?_, fun _ => .refl hs⟩⟩
    · refine wp_bind.mpr (wp_zoom.mpr ((hs.live.uvmalloc (show PTE_W.toNat < 1024 by decide)).mono fun r m h => ?_))
      rcases h with ⟨hr, -, hb⟩ | ⟨hr, hb, -⟩
      · rw [if_pos hr]
        exact .became hs hb
      · refine wp_ite.mpr ⟨fun h0 => ?_, fun _ => .became hs hb⟩
        -- 0 bytes to 0 bytes
        have hsz : r = s.proc.sz := by split at hr <;> bv_omega
        exact .became hs (hsz ▸ hb)
    · refine wp_bind.mpr (wp_zoom.mpr (hs.live.uvmdealloc.mono fun r m h => ?_))
      exact .became hs h.2
  rw [sys_sbrk, wp_bind, wp_get]
  exact (hgrow _).bind fun r t h => wp_ite.mpr ⟨fun _ => h, fun _ => h⟩

/-! ### From call to call -/

/-- What happens to a process: it has other registers when it traps; bytes are stored in its memory, by itself or by a
    call that copies out; it calls `exec` or `sbrk`. -/
inductive Event where
  | trap (regs : Page)
  | store (va : Word) (bytes : List UInt8)
  | exec
  | sbrk

/-- `syscall` puts the result in `a0`. -/
def Event.handle : Event → KM Unit
  | .trap regs => Prog.modify fun s => s.setVm (s.vm.setMem (update s.vm.mem s.proc.trapframe regs))
  | .store va bytes => do
    let _ ← onVm (copyout (← Prog.get).proc.pagetable va bytes)
  | .exec => do setTrapframe A0 (BitVec.ofInt 64 (← sys_exec))
  | .sbrk => do setTrapframe A0 (← sys_sbrk (← argraw A0))

def handleAll : List Event → KM Unit
  | [] => return
  | e :: es => do
    e.handle
    handleAll es

theorem Accounted.frame (hs : Running s) (page : Page) :
    Accounted s (s.setVm (s.vm.setMem (update s.vm.mem s.proc.trapframe page))) 0 :=
  (Accounted.refl hs).move hs rfl (fun _ _ hne => update_of_ne hne _ _) rfl

theorem result_accounted {w : Word} (h : Accounted s t 0) : wp (setTrapframe A0 w) (fun _ u => Accounted s u 0) E t :=
  h.trans (.frame h.running _)

theorem handle_accounted (e : Event) (hs : Running s) :
    wp e.handle (fun _ t => Accounted s t 0) (fun e => ∃ x, e = .fs x) s := by
  cases e with
  | trap regs => exact .frame hs regs
  | store va bytes =>
    rw [Event.handle, wp_bind, wp_get, wp_bind]
    exact wp_zoom.mpr ((hs.live.copyout va bytes).mono fun _ m h => .became hs h)
  | exec =>
    rw [Event.handle]
    exact (sys_exec_accounted hs).bind fun _ _ => result_accounted
  | sbrk =>
    rw [Event.handle, wp_bind, argraw, wp_bind, wp_get, wp_pure]
    generalize BitVec.ofNat 64 _ = a0
    exact (sys_sbrk_accounted hs a0).bind fun _ _ => result_accounted

theorem handleAll_accounted (es : List Event) (hs : Running s) :
    wp (handleAll es) (fun _ t => Accounted s t 0) (fun e => ∃ x, e = .fs x) s := by
  induction es generalizing s with
  | nil => exact .refl hs
  | cons e es ih => exact (handle_accounted e hs).bind fun _ t h => (ih h.running).mono fun _ u hu => h.trans hu

/-- CORRECT (no page is lost): whatever a process does, with whatever in its registers and its memory, whichever
    programs it executes and whichever allocations fail, the pages that are its own or free are those that were, and
    no page is twice; no transaction is open and no inode held that was not. Only the file system can panic. -/
theorem pages_accounted (es : List Event) (hs : Running s) :
    wp (handleAll es) (fun _ t => Running t ∧ t.pages = s.pages ∧ t.pages.Nodup ∧ t.outstanding = s.outstanding ∧
      t.proc.cwd = s.proc.cwd ∧ rc t.fs = rc s.fs) (fun e => ∃ x, e = .fs x) s :=
  (handleAll_accounted es hs).mono fun _ _ h =>
    ⟨h.running, (add_zero _).symm.trans h.pages, h.running.live.apart, h.files⟩

/-- The first process asks for memory, and executes what is named by no memory at all. -/
theorem pages_accounted_boot : wp (handleAll [.trap fun _ => 1, .sbrk, .exec]) (fun _ t => t.pages = Kernel.boot.pages)
    (fun e => ∃ x, e = .fs x) .boot := (pages_accounted _ boot_running).mono fun _ _ h => h.2.1

/-- The page is neither free nor the process's own. -/
def Kernel.Elsewhere (s : Kernel) (f : Frame) : Prop := f ∉ s.pages ∧ f ≠ s.proc.trapframe

end Minios.Exec
