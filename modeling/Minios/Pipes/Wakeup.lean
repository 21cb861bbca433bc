import Minios.Pipes.Pipe

/-! `kernel/pipe.c`: wakeups on a pipe.

    A reader may sleep only while the pipe is empty and its write end open, a writer only while it is
    full and its read end open. Whoever ends such a condition holds `pi->lock` and still has to call
    `wakeup`; until it has passed the sleeper in `proc[]` it OWES that process a wakeup.

    `pipewrite` does not always pay. It puts bytes one by one and tests `killed` before each, and if it
    finds itself killed it returns at once, although readers may be asleep that have bytes to read:

        reader asleep ─▶ write: byte 0 ─▶ kill(writer) ─▶ return -1: one byte, reader asleep

    Without a kill between two bytes of a write no wakeup is lost. -/

namespace Minios.Pipes
open Schemes Function

variable {nproc p q : ℕ} {s t : Sys}

/-- What a process that sleeps on `c` waits the end of. -/
def Cond (pi : Pipe) : Chan → Prop
  | .nread => pi.empty = true ∧ pi.writeopen = true
  | .nwrite => pi.full = true ∧ pi.readopen = true

/-- NO LOST WAKEUP: while `pi->lock` is free, processes sleep only for a reason. -/
def NoLostWakeup (s : Sys) : Prop :=
  s.lock = none → ∀ q z, (s.proc q).pc = .asleep z → Cond s.pipe z.chan

/-- Does a process at this point hold `pi->lock`? -/
def Pc.holds : Pc → Bool
  | .run _ | .wakeup _ _ _ => true
  | _ => false

/-- Will a process sleep on `c` next without looking at the pipe again? -/
def Next.bound (c : Chan) : Next → Prop
  | .sleep z => z.chan = c
  | _ => False

def Pc.bound (c : Chan) : Pc → Prop
  | .idle | .acquire _ => False
  | .run k | .wakeup _ _ k => k.bound c
  | .dozing z | .asleep z => z.chan = c

/-- The holder of `pi->lock`, process `pr`, owes process `q` a wakeup on `c`. -/
def Owes (pi : Pipe) (pr : Proc) (c : Chan) (q : ℕ) : Prop := match pr.pc with
  | .wakeup c' j _ => c' = c ∧ j ≤ q
  | .run (.write i) => c = .nread ∧ 0 < i ∧ (i < pr.n → pr.killed = false ∧ pi.readopen = true)
  | .run (.copy _) => c = .nwrite
  | _ => False

structure Inv (nproc : ℕ) (s : Sys) : Prop where
  idle : ∀ q, nproc ≤ q → (s.proc q).pc = .idle
  lock : ∀ p, s.lock = some p ↔ (s.proc p).pc.holds = true
  cond : ∀ c q, (s.proc q).pc.bound c →
    Cond s.pipe c ∨ ∃ p, p ≠ q ∧ s.lock = some p ∧ Owes s.pipe (s.proc p) c q

/-- Between two bytes of a write. -/
def Proc.midWrite (pr : Proc) : Bool := match pr.pc with
  | .run (.write i) => 0 < i ∧ i < pr.n
  | _ => false

/-- The condition: no process is killed between two bytes of a write. -/
def noKillMidWrite (s : Sys) : Label → Prop
  | .kill p => (s.proc p).midWrite = false
  | _ => True

/-! ### Frames -/

/-- A step of a process that does not hold the lock, before or after, and touches no one else. -/
theorem Inv.other (h : Inv nproc s) (hp : p < nproc) {pr : Proc} (h1 : (s.proc p).pc.holds = false)
    (h2 : pr.pc.holds = false) (hbound : ∀ c, pr.pc.bound c → (s.proc p).pc.bound c) :
    Inv nproc (s.setProc p pr) := by
  refine ⟨fun q hq => ?_, fun q => ?_, fun c q hq => ?_⟩
  · rw [Sys.setProc_ne _ (by omega)]; exact h.idle q hq
  · rcases eq_or_ne q p with rfl | hne
    · rw [Sys.setProc_self, h2, ← h1]; exact h.lock q
    · rw [Sys.setProc_ne _ hne]; exact h.lock q
  · have hq' : (s.proc q).pc.bound c := by
      rcases eq_or_ne q p with rfl | hne
      · rw [Sys.setProc_self] at hq; exact hbound c hq
      · rwa [Sys.setProc_ne _ hne] at hq
    refine (h.cond c q hq').imp_right ?_
    rintro ⟨m, hmq, hm, howes⟩
    refine ⟨m, hmq, hm, ?_⟩
    have hne : m ≠ p := by
      rintro rfl
      rw [(h.lock m).mp hm] at h1; cases h1
    rw [Sys.setProc_ne _ hne]; exact howes

/-- A step of the holder of the lock that touches no other process. -/
theorem Inv.holder (h : Inv nproc s) (hp : (s.proc p).pc.holds = true)
    (hproc : ∀ q, q ≠ p → t.proc q = s.proc q)
    (hlock : t.lock = if (t.proc p).pc.holds then some p else none)
    (hself : ∀ c, (t.proc p).pc.bound c → Cond t.pipe c)
    (hcond : ∀ c q, q ≠ p → Cond s.pipe c ∨ Owes s.pipe (s.proc p) c q →
      (s.proc q).pc.bound c → Cond t.pipe c ∨ t.lock = some p ∧ Owes t.pipe (t.proc p) c q) :
    Inv nproc t := by
  have hs := (h.lock p).mpr hp
  have hpn : p < nproc := by
    by_contra hn
    rw [h.idle p (Nat.not_lt.mp hn)] at hp; cases hp
  refine ⟨fun q hq => ?_, fun q => ?_, fun c q hq => ?_⟩
  · rw [hproc q (by omega)]; exact h.idle q hq
  · rcases eq_or_ne q p with rfl | hne
    · rw [hlock]; split <;> simp_all
    · have hno : (s.proc q).pc.holds ≠ true := fun hq => by
        have := (h.lock q).mpr hq
        rw [hs, Option.some.injEq] at this
        exact hne this.symm
      rw [hproc q hne, hlock]
      split
      · simp [hne.symm, hno]
      · simp [hno]
  · rcases eq_or_ne q p with rfl | hne
    · exact Or.inl (hself c hq)
    · rw [hproc q hne] at hq
      refine (hcond c q hne ?_ hq).imp_right fun hc => ⟨p, hne.symm, hc⟩
      refine (h.cond c q hq).imp_right ?_
      rintro ⟨m, _, hm, howes⟩
      rw [hs, Option.some.injEq] at hm
      rw [hm]; exact howes

/-! ### Steps of the holder -/

theorem inv_setPc (h : Inv nproc s) (hp : (s.proc p).pc.holds = true) {pc : Pc} (hpc : pc.holds = true)
    (hself : ∀ c, pc.bound c → Cond s.pipe c)
    (hcond : ∀ c q, q ≠ p → Owes s.pipe (s.proc p) c q → (s.proc q).pc.bound c →
      Owes s.pipe ((s.proc p).at pc) c q) : Inv nproc (s.setPc p pc) := by
  refine h.holder hp (fun q hq => s.setPc_ne hq pc) ?_ (fun c hc => hself c ?_) fun c q hq hold hb => ?_
  · rw [Sys.setPc_self]
    exact ((h.lock p).mpr hp).trans (if_pos hpc).symm
  · rwa [Sys.setPc_self] at hc
  · rw [Sys.setPc_self]
    rcases hold with hold | hold
    · exact Or.inl hold
    · exact Or.inr ⟨(h.lock p).mpr hp, hcond c q hq hold hb⟩

/-- The condition that the holder itself is bound to wait for. -/
theorem Inv.own {c : Chan} (h : Inv nproc s) (hp : (s.proc p).pc.holds = true)
    (hb : (s.proc p).pc.bound c) : Cond s.pipe c := by
  refine (h.cond c p hb).resolve_right ?_
  rintro ⟨m, hmp, hm, _⟩
  refine hmp ?_
  rw [(h.lock p).mpr hp, Option.some.injEq] at hm
  exact hm.symm

theorem inv_writeRound {i : ℕ} (h : Inv nproc s) (hp : (s.proc p).pc = .run (.write i)) :
    Inv nproc (writeRound s p i) := by
  have hholds : (s.proc p).pc.holds = true := by rw [hp]; rfl
  have howes : ∀ c q, Owes s.pipe (s.proc p) c q → c = .nread ∧ 0 < i ∧
      (i < (s.proc p).n → (s.proc p).killed = false ∧ s.pipe.readopen = true) := by
    intro c q ho
    rw [Owes, hp] at ho
    exact ho
  rw [writeRound]
  split
  · rename_i hlt
    split
    · -- killed or no reader left: then nothing is owed
      rename_i hstop
      refine inv_setPc h hholds rfl (fun _ hc => hc.elim) fun c q _ ho _ => ?_
      obtain ⟨-, -, h3⟩ := howes c q ho
      rcases hstop with hstop | hstop
      · rw [(h3 hlt).2] at hstop; cases hstop
      · rw [(h3 hlt).1] at hstop; cases hstop
    · rename_i hgo
      rw [not_or, Bool.not_eq_false, Bool.not_eq_true] at hgo
      split
      · rename_i hfull
        refine inv_setPc h hholds rfl (fun c hc => ?_) fun c q _ ho _ => ⟨(howes c q ho).1.symm, Nat.zero_le _⟩
        obtain rfl : Chan.nwrite = c := hc
        exact ⟨hfull, hgo.1⟩
      · rename_i hfull
        split
        · exact inv_setPc h hholds rfl (fun _ hc => hc.elim) fun c q _ ho _ => ⟨(howes c q ho).1.symm, Nat.zero_le _⟩
        · -- a byte is put: readers are owed a wakeup, and writers do not sleep
          rename_i ch _
          refine h.holder hholds (fun q hq => Sys.setPc_ne _ hq _) ?_ ?_ fun c q _ hold _ => ?_
          · rw [Sys.setPc_self]; exact (h.lock p).mpr hholds
          · rw [Sys.setPc_self]; exact fun _ hc => hc.elim
          · rw [Sys.setPc_self]
            cases c with
            | nread => exact Or.inr ⟨(h.lock p).mpr hholds, rfl, Nat.succ_pos _, fun _ => ⟨hgo.2, hgo.1⟩⟩
            | nwrite =>
              rcases hold with hold | hold
              · exact absurd hold.1 hfull
              · cases (howes _ q hold).1
  · exact inv_setPc h hholds rfl (fun _ hc => hc.elim) fun c q _ ho _ => ⟨(howes c q ho).1.symm, Nat.zero_le _⟩

theorem inv_readRound (h : Inv nproc s) (hp : (s.proc p).pc = .run .read) : Inv nproc (readRound s p) := by
  have hholds : (s.proc p).pc.holds = true := by rw [hp]; rfl
  have howes : ∀ c q, ¬ Owes s.pipe (s.proc p) c q := by
    intro c q ho
    rw [Owes, hp] at ho
    exact ho
  rw [readRound]
  split
  · rename_i hwait
    split
    · exact inv_setPc h hholds rfl (fun _ hc => hc.elim) fun c q _ ho _ => absurd ho (howes c q)
    · refine inv_setPc h hholds rfl (fun c hc => ?_) fun c q _ ho _ => absurd ho (howes c q)
      obtain rfl : Chan.nread = c := hc
      exact hwait
  · exact inv_setPc h hholds rfl (fun _ hc => hc.elim) fun c q _ ho _ => absurd ho (howes c q)

theorem inv_copyRound {i : ℕ} (h : Inv nproc s) (hp : (s.proc p).pc = .run (.copy i)) :
    Inv nproc (copyRound s p i) := by
  have hholds : (s.proc p).pc.holds = true := by rw [hp]; rfl
  have howes : ∀ c q, Owes s.pipe (s.proc p) c q → c = .nwrite := by
    intro c q ho
    rw [Owes, hp] at ho
    exact ho
  -- when a byte is taken, readers do not sleep and writers are owed a wakeup
  have htake : ∀ pc : Pc, s.pipe.empty = false → pc.holds = true → (∀ c, ¬ pc.bound c) →
      (∀ q, Owes s.pipe.take ((s.proc p).at pc) .nwrite q) →
      Inv nproc ((s.setPipe s.pipe.take).setPc p pc) := by
    intro pc hne hpc hbound hpay
    refine h.holder hholds (fun q hq => Sys.setPc_ne _ hq _) ?_ ?_ fun c q _ hold _ => ?_
    · rw [Sys.setPc_self]; exact ((h.lock p).mpr hholds).trans (if_pos hpc).symm
    · rw [Sys.setPc_self]; exact fun c hc => absurd hc (hbound c)
    · rw [Sys.setPc_self]
      cases c with
      | nread =>
        rcases hold with hold | hold
        · rw [hold.1] at hne; cases hne
        · cases howes _ q hold
      | nwrite => exact Or.inr ⟨(h.lock p).mpr hholds, hpay q⟩
  rw [copyRound]
  split
  · rename_i hgo
    split
    · exact htake _ hgo.2 rfl (fun _ hc => hc) fun _ => rfl
    · exact htake _ hgo.2 rfl (fun _ hc => hc) fun _ => ⟨rfl, Nat.zero_le _⟩
  · exact inv_setPc h hholds rfl (fun _ hc => hc.elim) fun c q _ ho _ => ⟨(howes c q ho).symm, Nat.zero_le _⟩

theorem inv_close {writable : Bool} (h : Inv nproc s) (hp : (s.proc p).pc = .run (.close writable)) :
    Inv nproc (s.exec p (.close writable)) := by
  have hholds : (s.proc p).pc.holds = true := by rw [hp]; rfl
  have howes : ∀ c q, ¬ Owes s.pipe (s.proc p) c q := by
    intro c q ho
    rw [Owes, hp] at ho
    exact ho
  refine h.holder hholds (fun q hq => Sys.setPc_ne _ hq _) ?_ ?_ fun c q _ hold _ => ?_
  · rw [Sys.exec, Sys.setPc_self]; exact (h.lock p).mpr hholds
  · rw [Sys.exec, Sys.setPc_self]; exact fun _ hc => hc.elim
  · rw [Sys.exec, Sys.setPc_self]
    have hold := hold.resolve_right (howes c q)
    cases writable <;> cases c
    · exact Or.inl hold
    · exact Or.inr ⟨(h.lock p).mpr hholds, rfl, Nat.zero_le _⟩
    · exact Or.inr ⟨(h.lock p).mpr hholds, rfl, Nat.zero_le _⟩
    · exact Or.inl hold

theorem inv_unlock {k : Next} {pc : Pc} (h : Inv nproc s) (hp : (s.proc p).pc = .run k)
    (howes : ∀ c q, ¬ Owes s.pipe (s.proc p) c q) (hpc : pc.holds = false)
    (hbound : ∀ c, pc.bound c → (s.proc p).pc.bound c) : Inv nproc ((s.setLock none).setPc p pc) := by
  have hholds : (s.proc p).pc.holds = true := by rw [hp]; rfl
  refine h.holder hholds (fun q hq => Sys.setPc_ne _ hq _) ?_ ?_ fun c q _ hold _ => ?_
  · rw [Sys.setPc_self, Proc.at, hpc]; rfl
  · rw [Sys.setPc_self]; exact fun c hc => h.own hholds (hbound c hc)
  · exact Or.inl (hold.resolve_right (howes c q))

theorem inv_exec {k : Next} (h : Inv nproc s) (hp : (s.proc p).pc = .run k) : Inv nproc (s.exec p k) := by
  cases k with
  | write i => exact inv_writeRound h hp
  | read => exact inv_readRound h hp
  | copy i => exact inv_copyRound h hp
  | close writable => exact inv_close h hp
  | sleep z =>
    refine inv_unlock h hp (fun _ _ ho => ?_) rfl fun _ hc => ?_
    · rw [Owes, hp] at ho; exact ho
    · rw [hp]; exact hc
  | ret r =>
    refine inv_unlock h hp (fun _ _ ho => ?_) rfl fun _ hc => hc.elim
    rw [Owes, hp] at ho; exact ho

/-! ### Waking up -/

theorem wake_bound {c c' : Chan} {pc : Pc} (h : (pc.wake c).bound c') : pc.bound c' := by
  cases pc with
  | asleep z =>
    rw [Pc.wake] at h
    split at h
    · exact h.elim
    · exact h
  | _ => exact h

/-- Who has been woken, or was not asleep, is not bound for the channel. -/
theorem not_bound_wake {c : Chan} {pc : Pc} (hd : pc.isDozing = false) (hh : pc.holds = false) :
    ¬ (pc.wake c).bound c := by
  cases pc with
  | asleep z =>
    rw [Pc.wake]
    split
    · exact id
    · rename_i hne; exact hne
  | dozing z => cases hd
  | run k | wakeup c' j k => cases hh
  | _ => exact id

theorem wake_holds (c : Chan) (pc : Pc) : (pc.wake c).holds = pc.holds := by
  cases pc with
  | asleep z =>
    rw [Pc.wake]
    split <;> rfl
  | _ => rfl

/-- `wakeup` goes on to the next process: the one it leaves is not bound for the channel. -/
theorem inv_pass {c : Chan} {j : ℕ} {k : Next} (h : Inv nproc s) (hp : (s.proc p).pc = .wakeup c j k)
    (hj : j ≠ p → ¬ (s.proc j).pc.bound c) : Inv nproc (s.setPc p (.wakeup c (j + 1) k)) := by
  have hholds : (s.proc p).pc.holds = true := by rw [hp]; rfl
  refine inv_setPc h hholds rfl (fun c' hc => h.own hholds (by rw [hp]; exact hc)) fun c' q hq ho hb => ?_
  rw [Owes, hp] at ho
  obtain ⟨rfl, hle⟩ := ho
  have hne : q ≠ j := by rintro rfl; exact hj hq hb
  exact ⟨rfl, by omega⟩

/-- `wakeup` is through: no one is owed a wakeup any more. -/
theorem inv_woken {c : Chan} {j : ℕ} {k : Next} (h : Inv nproc s) (hp : (s.proc p).pc = .wakeup c j k)
    (hj : nproc ≤ j) : Inv nproc (s.setPc p (.run k)) := by
  have hholds : (s.proc p).pc.holds = true := by rw [hp]; rfl
  refine inv_setPc h hholds rfl (fun c' hc => h.own hholds (by rw [hp]; exact hc)) fun c' q hq ho hb => ?_
  rw [Owes, hp] at ho
  rw [h.idle q (by omega)] at hb
  exact hb.elim

theorem inv_acquire {e : Entry} (h : Inv nproc s) (hp : p < nproc) (hpc : (s.proc p).pc = .acquire e)
    (hfree : s.lock = none) : Inv nproc ((s.setLock (some p)).setPc p (.run e.next)) := by
  refine ⟨fun q hq => ?_, fun q => ?_, fun c q hq => ?_⟩
  · rw [Sys.setPc_ne _ (by omega)]; exact h.idle q hq
  · rcases eq_or_ne q p with rfl | hne
    · rw [Sys.setPc_self]; exact iff_of_true rfl rfl
    · rw [Sys.setPc_ne _ hne]
      refine iff_of_false (fun he => hne (Option.some.inj he).symm) fun hh => ?_
      have := (h.lock q).mpr hh
      rw [hfree] at this; cases this
  · left
    rcases eq_or_ne q p with rfl | hne
    · rw [Sys.setPc_self] at hq
      cases e <;> exact hq.elim
    · rw [Sys.setPc_ne _ hne] at hq
      refine (h.cond c q hq).resolve_right ?_
      rintro ⟨m, _, hm, _⟩
      rw [hfree] at hm; cases hm

theorem inv_move (h : Inv nproc s) (hp : p < nproc) (hstep : move nproc s p = some t) : Inv nproc t := by
  rw [move] at hstep
  split at hstep
  case h_1 => cases hstep
  case h_2 e hpc =>
    split at hstep
    · rename_i hfree
      exact Option.some.inj hstep ▸ inv_acquire h hp hpc hfree
    · cases hstep
  case h_3 k hpc => exact Option.some.inj hstep ▸ inv_exec h hpc
  case h_4 c j k hpc =>
    split at hstep
    · rename_i hj
      split at hstep
      · rename_i hjp
        exact Option.some.inj hstep ▸ inv_pass h hpc fun hne => absurd hjp hne
      · rename_i hjp
        split at hstep
        · cases hstep
        · rename_i hdoze
          obtain rfl := Option.some.inj hstep
          have hfree : (s.proc j).pc.holds = false := by
            refine Bool.eq_false_iff.mpr fun hh => hjp ?_
            have hlock := (h.lock p).mpr (by rw [hpc]; rfl)
            rw [(h.lock j).mpr hh, Option.some.injEq] at hlock
            exact hlock
          have hpc' : ((s.setPc j ((s.proc j).pc.wake c)).proc p).pc = .wakeup c j k := by
            rw [Sys.setPc_ne _ (Ne.symm hjp), hpc]
          refine inv_pass (h.other hj hfree ?_ fun c' hc => wake_bound hc) hpc' fun _ => ?_
          · exact (wake_holds c _).trans hfree
          · rw [Sys.setPc_self]
            exact not_bound_wake (Bool.not_eq_true _ ▸ hdoze) hfree
    · rename_i hj
      exact Option.some.inj hstep ▸ inv_woken h hpc (Nat.not_lt.mp hj)
  case h_5 z hpc =>
    obtain rfl := Option.some.inj hstep
    exact h.other hp (by rw [hpc]; rfl) rfl fun c' hc => by rw [hpc]; exact hc
  case h_6 => cases hstep

theorem inv_kill (h : Inv nproc s) (hp : p < nproc)
    (hok : (s.proc p).midWrite = false) : Inv nproc (s.setProc p (s.proc p).kill) := by
  cases hh : (s.proc p).pc.holds with
  | false =>
    refine h.other hp hh ?_ fun c hc => ?_
    · rw [Proc.kill]; split <;> [rfl; exact hh]
    · rw [Proc.kill] at hc
      dsimp only at hc
      split at hc
      · exact hc.elim
      · exact hc
  | true =>
    have hpc : (s.proc p).kill.pc = (s.proc p).pc := by
      rw [Proc.kill]
      dsimp only
      split
      · rename_i hz; rw [hz] at hh; cases hh
      · rfl
    refine h.holder hh (fun q hq => Sys.setProc_ne _ hq _) ?_ ?_ fun c q _ hold _ => ?_
    · rw [Sys.setProc_self, hpc, hh]; exact (h.lock p).mpr hh
    · rw [Sys.setProc_self, hpc]; exact fun c hc => h.own hh hc
    · rw [Sys.setProc_self]
      refine hold.imp_right fun ho => ⟨(h.lock p).mpr hh, ?_⟩
      rw [Owes] at ho ⊢
      rw [hpc]
      rw [Proc.midWrite] at hok
      split at ho
      · exact ho
      · rename_i i hi
        rw [hi] at hok
        refine ⟨ho.1, ho.2.1, fun hlt => ?_⟩
        have := of_decide_eq_false hok
        exact absurd ⟨ho.2.1, hlt⟩ this
      · exact ho
      · exact ho

theorem inv_step {l : Label} (h : Inv nproc s) (hok : noKillMidWrite s l) (hstep : step nproc s l = some t) :
    Inv nproc t := by
  have hbegin : ∀ {p op n src dst e}, (if p < nproc ∧ (s.proc p).pc = .idle then
      some (s.setProc p ((s.proc p).begin op n src dst e)) else none) = some t → Inv nproc t := by
    intro p op n src dst e hs
    split at hs
    · rename_i hc
      exact Option.some.inj hs ▸ h.other hc.1 (by rw [hc.2]; rfl) rfl fun _ hb => hb.elim
    · cases hs
  cases l with
  | write p n src => exact hbegin hstep
  | read p n dst => exact hbegin hstep
  | close p writable => exact hbegin hstep
  | kill p =>
    rw [step] at hstep
    split at hstep
    · rename_i hc
      exact Option.some.inj hstep ▸ inv_kill h hc.1 hok
    · cases hstep
  | move p =>
    rw [step] at hstep
    split at hstep
    · rename_i hp
      exact inv_move h hp hstep
    · cases hstep

theorem inv_init (nproc : ℕ) (data : ℕ → UInt8) : Inv nproc (.init data) :=
  ⟨fun _ _ => rfl, fun _ => iff_of_false (by rintro ⟨⟩) (by rintro ⟨⟩), fun _ _ h => h.elim⟩

instance (s : Sys) : ∀ l, Decidable (noKillMidWrite s l)
  | .kill p => inferInstanceAs (Decidable ((s.proc p).midWrite = false))
  | .write _ _ _ | .read _ _ _ | .close _ _ | .move _ => inferInstanceAs (Decidable True)

/-- CORRECT (no lost wakeup): after every run in which no process is killed between two bytes of a
    write, whoever sleeps while the lock is free has a reason to. -/
theorem no_lost_wakeup {data : ℕ → UInt8} {ls : List Label} (hok : RunOk (step nproc) noKillMidWrite (.init data) ls)
    (hrun : run (step nproc) (.init data) ls = some t) : NoLostWakeup t := by
  have h : Inv nproc t := run_inv_of (fun _ _ _ => inv_step) (inv_init nproc data) hok hrun
  intro hfree q z hz
  refine (h.cond z.chan q (by rw [hz]; rfl)).resolve_right ?_
  rintro ⟨m, _, hm, _⟩
  rw [hfree] at hm; cases hm

/-- Process 0 reads and falls asleep. -/
def readerSleeps : List Label := .read 0 1 (fun _ => true) :: List.replicate 4 (.move 0)

/-- Process 1 writes one byte and wakes process 0, and then both are killed. -/
def writerWakes : List Label :=
  readerSleeps ++ .write 1 1 (fun _ => some 7) :: List.replicate 7 (.move 1) ++ [.kill 0, .kill 1]

theorem no_lost_wakeup_writerWakes : ∃ t, run (step 2) (.init fun _ => 0) writerWakes = some t ∧
    NoLostWakeup t := by
  obtain ⟨t, ht⟩ := Option.isSome_iff_exists.mp
    (show (run (step 2) (.init fun _ => 0) writerWakes).isSome = true by decide +kernel)
  exact ⟨t, ht, no_lost_wakeup (by decide +kernel) ht⟩

/-- Process 1 writes the first of two bytes and is killed: it returns -1. -/
def killedMidWrite : List Label :=
  readerSleeps ++ [.write 1 2 fun _ => some 7, .move 1, .move 1, .kill 1, .move 1, .move 1]

/-- LOST: process 0 sleeps, with a byte in the pipe and the lock free. -/
theorem lost_wakeup_killedMidWrite : ∃ t, run (step 2) (.init fun _ => 0) killedMidWrite = some t ∧
    ¬ NoLostWakeup t := by
  have hview : (run (step 2) (.init fun _ => 0) killedMidWrite).map
      (fun t => (t.lock, (t.proc 0).pc, t.pipe.empty)) = some (none, .asleep .read, false) := by decide +kernel
  obtain ⟨t, ht, hv⟩ := Option.map_eq_some_iff.mp hview
  simp only [Prod.mk.injEq] at hv
  refine ⟨t, ht, fun h => ?_⟩
  have := (h hv.1 0 _ hv.2.1).1
  rw [hv.2.2] at this; cases this

end Minios.Pipes
