import Minios.Fs.Inode

/-! `kernel/fs.c`: what the functions on blocks and inodes can do to the state.

    `balloc`, `bfree`, `bmap`, `iupdate`, `itrunc` and `readi` change the state in two ways only: they
    `log_write` a block, and they change the copy of an inode. So they keep every relation between an
    earlier and a later state that ALLOWS these two. -/

namespace Minios.Fs
open Schemes Function

/-- The relation holds across a logged write and a change to the copy of an inode. -/
structure Allows (R : FS → FS → Prop) : Prop where
  write : ∀ s b x, R s (s.write b x)
  setD : ∀ s k d, R s (s.setD k d)

variable {R : FS → FS → Prop} [IsPreorder FS R]

theorem keeps_bread (b : ℕ) : Keeps R (bread b) := .bind .get fun _ => .pure _

theorem keeps_inode (k : IPtr) : Keeps R (inode k) := .bind .get fun _ => .pure _

omit [IsPreorder FS R] in
theorem keeps_logWrite (hR : Allows R) (b : ℕ) (x : Block) : Keeps R (logWrite b x) := fun s => hR.write s b x

omit [IsPreorder FS R] in
theorem keeps_setD (hR : Allows R) (k : IPtr) (f : Dinode → Dinode) : Keeps R (setD k f) := fun s => hR.setD s k _

theorem keeps_ballocLoop (hR : Allows R) : ∀ rounds b, Keeps R (ballocLoop rounds b)
  | 0, _ => .pure _
  | rounds + 1, b => by
      rw [ballocLoop]
      refine .bind .get fun s => .ite (.bind (keeps_bread _) fun bp => ?_) (.pure _)
      split
      · exact .bind (keeps_logWrite hR _ _) fun _ => .bind (keeps_logWrite hR _ _) fun _ => .pure _
      · exact keeps_ballocLoop hR rounds _

theorem keeps_balloc (hR : Allows R) : Keeps R balloc := .bind .get fun _ => keeps_ballocLoop hR _ _

theorem keeps_bfree (hR : Allows R) (b : ℕ) : Keeps R (bfree b) :=
  .bind .get fun _ => .bind (keeps_bread _) fun _ => .ite (keeps_logWrite hR _ _) (.fail _)

theorem keeps_iupdate (hR : Allows R) (k : IPtr) : Keeps R (iupdate k) :=
  .bind .get fun _ => .bind (keeps_inode k) fun _ => .bind (keeps_bread _) fun _ => keeps_logWrite hR _ _

theorem keeps_bmapDirect (hR : Allows R) (k : IPtr) (j : Fin (NDIRECT + 1)) : Keeps R (bmapDirect k j) := by
  refine .bind (keeps_inode k) fun ip => .ite (.bind (keeps_balloc hR) fun addr => .ite (.pure _) ?_) (.pure _)
  exact .bind (keeps_setD hR _ _) fun _ => .pure _

theorem keeps_bmap (hR : Allows R) (k : IPtr) (bn : ℕ) : Keeps R (bmap k bn) := by
  rw [bmap]
  split
  · exact keeps_bmapDirect hR _ _
  · refine .ite (.bind (keeps_bmapDirect hR _ _) fun ind => .ite (.pure _) ?_) (.fail _)
    refine .bind (keeps_bread _) fun bp => .ite (.bind (keeps_balloc hR) fun addr => ?_) (.pure _)
    exact .ite (.bind (keeps_logWrite hR _ _) fun _ => .pure _) (.pure _)

theorem keeps_itruncDirect (hR : Allows R) (k : IPtr) : ∀ js, Keeps R (itruncDirect k js)
  | [] => .pure _
  | j :: js => by
      rw [itruncDirect]
      refine .bind (keeps_inode k) fun ip => .ite (.bind (keeps_bfree hR _) fun _ => ?_) ?_
      · exact .bind (keeps_setD hR _ _) fun _ => keeps_itruncDirect hR k js
      · exact keeps_itruncDirect hR k js

theorem keeps_itruncIndirect (hR : Allows R) (bp : Block) : ∀ js, Keeps R (itruncIndirect bp js)
  | [] => .pure _
  | j :: js => by
      rw [itruncIndirect]
      refine .ite (.bind (keeps_bfree hR _) fun _ => ?_) ?_
      · exact keeps_itruncIndirect hR bp js
      · exact keeps_itruncIndirect hR bp js

theorem keeps_itrunc (hR : Allows R) (k : IPtr) : Keeps R (itrunc k) := by
  have hend : Keeps R (do setD k (·.setSize 0); iupdate k) :=
    .bind (keeps_setD hR _ _) fun _ => keeps_iupdate hR k
  refine .bind (keeps_itruncDirect hR k _) fun _ => .bind (keeps_inode k) fun ip => .ite ?_ hend
  refine .bind (keeps_bread _) fun bp => .bind (keeps_itruncIndirect hR bp _) fun _ => ?_
  exact .bind (keeps_bfree hR _) fun _ => .bind (keeps_setD hR _ _) fun _ => hend

theorem keeps_readiLoop (hR : Allows R) (k : IPtr) (dst : ℕ → Bool) (n : ℕ) :
    ∀ rounds off tot out, Keeps R (readiLoop k dst n rounds off tot out)
  | 0, _, _, _ => .pure _
  | rounds + 1, off, tot, out => by
      rw [readiLoop]
      refine .ite (.bind (keeps_bmap hR _ _) fun addr => .ite (.pure _) ?_) (.pure _)
      exact .bind (keeps_bread _) fun bp => .ite (keeps_readiLoop hR k dst n rounds _ _ _) (.pure _)

theorem keeps_readi (hR : Allows R) (k : IPtr) (dst : ℕ → Bool) (off n : ℕ) : Keeps R (readi k dst off n) :=
  .bind (keeps_inode k) fun _ => .ite (.pure _) (keeps_readiLoop hR k dst _ _ _ _ _)

/-- `writei` also tears a block, if the source ends there. -/
theorem keeps_writeiLoop (hR : Allows R) (hT : ∀ s b x, R s (s.tear b x)) (k : IPtr) (src : ℕ → Option UInt8) (n : ℕ) :
    ∀ rounds off tot, Keeps R (writeiLoop k src n rounds off tot)
  | 0, _, _ => .pure _
  | rounds + 1, off, tot => by
      rw [writeiLoop]
      refine .ite (.bind (keeps_bmap hR _ _) fun addr => .ite (.pure _) ?_) (.pure _)
      refine .bind (keeps_bread _) fun bp => .ite (.bind (keeps_logWrite hR _ _) fun _ => ?_) ?_
      · exact keeps_writeiLoop hR hT k src n rounds _ _
      · exact .bind (fun s => hT s _ _) fun _ => .pure _

theorem keeps_writei (hR : Allows R) (hT : ∀ s b x, R s (s.tear b x)) (k : IPtr) (src : ℕ → Option UInt8) (off n : ℕ) :
    Keeps R (writei k src off n) := by
  refine .bind (keeps_inode k) fun ip => .ite (.pure _) (.ite (.pure _) ?_)
  refine .bind (keeps_writeiLoop hR hT k src n _ _ _) fun r => .bind (keeps_inode k) fun ip => .ite ?_ ?_
  · exact .bind (keeps_setD hR _ _) fun _ => .bind (keeps_iupdate hR k) fun _ => .pure _
  · exact .bind (keeps_iupdate hR k) fun _ => .pure _

/-! ### Logged writes -/

/-- Every buffer is as it was, or holds what was last logged. -/
def Logged (s t : FS) : Prop := ∀ b, t.torn b = none ∨ t.torn b = s.torn b ∧ t.disk b = s.disk b

instance : IsPreorder FS Logged where
  refl _ _ := .inr ⟨rfl, rfl⟩
  trans s t u h h' b := by
    rcases h' b with hu | ⟨hu, hd⟩
    · exact .inl hu
    · rw [hu, hd]
      exact h b

theorem allows_logged : Allows Logged where
  write s b x c := by
    rcases eq_or_ne c b with rfl | hne
    · exact .inl (update_self ..)
    · exact .inr ⟨update_of_ne hne .., update_of_ne hne ..⟩
  setD _ _ _ _ := .inr ⟨rfl, rfl⟩

end Minios.Fs
