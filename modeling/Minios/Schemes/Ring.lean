import Mathlib

/-! Circular doubly-linked lists through a sentinel.

    Nodes carry `next` and `prev` pointers. `Seg a xs z` says that following `next` from `a` passes
    exactly the nodes `xs` and arrives at `z`, with every `prev` pointing back; a ring is such a
    segment from the sentinel to itself. The two pointer surgeries of an LRU list — unlink a node,
    put a node right behind the sentinel — keep a ring a ring, and a scan along either pointer sees
    the nodes in order. -/

namespace Minios.Schemes
open Function

variable {α : Type*}

/-- The pointers of all nodes. -/
structure Links (α : Type*) where
  next : α → α
  prev : α → α

namespace Links

/-- From `a` along `next` through exactly `xs` to `z`, and back along `prev`. -/
def Seg (l : Links α) : α → List α → α → Prop
  | a, [], z => l.next a = z ∧ l.prev z = a
  | a, x :: xs, z => (l.next a = x ∧ l.prev x = a) ∧ l.Seg x xs z

/-- The nodes behind the sentinel `h`, in `next` order, each once. -/
def Ring (l : Links α) (h : α) (xs : List α) : Prop := (h :: xs).Nodup ∧ l.Seg h xs h

/-- The same list walked the other way. -/
def flip (l : Links α) : Links α := ⟨l.prev, l.next⟩

theorem seg_append {l : Links α} : ∀ {xs : List α} {a y : α} {ys : List α} {z : α},
    l.Seg a (xs ++ y :: ys) z ↔ l.Seg a xs y ∧ l.Seg y ys z
  | [], a, y, ys, z => Iff.rfl
  | x :: xs, a, y, ys, z => by
      rw [List.cons_append, Seg, Seg, seg_append]
      exact and_assoc.symm

theorem seg_flip {l : Links α} : ∀ {xs : List α} {a z : α},
    l.Seg a xs z → l.flip.Seg z xs.reverse a
  | [], a, z, h => ⟨h.2, h.1⟩
  | x :: xs, a, z, h => by
      rw [List.reverse_cons, seg_append]
      exact ⟨seg_flip h.2, h.1.2, h.1.1⟩

/-- A segment only depends on the pointers along it. -/
theorem Seg.congr {l l' : Links α} : ∀ {xs : List α} {a z : α}, l.Seg a xs z →
    (∀ x ∈ a :: xs, l'.next x = l.next x) → (∀ x ∈ xs ++ [z], l'.prev x = l.prev x) → l'.Seg a xs z
  | [], a, z, h, hn, hp => ⟨(hn a (by simp)).trans h.1, (hp z (by simp)).trans h.2⟩
  | x :: xs, a, z, h, hn, hp => by
      refine ⟨⟨(hn a (by simp)).trans h.1.1, (hp x (by simp)).trans h.1.2⟩, ?_⟩
      exact h.2.congr (fun y hy => hn y (List.mem_cons_of_mem _ hy))
        fun y hy => hp y (List.mem_cons_of_mem _ hy)

/-- The node after `a`. -/
theorem Seg.next_eq {l : Links α} : ∀ {xs : List α} {a z : α}, l.Seg a xs z →
    l.next a = (xs ++ [z]).head (by simp)
  | [], _, _, h => h.1
  | _ :: _, _, _, h => h.1.1

section surgery
variable [DecidableEq α]

/-- `b->next->prev = b->prev; b->prev->next = b->next;` -/
def unlink (l : Links α) (b : α) : Links α :=
  let l := { l with prev := update l.prev (l.next b) (l.prev b) }
  { l with next := update l.next (l.prev b) (l.next b) }

/-- `b->next = h.next; b->prev = &h; h.next->prev = b; h.next = b;` -/
def insertHead (l : Links α) (h b : α) : Links α :=
  let l := { l with next := update l.next b (l.next h) }
  let l := { l with prev := update l.prev b h }
  let l := { l with prev := update l.prev (l.next h) b }
  { l with next := update l.next h b }

/-- Cutting a node out of a segment joins its two halves. -/
theorem Seg.unlink {l : Links α} {b : α} : ∀ {ys : List α} {a z : α} {zs : List α},
    l.Seg a ys b → l.Seg b zs z → (a :: ys ++ b :: zs).Nodup → z ∉ ys ++ b :: zs →
    (l.unlink b).Seg a (ys ++ zs) z
  | [], a, z, zs, hy, hz, hnd, hzn => by
      have hnb : l.next b ≠ b := by
        rw [hz.next_eq]
        cases zs with
        | nil => simpa using hzn
        | cons n zs =>
          simp only [List.cons_append, List.head_cons]
          rintro rfl
          simp at hnd
      have hprev : (l.unlink b).prev = update l.prev (l.next b) a := by
        rw [Links.unlink, hy.2]
      have hnext : (l.unlink b).next = update l.next a (l.next b) := by
        simp only [Links.unlink]
        rw [update_of_ne hnb.symm, hy.2]
      cases zs with
      | nil =>
        refine ⟨?_, ?_⟩
        · rw [hnext, update_self, hz.1]
        · rw [hprev, hz.1, update_self]
      | cons n zs =>
        have hn : l.next b = n := hz.1.1
        simp only [List.nil_append, List.cons_append, List.nodup_cons, List.mem_cons,
          not_or] at hnd hzn
        refine ⟨⟨?_, ?_⟩, hz.2.congr (fun x hx => ?_) fun x hx => ?_⟩
        · rw [hnext, update_self, hn]
        · rw [hprev, hn, update_self]
        · rw [hnext, update_of_ne]
          rintro rfl
          rcases List.mem_cons.mp hx with h | h
          · exact hnd.1.2.1 h
          · exact hnd.1.2.2 h
        · rw [hprev, hn, update_of_ne]
          rintro rfl
          rcases List.mem_append.mp hx with h | h
          · exact hnd.2.2.1 h
          · exact hzn.2.1 (List.mem_singleton.mp h).symm
  | y :: ys, a, z, zs, hy, hz, hnd, hzn => by
      have hnd' : (y :: ys ++ b :: zs).Nodup := (List.nodup_cons.mp hnd).2
      have ih := Seg.unlink hy.2 hz hnd' (fun h => hzn (List.mem_cons_of_mem _ h))
      have hp : l.prev b ∈ y :: ys := by
        have := (seg_flip hy.2).next_eq
        rw [show l.flip.next b = l.prev b from rfl] at this
        rw [this]
        have hmem : (ys.reverse ++ [y]).head (by simp) ∈ ys.reverse ++ [y] := List.head_mem _
        rw [List.mem_append, List.mem_reverse, List.mem_singleton] at hmem
        exact List.mem_cons.mpr hmem.symm
      have hnmem : l.next b ∈ zs ++ [z] := by rw [hz.next_eq]; exact List.head_mem _
      have hnb : l.next b ≠ b := by
        rintro h
        rw [h] at hnmem
        rcases List.mem_append.mp hnmem with h' | h'
        · have := (List.nodup_append.mp hnd').2.1
          exact (List.nodup_cons.mp this).1 h'
        · exact hzn (by rw [← List.mem_singleton.mp h']; simp)
      refine ⟨⟨?_, ?_⟩, ih⟩
      · simp only [Links.unlink]
        rw [update_of_ne hnb.symm, update_of_ne]
        · exact hy.1.1
        · rintro rfl
          exact (List.nodup_cons.mp hnd).1 (List.mem_append_left _ hp)
      · simp only [Links.unlink]
        rw [update_of_ne]
        · exact hy.1.2
        · intro hyn
          rw [← hyn] at hnmem
          rcases List.mem_append.mp hnmem with h' | h'
          · rw [List.cons_append, List.nodup_cons] at hnd'
            exact hnd'.1 (by simp [h'])
          · exact hzn (by rw [← List.mem_singleton.mp h']; simp)

theorem Ring.unlink {l : Links α} {h b : α} {ys zs : List α} (hr : l.Ring h (ys ++ b :: zs)) :
    (l.unlink b).Ring h (ys ++ zs) := by
  obtain ⟨hnd, hs⟩ := hr
  obtain ⟨h1, h2⟩ := seg_append.mp hs
  refine ⟨?_, h1.unlink h2 hnd (List.nodup_cons.mp hnd).1⟩
  refine hnd.sublist (List.Sublist.cons_cons _ ?_)
  exact (List.Sublist.refl ys).append (List.sublist_cons_self b zs)

/-- Putting a new node right behind the sentinel. -/
theorem Ring.insertHead {l : Links α} {h b : α} {xs : List α} (hr : l.Ring h xs)
    (hb : b ∉ h :: xs) : (l.insertHead h b).Ring h (b :: xs) := by
  obtain ⟨hnd, hs⟩ := hr
  rw [List.mem_cons, not_or] at hb
  have hnext : (l.insertHead h b).next = update (update l.next b (l.next h)) h b := rfl
  have hprev : (l.insertHead h b).prev = update (update l.prev b h) (l.next h) b := by
    simp only [Links.insertHead]
    rw [update_of_ne (Ne.symm hb.1)]
  refine ⟨?_, ⟨?_, ?_⟩, ?_⟩
  · simp only [List.nodup_cons, List.mem_cons, not_or] at hnd ⊢
    exact ⟨⟨Ne.symm hb.1, hnd.1⟩, hb.2, hnd.2⟩
  · rw [hnext, update_self]
  · rw [hprev, update_of_ne, update_self]
    rw [hs.next_eq]
    cases xs with
    | nil => exact hb.1
    | cons x xs => exact fun he => hb.2 (by simp [he])
  · cases xs with
    | nil =>
      have hh : l.next h = h := hs.1
      refine ⟨?_, ?_⟩
      · rw [hnext, update_of_ne hb.1, update_self, hh]
      · rw [hprev, hh, update_self]
    | cons x xs =>
      have hx : l.next h = x := hs.1.1
      simp only [List.nodup_cons, List.mem_cons, not_or] at hnd hb
      refine ⟨⟨?_, ?_⟩, hs.2.congr (fun y hy => ?_) fun y hy => ?_⟩
      · rw [hnext, update_of_ne hb.1, update_self, hx]
      · rw [hprev, hx, update_self]
      · rw [hnext, update_of_ne, update_of_ne]
        · rintro rfl
          rcases List.mem_cons.mp hy with h' | h'
          · exact hb.2.1 h'
          · exact hb.2.2 h'
        · rintro rfl
          rcases List.mem_cons.mp hy with h' | h'
          · exact hnd.1.1 h'
          · exact hnd.1.2 h'
      · rw [hprev, hx, update_of_ne, update_of_ne]
        · rintro rfl
          rcases List.mem_append.mp hy with h' | h'
          · exact hb.2.2 h'
          · exact hb.1 (List.mem_singleton.mp h')
        · rintro rfl
          rcases List.mem_append.mp hy with h' | h'
          · exact hnd.2.1 h'
          · exact hnd.1.1 (List.mem_singleton.mp h').symm

end surgery

/-! ### Walking -/

/-- The `n` nodes that follow `a`. -/
def follow (f : α → α) : ℕ → α → List α
  | 0, _ => []
  | n + 1, a => f a :: follow f n (f a)

/-- Following `next` along a segment passes its nodes in order. -/
theorem Seg.follow {l : Links α} : ∀ {xs : List α} {a z : α}, l.Seg a xs z →
    Links.follow l.next (xs.length + 1) a = xs ++ [z]
  | [], _, _, h => by simp [Links.follow, h.1]
  | x :: xs, a, z, h => by
      rw [List.length_cons, Links.follow, h.1.1, h.2.follow, List.cons_append]

/-- From the sentinel, `next` visits the nodes of a ring and returns, `prev` visits them reversed. -/
theorem Ring.follow {l : Links α} {h : α} {xs : List α} (hr : l.Ring h xs) :
    Links.follow l.next (xs.length + 1) h = xs ++ [h] ∧
    Links.follow l.prev (xs.length + 1) h = xs.reverse ++ [h] := by
  refine ⟨hr.2.follow, ?_⟩
  have := (seg_flip hr.2).follow
  rwa [List.length_reverse] at this

/-- `for (b = a; b != h; b = f b) if (P b) return b;`, at most `n` rounds. -/
def scan [DecidableEq α] (f : α → α) (h : α) (P : α → Bool) : ℕ → α → Option α
  | 0, _ => none
  | n + 1, a => if a = h then none else if P a then some a else scan f h P n (f a)

/-- A scan along a segment finds the first node with the property. -/
theorem Seg.scan [DecidableEq α] {l : Links α} {h : α} {P : α → Bool} :
    ∀ {xs : List α} {a : α} {n : ℕ}, l.Seg a xs h → h ∉ xs → xs.length < n →
      Links.scan l.next h P n (l.next a) = xs.find? P
  | [], a, n, hs, _, hn => by
      obtain ⟨m, rfl⟩ := Nat.exists_eq_add_of_lt hn
      simp [Links.scan, hs.1]
  | x :: xs, a, n, hs, hh, hn => by
      rw [List.length_cons] at hn
      obtain ⟨m, rfl⟩ : ∃ m, n = m + 1 := ⟨n - 1, by omega⟩
      rw [List.mem_cons, not_or] at hh
      rw [hs.1.1, Links.scan, if_neg (Ne.symm hh.1), hs.2.scan hh.2 (by omega), List.find?_cons]
      cases P x <;> rfl

end Links

end Minios.Schemes
