import Mathlib.Tactic

/-!
# Arrays whose order does not matter

A small array without an order loses an entry by moving the last entry into its place
(`swapRemove`); the largest entry is found by a scan (`firstMax`). Up to the order, the first is the
removal of one entry (`swapRemove_perm`), and the second finds an upper bound of all entries
(`firstMax_spec`).
-/

namespace BaseNx.Lib

open List

universe u

variable {α : Type u}

/-! ## Removal -/

/-- Entry `i` is replaced by the last entry, and the array gets shorter by one. -/
def swapRemove (l : List α) (i : Nat) : List α :=
  match l.getLast? with
  | none => []
  | some x => (l.set i x).dropLast

theorem swapRemove_append_singleton (l : List α) (y : α) (i : Nat) :
    swapRemove (l ++ [y]) i = ((l ++ [y]).set i y).dropLast := by
  simp [swapRemove]

theorem swapRemove_perm {l : List α} {i : Nat} {x : α} (h : l[i]? = some x) :
    (x :: swapRemove l i).Perm l := by
  rcases eq_nil_or_concat l with rfl | ⟨l, y, rfl⟩
  · simp at h
  · rw [concat_eq_append] at h ⊢
    rw [swapRemove_append_singleton]
    rcases lt_or_ge i l.length with hlt | hge
    · -- the entry is not the last one: the last one takes its place
      rw [getElem?_append_left hlt] at h
      obtain ⟨-, rfl⟩ := List.getElem?_eq_some_iff.1 h
      rw [set_append_left i y hlt, dropLast_concat]
      have hsplit : l.take i ++ l[i] :: l.drop (i + 1) = l := by
        rw [getElem_cons_drop, take_append_drop]
      rw [set_eq_take_append_cons_drop, if_pos hlt]
      calc (l[i] :: (l.take i ++ y :: l.drop (i + 1))).Perm
            (l[i] :: y :: (l.take i ++ l.drop (i + 1))) := List.Perm.cons _ perm_middle
        _ |>.Perm (y :: l[i] :: (l.take i ++ l.drop (i + 1))) := List.Perm.swap _ _ _
        _ |>.Perm (y :: (l.take i ++ l[i] :: l.drop (i + 1))) := List.Perm.cons _ perm_middle.symm
        _ |>.Perm (l ++ [y]) := by rw [hsplit]; exact (perm_append_singleton y l).symm
    · have hi : i = l.length := by
        have := (List.getElem?_eq_some_iff.1 h).1
        rw [length_append, length_singleton] at this
        omega
      subst hi
      rw [getElem?_concat_length] at h
      obtain rfl := Option.some.inj h
      rw [set_append_right _ _ (Nat.le_refl _), Nat.sub_self, set_cons_zero,
        dropLast_concat]
      exact (perm_append_singleton y l).symm

/-! ## Largest entry -/

section Max

variable [LinearOrder α]

/-- The scan: `best` is the largest entry so far and stands at `j`; the next entry stands at `i`. -/
def firstMaxFrom (j : Nat) (best : α) (i : Nat) : List α → Nat
  | [] => j
  | x :: xs => if best < x then firstMaxFrom i x (i + 1) xs else firstMaxFrom j best (i + 1) xs

/-- The position of the first largest entry. -/
def firstMax : List α → Nat
  | [] => 0
  | x :: xs => firstMaxFrom 0 x 1 xs

theorem firstMaxFrom_spec (xs : List α) :
    ∀ {pre : List α} {j : Nat} {best : α}, pre[j]? = some best → (∀ y ∈ pre, y ≤ best) →
      ∃ m, (pre ++ xs)[firstMaxFrom j best pre.length xs]? = some m ∧ ∀ y ∈ pre ++ xs, y ≤ m := by
  induction xs with
  | nil =>
    intro pre j best hj hmax
    rw [append_nil]
    exact ⟨best, hj, hmax⟩
  | cons x xs ih =>
    intro pre j best hj hmax
    have hlen : pre.length + 1 = (pre ++ [x]).length := by simp
    have happ : pre ++ x :: xs = (pre ++ [x]) ++ xs := by simp
    rw [firstMaxFrom, hlen, happ]
    split
    · rename_i hlt
      refine ih (by rw [getElem?_concat_length]) fun y hy => ?_
      rcases mem_append.1 hy with hy | hy
      · exact (hmax y hy).trans hlt.le
      · exact (mem_singleton.1 hy).le
    · rename_i hge
      have hjlt : j < pre.length := (List.getElem?_eq_some_iff.1 hj).1
      refine ih (by rw [getElem?_append_left hjlt]; exact hj) fun y hy => ?_
      rcases mem_append.1 hy with hy | hy
      · exact hmax y hy
      · exact mem_singleton.1 hy ▸ not_lt.1 hge

theorem firstMax_spec {l : List α} (h : l ≠ []) :
    ∃ m, l[firstMax l]? = some m ∧ ∀ y ∈ l, y ≤ m := by
  cases l with
  | nil => exact absurd rfl h
  | cons x xs =>
    exact @firstMaxFrom_spec _ _ xs [x] 0 x rfl fun y hy => (mem_singleton.1 hy).le

end Max

end BaseNx.Lib
