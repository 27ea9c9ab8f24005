import Mathlib.Tactic

/-!
# Stable insertion into an ordered list

Queues that are kept in order by a linear scan all insert in the same way: the scan passes the
entries that satisfy a test and the new entry goes in front of the first entry that fails it.
`insertWhere p x xs` is that scan. The lemmas below say what the scan does to membership, to a
pairwise ordering (`insertWhere_pairwise`), and to the relative order of the old entries.
-/

namespace BaseNx.Lib

open List

universe u

variable {α : Type u}

/-- Insert `x` in front of the first entry that fails the test `p`. -/
def insertWhere (p : α → Bool) (x : α) : List α → List α
  | [] => [x]
  | y :: ys => if p y then y :: insertWhere p x ys else x :: y :: ys

variable {p : α → Bool} {y : α}

theorem insertWhere_cons_pos (h : p y = true) (x : α) (ys : List α) :
    insertWhere p x (y :: ys) = y :: insertWhere p x ys := by
  simp [insertWhere, h]

theorem insertWhere_cons_neg (h : p y = false) (x : α) (ys : List α) :
    insertWhere p x (y :: ys) = x :: y :: ys := by
  simp [insertWhere, h]

variable {x : α}

/-- An entry that all others precede goes to the end. -/
theorem insertWhere_of_forall : ∀ {xs : List α}, (∀ y ∈ xs, p y = true) →
    insertWhere p x xs = xs ++ [x]
  | [], _ => rfl
  | _ :: _, h => by
    rw [insertWhere_cons_pos (h _ mem_cons_self), insertWhere_of_forall (forall_mem_cons.1 h).2]
    rfl

/-- The scan splits the list at the insertion point. -/
theorem insertWhere_split (p : α → Bool) (x : α) :
    ∀ xs : List α, ∃ pre post, xs = pre ++ post ∧ insertWhere p x xs = pre ++ x :: post ∧
      (∀ y ∈ pre, p y = true) ∧ (∀ y ∈ post.head?, p y = false)
  | [] => ⟨[], [], rfl, rfl, by simp, by simp⟩
  | y :: ys => by
    cases hy : p y with
    | true =>
      obtain ⟨pre, post, hs, hi, hpre, hpost⟩ := insertWhere_split p x ys
      refine ⟨y :: pre, post, by rw [hs]; rfl, ?_, ?_, hpost⟩
      · rw [insertWhere_cons_pos hy, hi]; rfl
      · exact forall_mem_cons.2 ⟨hy, hpre⟩
    | false =>
      refine ⟨[], y :: ys, rfl, insertWhere_cons_neg hy x ys, by simp, ?_⟩
      intro z hz
      simp only [head?_cons, Option.mem_def, Option.some.injEq] at hz
      exact hz ▸ hy

theorem insertWhere_perm (p : α → Bool) (x : α) (xs : List α) :
    (insertWhere p x xs).Perm (x :: xs) := by
  obtain ⟨pre, post, hs, hi, -, -⟩ := insertWhere_split p x xs
  rw [hi, hs]
  exact perm_middle

variable {xs : List α}

@[simp] theorem mem_insertWhere : y ∈ insertWhere p x xs ↔ y = x ∨ y ∈ xs := by
  rw [(insertWhere_perm p x xs).mem_iff, mem_cons]

/-- Insertion keeps a transitive pairwise order when the entries the scan passes stay in front of
`x` and an entry that stops the scan may follow `x`. -/
theorem insertWhere_pairwise {R : α → α → Prop} (htrans : ∀ a b, R x a → R a b → R x b) :
    ∀ {xs : List α}, xs.Pairwise R → (∀ y ∈ xs, p y = true → R y x) →
      (∀ y ∈ xs, p y = false → R x y) → (insertWhere p x xs).Pairwise R
  | [], _, _, _ => pairwise_singleton R x
  | y :: ys, hs, hbefore, hafter => by
    obtain ⟨hy, hys⟩ := pairwise_cons.1 hs
    cases hp : p y with
    | true =>
      rw [insertWhere_cons_pos hp]
      refine pairwise_cons.2 ⟨?_, ?_⟩
      · intro z hz
        rcases mem_insertWhere.1 hz with rfl | hz
        · exact hbefore y mem_cons_self hp
        · exact hy z hz
      · exact insertWhere_pairwise htrans hys
          (forall_mem_cons.1 hbefore).2
          (forall_mem_cons.1 hafter).2
    | false =>
      rw [insertWhere_cons_neg hp]
      have hxy : R x y := hafter y mem_cons_self hp
      refine pairwise_cons.2 ⟨?_, hs⟩
      exact forall_mem_cons.2 ⟨hxy, fun z hz => htrans y z hxy (hy z hz)⟩

/-- Insertion into related lists, when the tests agree on related entries. -/
theorem forall₂_insertWhere {β : Type u} {R : α → β → Prop} {q : β → Bool} {x' : β} {xs : List α}
    {xs' : List β} (hx : R x x') (h : Forall₂ (fun y y' => R y y' ∧ p y = q y') xs xs') :
    Forall₂ R (insertWhere p x xs) (insertWhere q x' xs') := by
  induction h with
  | nil => exact .cons hx .nil
  | @cons y y' ys ys' hy hys ih =>
    cases hp : p y with
    | true =>
      rw [insertWhere_cons_pos hp, insertWhere_cons_pos (hy.2 ▸ hp)]
      exact .cons hy.1 ih
    | false =>
      rw [insertWhere_cons_neg hp, insertWhere_cons_neg (hy.2 ▸ hp)]
      exact .cons hx (.cons hy.1 (hys.imp fun _ _ h => h.1))

/-- Mapping commutes with insertion when the test only depends on the image. -/
theorem map_insertWhere {β : Type u} (f : α → β) (q : β → Bool) (x : α) (xs : List α) :
    (insertWhere (fun y => q (f y)) x xs).map f = insertWhere q (f x) (xs.map f) := by
  have h : Forall₂ (fun y y' => f y = y' ∧ q (f y) = q y') xs (xs.map f) :=
    forall₂_map_right_iff.2 (forall₂_same.2 fun _ _ => ⟨rfl, rfl⟩)
  exact forall₂_eq_eq_eq ▸ forall₂_map_left_iff.2 (forall₂_insertWhere rfl h)

/-- The last entry stays the last one if it fails the test. -/
theorem getLast?_insertWhere (hlast : xs.getLast? = some y) (hy : p y = false) :
    (insertWhere p x xs).getLast? = some y := by
  obtain ⟨pre, post, hs, hi, hpre, _⟩ := insertWhere_split p x xs
  rw [hi]
  cases post with
  | nil =>
    -- the whole list passes the test, and so does its last entry
    rw [append_nil] at hs
    have hmem : y ∈ pre := hs ▸ mem_of_getLast? hlast
    rw [hpre y hmem] at hy
    exact nomatch hy
  | cons z post =>
    rw [hs, getLast?_append_cons] at hlast
    rw [getLast?_append_cons, getLast?_cons_cons]
    exact hlast

end BaseNx.Lib
