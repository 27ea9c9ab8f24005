import Mathlib.Tactic

/-!
# Counting semaphores

A count and the tasks that wait for one. A negative count is the number of waiting tasks, and nobody
waits while the count is not negative (`Balanced`). Which of the waiting tasks a `post` releases is
left open: it is given as an argument, and `Receives` says which choices there are.

A task that gives up its wait changes the semaphore in the same way as one that gets a count, so
both are `release`.
-/

namespace BaseNx.Lib

open List

universe u

/-- A count, and the tasks that wait. -/
structure CountingSem (τ : Type u) where
  count : Int
  waiters : List τ
  deriving DecidableEq

namespace CountingSem

variable {τ : Type u}

/-- A task asks for a count; it gets one, or it waits. -/
def wait (s : CountingSem τ) (t : τ) : Bool × CountingSem τ :=
  if 0 < s.count then (true, ⟨s.count - 1, s.waiters⟩)
  else (false, ⟨s.count - 1, t :: s.waiters⟩)

/-- The negative count is the number of waiting tasks. -/
structure Balanced (s : CountingSem τ) : Prop where
  nodup : s.waiters.Nodup
  length_of_neg : s.count < 0 → (s.waiters.length : Int) = -s.count
  nil_of_nonneg : 0 ≤ s.count → s.waiters = []

variable {s : CountingSem τ} {t : τ}

theorem wait_of_pos (h : 0 < s.count) (t : τ) : s.wait t = (true, ⟨s.count - 1, s.waiters⟩) :=
  if_pos h

theorem wait_of_nonpos (h : s.count ≤ 0) (t : τ) :
    s.wait t = (false, ⟨s.count - 1, t :: s.waiters⟩) :=
  if_neg (not_lt.2 h)

namespace Balanced

theorem of_nil {n : Int} (h : 0 ≤ n) : (⟨n, []⟩ : CountingSem τ).Balanced :=
  ⟨nodup_nil, fun hneg => absurd hneg (not_lt.2 h), fun _ => rfl⟩

theorem length_eq (h : s.Balanced) (hle : s.count ≤ 0) : (s.waiters.length : Int) = -s.count := by
  rcases Int.lt_or_eq_of_le hle with hlt | heq
  · exact h.length_of_neg hlt
  · rw [h.nil_of_nonneg heq.ge, heq]
    rfl

theorem neg_of_mem (h : s.Balanced) (ht : t ∈ s.waiters) : s.count < 0 := by
  by_contra hge
  rw [h.nil_of_nonneg (not_lt.1 hge)] at ht
  exact not_mem_nil ht

theorem wait (h : s.Balanced) (ht : t ∉ s.waiters) : (s.wait t).2.Balanced := by
  by_cases hpos : 0 < s.count
  · rw [wait_of_pos hpos]
    exact ⟨h.nodup, fun hneg => absurd hneg (by dsimp only; omega),
      fun _ => h.nil_of_nonneg hpos.le⟩
  · rw [wait_of_nonpos (not_lt.1 hpos)]
    refine ⟨nodup_cons.2 ⟨ht, h.nodup⟩, fun _ => ?_, fun hge => absurd hge ?_⟩
    · have := h.length_eq (not_lt.1 hpos)
      rw [length_cons]
      push_cast
      omega
    · dsimp only
      omega

end Balanced

variable [DecidableEq τ]

/-- A task waits no longer. -/
def release (s : CountingSem τ) (t : τ) : CountingSem τ := ⟨s.count + 1, s.waiters.erase t⟩

/-- A count is given, to a waiting task or to nobody. -/
def post (s : CountingSem τ) : Option τ → CountingSem τ
  | some t => s.release t
  | none => ⟨s.count + 1, s.waiters⟩

/-- Who gets the count of a `post`: one of the waiting tasks, if there are any. -/
def Receives (s : CountingSem τ) : Option τ → Prop
  | some t => s.count < 0 ∧ t ∈ s.waiters
  | none => 0 ≤ s.count

instance (s : CountingSem τ) (w : Option τ) : Decidable (s.Receives w) := by
  cases w <;> unfold Receives <;> infer_instance

namespace Balanced

theorem release (h : s.Balanced) (ht : t ∈ s.waiters) : (s.release t).Balanced := by
  have hlen := h.length_of_neg (h.neg_of_mem ht)
  have hpos := length_pos_of_mem ht
  have herase : (s.waiters.erase t).length = s.waiters.length - 1 := length_erase_of_mem ht
  refine ⟨h.nodup.erase t, fun _ => ?_, fun hge => ?_⟩
  · simp only [CountingSem.release, herase]
    omega
  · have hge' : 0 ≤ s.count + 1 := hge
    exact eq_nil_of_length_eq_zero (by simp only [CountingSem.release, herase]; omega)

theorem post (h : s.Balanced) {w : Option τ} (hw : s.Receives w) : (s.post w).Balanced := by
  cases w with
  | some t => exact h.release hw.2
  | none =>
    have hge : 0 ≤ s.count := hw
    exact ⟨h.nodup, fun hneg => absurd hneg (by simp only [CountingSem.post]; omega),
      fun _ => h.nil_of_nonneg hge⟩

end Balanced

/-! ## Releasing every waiting task -/

/-- `post` as long as the count is negative, for at most `fuel` times; the released tasks are
collected. -/
def postWhileNeg : Nat → CountingSem τ → List τ × CountingSem τ
  | 0, s => ([], s)
  | fuel + 1, s =>
    if s.count < 0 then
      let rest := postWhileNeg fuel (s.post s.waiters.head?)
      (s.waiters.head?.toList ++ rest.1, rest.2)
    else ([], s)

/-- The loop releases the tasks that wait, and then the count is zero. -/
theorem Balanced.postWhileNeg : ∀ (fuel : Nat) {s : CountingSem τ}, s.Balanced → s.count ≤ 0 →
    -s.count ≤ fuel → s.postWhileNeg fuel = (s.waiters, ⟨0, []⟩) := by
  intro fuel
  induction fuel with
  | zero =>
    intro s h hle hfuel
    have hzero : s.count = 0 := by omega
    obtain ⟨count, waiters⟩ := s
    cases hzero
    cases h.nil_of_nonneg (le_refl 0)
    rfl
  | succ fuel ih =>
    intro s h hle hfuel
    obtain ⟨count, waiters⟩ := s
    cases waiters with
    | nil =>
      have hlen := h.length_eq hle
      have hzero : count = 0 := by
        simp only [length_nil] at hlen
        omega
      cases hzero
      rfl
    | cons t waiters =>
      have hneg : count < 0 := h.neg_of_mem mem_cons_self
      have hnext := h.release (mem_cons_self (a := t))
      have hrel : CountingSem.release ⟨count, t :: waiters⟩ t = ⟨count + 1, waiters⟩ := by
        rw [CountingSem.release, erase_cons_head]
      rw [hrel] at hnext
      have hrest := ih hnext (by dsimp only; omega) (by dsimp only at *; push_cast at hfuel; omega)
      simp only [CountingSem.postWhileNeg, if_pos hneg, head?_cons, CountingSem.post, hrel,
        hrest, Option.toList_some, singleton_append]

end CountingSem

end BaseNx.Lib
