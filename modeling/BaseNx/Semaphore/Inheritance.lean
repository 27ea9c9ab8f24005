import BaseNx.Semaphore.HolderCounts

/-!
# Priority inheritance of mutexes

Semaphores with the initial value 1 that are taken with `nxsem_wait` and posted by their holder. The
priority of an owner is to be the largest of its base priority and the priorities of the tasks that
wait for its mutexes (`Inherits`). `Booked` says how the fields of the owner keep that: without a
nesting list by the priority alone, with one as a multiset of saved priorities.

The module follows the data: the fields of one task (`Tcb.boost`, `Tcb.restore`), what each
semaphore function does to the kernel (`Blocks`, `Leaves`), and the invariant `MutexOk` that every
operation keeps (`MutexOk.move`), as long as the books of the task that gives up an entry come out
right.
-/

namespace BaseNx.PrioInherit

open Lib List
open Sched (TaskId insertPrioritized schedPriorityMin schedPriorityMax)
open Semaphore (SemId)
open Function (update update_eq_self update_idem update_of_ne update_self)

/-! ## The priority fields of one task -/

/-- The fields after the entry `p` is saved. -/
def Tcb.push (nnest p : Nat) (x : Tcb) : Tcb :=
  if x.pendReprios.length < nnest then { x with pendReprios := x.pendReprios ++ [p] } else x

/-- The fields of a holder after a task of priority `r` starts to wait. -/
def Tcb.boost (nnest r : Nat) (x : Tcb) : Tcb :=
  if 0 < nnest then
    if x.basePriority < r then
      if x.schedPriority < r then
        { (if x.basePriority < x.schedPriority then x.push nnest x.schedPriority else x) with
          schedPriority := r }
      else x.push nnest r
    else x
  else if x.schedPriority < r then { x with schedPriority := r } else x

/-- The fields of a holder after a task of priority `p` got the count or gave up. -/
def Tcb.restore (nnest p : Nat) (x : Tcb) : Tcb :=
  if x.schedPriority ≠ x.basePriority then
    if 0 < nnest then
      if x.pendReprios.length < 1 then
        { x with schedPriority := x.basePriority, pendReprios := [] }
      else if x.schedPriority ≤ p then
        { x with
          schedPriority := x.pendReprios.getD (firstMax x.pendReprios) 0
          pendReprios := swapRemove x.pendReprios (firstMax x.pendReprios) }
      else
        match x.pendReprios.idxOf? p with
        | none => x
        | some i => { x with pendReprios := swapRemove x.pendReprios i }
    else { x with schedPriority := x.basePriority, pendReprios := [] }
  else x

/-- The fields that are not about the current priority are the same. -/
def Tcb.SameTask (y x : Tcb) : Prop :=
  y.basePriority = x.basePriority ∧ y.waitsem = x.waitsem ∧ y.live = x.live

theorem push_same (nnest p : Nat) (x : Tcb) : (x.push nnest p).SameTask x := by
  simp only [Tcb.push]
  split <;> exact ⟨rfl, rfl, rfl⟩

theorem boost_same (nnest r : Nat) (x : Tcb) : (x.boost nnest r).SameTask x := by
  simp only [Tcb.boost]
  split
  · split
    · split
      · split
        · exact push_same nnest _ x
        · exact ⟨rfl, rfl, rfl⟩
      · exact push_same nnest _ x
    · exact ⟨rfl, rfl, rfl⟩
  · split <;> exact ⟨rfl, rfl, rfl⟩

theorem restore_same (nnest p : Nat) (x : Tcb) : (x.restore nnest p).SameTask x := by
  simp only [Tcb.restore]
  split
  · split
    · split
      · exact ⟨rfl, rfl, rfl⟩
      · split
        · exact ⟨rfl, rfl, rfl⟩
        · split <;> exact ⟨rfl, rfl, rfl⟩
    · exact ⟨rfl, rfl, rfl⟩
  · exact ⟨rfl, rfl, rfl⟩

/-- The priorities that `nxsched_setpriority` accepts. -/
def Valid (p : Nat) : Prop := ¬ ((p : Int) < schedPriorityMin ∨ schedPriorityMax < p)

section Fields

variable {k : Kernel} {t : TaskId} {m : SemId} {p : Nat}

section

variable (k : Kernel) (t : TaskId)

theorem setTcb_same : k.setTcb t (k.tcb t) = k := by
  rw [Kernel.setTcb, update_eq_self]

theorem setTcb_setTcb (x y : Tcb) : (k.setTcb t x).setTcb t y = k.setTcb t y := by
  simp only [Kernel.setTcb, update_idem]

@[simp] theorem setTcb_tcb_self (x : Tcb) : (k.setTcb t x).tcb t = x :=
  update_self _ _ _

end

/-- A task that does not wait keeps its place. -/
theorem nxschedSetpriority_of_ready (hp : Valid p) (hw : (k.tcb t).waitsem = none) :
    nxschedSetpriority k t p = (OK, k.setTcb t { k.tcb t with schedPriority := p }) := by
  rw [nxschedSetpriority, if_neg hp]
  simp only [setTcb_tcb_self, hw, Option.isSome_none, Bool.false_eq_true, if_false]

theorem nxschedReprioritize_of_ready (hp : Valid p) (hw : (k.tcb t).waitsem = none) :
    nxschedReprioritize k t p =
      k.setTcb t { k.tcb t with basePriority := p, schedPriority := p, pendReprios := [] } := by
  simp only [nxschedReprioritize, nxschedSetpriority_of_ready hp hw, OK, if_true, setTcb_tcb_self,
    setTcb_setTcb]

theorem pushReprio_eq (nnest : Nat) (k : Kernel) (t : TaskId) (p : Nat) :
    pushReprio nnest k t p = k.setTcb t ((k.tcb t).push nnest p) := by
  simp only [pushReprio, Tcb.push]
  split
  · rfl
  · exact (setTcb_same k t).symm

theorem nxsemBoostholderprio_eq (nnest : Nat) (m : SemId) (rtcb : TaskId) {h : Semholder}
    (hlive : (k.tcb h.htcb).live = true) (hw : (k.tcb h.htcb).waitsem = none)
    (hp : Valid (k.prio rtcb)) :
    nxsemBoostholderprio nnest m rtcb k h =
      (k.setTcb h.htcb ((k.tcb h.htcb).boost nnest (k.prio rtcb)), 0) := by
  simp only [nxsemBoostholderprio, if_neg (not_not_intro hlive), Tcb.boost, pushReprio_eq]
  split
  · split
    · split
      · split
        · rw [nxschedSetpriority_of_ready hp (by rw [setTcb_tcb_self, (push_same _ _ _).2.1, hw]),
            setTcb_tcb_self, setTcb_setTcb]
        · rw [nxschedSetpriority_of_ready hp hw]
      · rfl
    · rw [setTcb_same]
  · split
    · rw [nxschedSetpriority_of_ready hp hw]
    · rw [setTcb_same]

theorem nxsemRestoreholderprio_eq (nnest : Nat) (m : SemId) (stcb : TaskId)
    (hlive : (k.tcb t).live = true) (hw : (k.tcb t).waitsem = none)
    (hbase : Valid (k.tcb t).basePriority) (hpend : ∀ p ∈ (k.tcb t).pendReprios, Valid p) :
    nxsemRestoreholderprio nnest k t m stcb =
      k.setTcb t ((k.tcb t).restore nnest (k.prio stcb)) := by
  simp only [nxsemRestoreholderprio, if_neg (not_not_intro hlive), Tcb.restore]
  split
  · split
    · split
      · rw [nxschedReprioritize_of_ready hbase hw]
      · split
        · rename_i hlen _
          have hne : (k.tcb t).pendReprios ≠ [] := by
            intro hnil
            rw [hnil] at hlen
            exact hlen zero_lt_one
          obtain ⟨q, hq, -⟩ := firstMax_spec hne
          have hget : (k.tcb t).pendReprios.getD (firstMax (k.tcb t).pendReprios) 0 = q := by
            rw [getD_eq_getElem?_getD, hq]
            rfl
          have hvalid : Valid q := hpend q (mem_of_getElem? hq)
          simp only [dropToPending, hget]
          rw [nxschedSetpriority_of_ready hvalid (by rw [setTcb_tcb_self]; exact hw),
            setTcb_tcb_self, setTcb_setTcb]
        · simp only [forgetPending]
          cases (k.tcb t).pendReprios.idxOf? (k.prio stcb) with
          | none => exact (setTcb_same k t).symm
          | some i => rfl
    · rw [nxschedReprioritize_of_ready hbase hw]
  · exact (setTcb_same k t).symm

end Fields

/-! ## What the fields are to say

`C` stands for the priorities of the tasks that wait for a mutex of the task. -/

/-- The priority is the largest of the base priority and the priorities of the waiting tasks. -/
def Inherits (x : Tcb) (C : Multiset Nat) : Prop :=
  IsGreatest {p | p = x.basePriority ∨ p ∈ C} x.schedPriority

/-- The priorities above the base priority are the current one and the saved ones. -/
def Nested (x : Tcb) (C : Multiset Nat) : Prop :=
  (x.schedPriority = x.basePriority ∧ x.pendReprios = [] ∧ ∀ p ∈ C, p ≤ x.basePriority) ∨
    (x.basePriority < x.schedPriority ∧
      C.filter (x.basePriority < ·) = x.schedPriority ::ₘ (x.pendReprios : Multiset Nat) ∧
      ∀ p ∈ x.pendReprios, p ≤ x.schedPriority)

/-- The books of a task, without and with a nesting list. -/
def Booked (nnest : Nat) (x : Tcb) (C : Multiset Nat) : Prop :=
  if nnest = 0 then x.pendReprios = [] ∧ Inherits x C else Nested x C

section Books

variable {nnest : Nat} {x : Tcb} {C D : Multiset Nat} {p r : Nat}

theorem booked_pos (h : 0 < nnest) : Booked nnest x C ↔ Nested x C := by
  rw [Booked, if_neg (Nat.pos_iff_ne_zero.1 h)]

theorem Nested.inherits (h : Nested x C) : Inherits x C := by
  rcases h with ⟨hbase, -, hle⟩ | ⟨hlt, heq, hpend⟩
  · refine ⟨.inl hbase, ?_⟩
    rintro p (rfl | hp)
    · exact hbase.ge
    · exact (hle p hp).trans hbase.ge
  · have hmem : x.schedPriority ∈ C :=
      (Multiset.mem_filter.1 (heq ▸ Multiset.mem_cons_self _ _)).1
    refine ⟨.inr hmem, ?_⟩
    rintro p (rfl | hp)
    · exact hlt.le
    · rcases lt_or_ge x.basePriority p with hpb | hpb
      · have hin : p ∈ x.schedPriority ::ₘ (x.pendReprios : Multiset Nat) :=
          heq ▸ Multiset.mem_filter.2 ⟨hp, hpb⟩
        rcases Multiset.mem_cons.1 hin with rfl | hin
        · exact le_refl _
        · exact hpend p hin
      · exact hpb.trans hlt.le

theorem Booked.inherits (h : Booked nnest x C) : Inherits x C := by
  rcases eq_zero_or_pos nnest with rfl | hn
  · exact h.2
  · exact ((booked_pos hn).1 h).inherits

/-- A task for whose mutexes nobody waits has its base priority, and no saved ones. -/
theorem Booked.of_empty (h : Booked nnest x 0) :
    x.schedPriority = x.basePriority ∧ x.pendReprios = [] := by
  have hsched : x.schedPriority = x.basePriority :=
    h.inherits.1.resolve_right (Multiset.notMem_zero _)
  rcases eq_zero_or_pos nnest with rfl | hn
  · exact ⟨hsched, h.1⟩
  · rcases (booked_pos hn).1 h with ⟨-, hpend, -⟩ | ⟨hlt, -, -⟩
    · exact ⟨hsched, hpend⟩
    · omega

section

variable (h : Booked nnest x C) (hp : p ∈ x.pendReprios)
include h hp

theorem Booked.pend_mem_filter : p ∈ C.filter (x.basePriority < ·) := by
  rcases eq_zero_or_pos nnest with rfl | hn
  · rw [h.1] at hp
    exact absurd hp not_mem_nil
  · rcases (booked_pos hn).1 h with ⟨-, hnil, -⟩ | ⟨-, heq, -⟩
    · rw [hnil] at hp
      exact absurd hp not_mem_nil
    · exact heq ▸ Multiset.mem_cons_of_mem hp

theorem Booked.pend_mem : p ∈ C :=
  (Multiset.mem_filter.1 (h.pend_mem_filter hp)).1

theorem Booked.base_lt_pend : x.basePriority < p :=
  (Multiset.mem_filter.1 (h.pend_mem_filter hp)).2

end

/-- Nobody above the base priority waits. -/
theorem booked_of_le (hsched : x.schedPriority = x.basePriority) (hpend : x.pendReprios = [])
    (hle : ∀ p ∈ C, p ≤ x.basePriority) : Booked nnest x C := by
  have hnested : Nested x C := .inl ⟨hsched, hpend, hle⟩
  rcases eq_zero_or_pos nnest with rfl | hn
  · exact ⟨hpend, hnested.inherits⟩
  · exact (booked_pos hn).2 hnested

/-! ### Boosting -/

theorem inherits_boost (h : Inherits x C) : Inherits (x.boost 0 r) (r ::ₘ C) := by
  simp only [Tcb.boost, lt_irrefl, if_false]
  obtain ⟨hmem, hub⟩ := h
  split
  · rename_i hlt
    refine ⟨.inr (Multiset.mem_cons_self _ _), ?_⟩
    rintro p (rfl | hp)
    · exact (hub (.inl rfl)).trans hlt.le
    · rcases Multiset.mem_cons.1 hp with rfl | hp
      · exact le_refl _
      · exact (hub (.inr hp)).trans hlt.le
  · rename_i hge
    refine ⟨hmem.imp_right Multiset.mem_cons_of_mem, ?_⟩
    rintro p (rfl | hp)
    · exact hub (.inl rfl)
    · rcases Multiset.mem_cons.1 hp with rfl | hp
      · exact not_lt.1 hge
      · exact hub (.inr hp)

theorem push_of_room (h : x.pendReprios.length < nnest) :
    x.push nnest p = { x with pendReprios := x.pendReprios ++ [p] } :=
  if_pos h

theorem coe_append_singleton (l : List Nat) (p : Nat) :
    ((l ++ [p] : List Nat) : Multiset Nat) = p ::ₘ (l : Multiset Nat) := by
  rw [Multiset.cons_coe, Multiset.coe_eq_coe]
  exact perm_append_singleton p l

theorem nested_boost (hn : 0 < nnest) (h : Nested x C) (hroom : C.card < nnest) :
    Nested (x.boost nnest r) (r ::ₘ C) := by
  simp only [Tcb.boost, if_pos hn]
  by_cases hr : x.basePriority < r
  swap
  · -- such a waiter is not counted
    rw [if_neg hr]
    rcases h with ⟨hsched, hpend, hle⟩ | ⟨hlt, heq, hpend⟩
    · refine .inl ⟨hsched, hpend, fun p hp => ?_⟩
      rcases Multiset.mem_cons.1 hp with rfl | hp
      · exact not_lt.1 hr
      · exact hle p hp
    · exact .inr ⟨hlt, by rw [Multiset.filter_cons_of_neg _ hr, heq], hpend⟩
  rw [if_pos hr]
  rcases h with ⟨hsched, hpend, hle⟩ | ⟨hlt, heq, hpend⟩
  · have hnone : C.filter (x.basePriority < ·) = 0 :=
      Multiset.filter_eq_nil.2 fun p hp => not_lt.2 (hle p hp)
    rw [if_pos (hsched ▸ hr), if_neg (hsched ▸ lt_irrefl _)]
    refine .inr ⟨hr, ?_, fun p hp => ?_⟩
    · rw [Multiset.filter_cons_of_pos _ hr, hnone, hpend]
      rfl
    · have hp' : p ∈ x.pendReprios := hp
      rw [hpend] at hp'
      exact absurd hp' not_mem_nil
  · have hlen : x.pendReprios.length < nnest := by
      have hcard := Multiset.card_le_card (Multiset.filter_le (x.basePriority < ·) C)
      rw [heq, Multiset.card_cons, Multiset.coe_card] at hcard
      omega
    by_cases hgt : x.schedPriority < r
    · rw [if_pos hgt, if_pos hlt, push_of_room hlen]
      refine .inr ⟨hr, ?_, fun p hp => ?_⟩
      · rw [Multiset.filter_cons_of_pos _ hr, heq, coe_append_singleton]
      · rcases mem_append.1 hp with hp | hp
        · exact (hpend p hp).trans hgt.le
        · exact (mem_singleton.1 hp).le.trans hgt.le
    · rw [if_neg hgt, push_of_room hlen]
      refine .inr ⟨hlt, ?_, fun p hp => ?_⟩
      · rw [Multiset.filter_cons_of_pos _ hr, heq, coe_append_singleton, Multiset.cons_swap]
      · rcases mem_append.1 hp with hp | hp
        · exact hpend p hp
        · exact (mem_singleton.1 hp).le.trans (not_lt.1 hgt)

/-- A further task waits. -/
theorem Booked.boost (h : Booked nnest x C) (hroom : 0 < nnest → C.card < nnest) :
    Booked nnest (x.boost nnest r) (r ::ₘ C) := by
  rcases eq_zero_or_pos nnest with rfl | hn
  · refine ⟨?_, inherits_boost h.2⟩
    simp only [Tcb.boost, lt_irrefl, if_false]
    split <;> exact h.1
  · exact (booked_pos hn).2 (nested_boost hn ((booked_pos hn).1 h) (hroom hn))

/-! ### Restoring -/

theorem Booked.restore_zero (h : Booked 0 x D) (hsub : ∀ q ∈ C, q ∈ D)
    (hfit : x.schedPriority = x.basePriority ∨ ∀ q ∈ C, q ≤ x.basePriority) :
    Booked 0 (x.restore 0 p) C := by
  by_cases hsched : x.schedPriority = x.basePriority
  · have hsame : x.restore 0 p = x := if_neg (not_not_intro hsched)
    rw [hsame]
    exact booked_of_le hsched h.1 fun q hq => hsched ▸ h.2.2 (.inr (hsub q hq))
  · have hback : x.restore 0 p =
        { x with schedPriority := x.basePriority, pendReprios := [] } := if_pos hsched
    rw [hback]
    exact booked_of_le rfl rfl (hfit.resolve_left hsched)

theorem filter_of_le (h : ∀ q ∈ D, q ≤ x.basePriority) : D.filter (x.basePriority < ·) = 0 :=
  Multiset.filter_eq_nil.2 fun q hq => not_lt.2 (h q hq)

/-- With a nesting list, the entry of one waiting task is dropped: the books are right again if the
others that leave with it were not counted, and if the entry is there. -/
theorem Booked.restore_pos (hn : 0 < nnest) (h : Booked nnest x (p ::ₘ (D + C)))
    (hD : ∀ q ∈ D, q ≤ x.basePriority)
    (hfit : x.basePriority < p ∨ x.schedPriority = x.basePriority ∨ x.pendReprios ≠ []) :
    Booked nnest (x.restore nnest p) C := by
  rcases (booked_pos hn).1 h with ⟨hsched, hpend, hle⟩ | ⟨hlt, heq, hpend⟩
  · have hsame : x.restore nnest p = x := if_neg (not_not_intro hsched)
    rw [hsame]
    exact booked_of_le hsched hpend fun q hq =>
      hle q (Multiset.mem_cons_of_mem (Multiset.mem_add.2 (.inr hq)))
  have hne : x.schedPriority ≠ x.basePriority := hlt.ne'
  have hcounted : x.basePriority < p → p ::ₘ C.filter (x.basePriority < ·) =
      x.schedPriority ::ₘ (x.pendReprios : Multiset Nat) := by
    intro hp
    rw [← heq, Multiset.filter_cons_of_pos _ hp, Multiset.filter_add, filter_of_le hD,
      Multiset.zero_add]
  simp only [Tcb.restore, if_pos hne, if_pos hn]
  rw [booked_pos hn]
  by_cases hnil : x.pendReprios = []
  · -- the entry is the current priority, and the only one
    have hp : x.basePriority < p := by
      rcases hfit with hp | hs | hs
      · exact hp
      · exact absurd hs hne
      · exact absurd hnil hs
    have heq := hcounted hp
    rw [hnil] at heq
    have hnone : C.filter (x.basePriority < ·) = 0 := by
      have hcard := congrArg Multiset.card heq
      exact Multiset.card_eq_zero.1 (by simpa using hcard)
    rw [if_pos (by rw [hnil]; exact zero_lt_one)]
    exact .inl ⟨rfl, rfl, fun q hq => not_lt.1 (Multiset.filter_eq_nil.1 hnone q hq)⟩
  have hlen : ¬ x.pendReprios.length < 1 := by
    rw [Nat.lt_one_iff, length_eq_zero_iff]
    exact hnil
  rw [if_neg hlen]
  by_cases htop : x.schedPriority ≤ p
  · -- the current priority goes, the highest saved one takes its place
    rw [if_pos htop]
    have hp : x.basePriority < p := hlt.trans_le htop
    have heq := hcounted hp
    have hps : p = x.schedPriority := by
      have hin : p ∈ x.schedPriority ::ₘ (x.pendReprios : Multiset Nat) :=
        heq ▸ Multiset.mem_cons_self _ _
      rcases Multiset.mem_cons.1 hin with hin | hin
      · exact hin
      · exact le_antisymm (hpend p hin) htop
    rw [hps, Multiset.cons_inj_right] at heq
    obtain ⟨q, hq, hmax⟩ := firstMax_spec hnil
    have hget : x.pendReprios.getD (firstMax x.pendReprios) 0 = q := by
      rw [getD_eq_getElem?_getD, hq]
      rfl
    have hperm := swapRemove_perm hq
    have hqmem : q ∈ x.pendReprios := mem_of_getElem? hq
    have hqbase : x.basePriority < q :=
      (Multiset.mem_filter.1 (heq ▸ hqmem : q ∈ C.filter (x.basePriority < ·))).2
    refine .inr ⟨?_, ?_, fun y hy => ?_⟩
    · rw [hget]
      exact hqbase
    · rw [hget, heq, Multiset.cons_coe, Multiset.coe_eq_coe]
      exact hperm.symm
    · rw [hget]
      exact hmax y (hperm.mem_iff.1 (mem_cons_of_mem _ hy))
  · rw [if_neg htop]
    by_cases hp : x.basePriority < p
    · -- the entry is among the saved ones
      have heq := hcounted hp
      have hin : p ∈ x.pendReprios := by
        have hin : p ∈ x.schedPriority ::ₘ (x.pendReprios : Multiset Nat) :=
          heq ▸ Multiset.mem_cons_self _ _
        rcases Multiset.mem_cons.1 hin with hin | hin
        · exact absurd hin.ge htop
        · exact hin
      obtain ⟨i, hi⟩ := Option.isSome_iff_exists.1 (isSome_idxOf?.2 hin)
      obtain ⟨hlt', hget, -⟩ := List.idxOf?_eq_some_iff.1 hi
      have hperm := swapRemove_perm (List.getElem?_eq_some_iff.2 ⟨hlt', hget⟩)
      rw [hi]
      refine .inr ⟨hlt, ?_, fun y hy =>
        hpend y (hperm.mem_iff.1 (mem_cons_of_mem _ hy))⟩
      have hcoe : (x.pendReprios : Multiset Nat) =
          p ::ₘ (swapRemove x.pendReprios i : Multiset Nat) := by
        rw [Multiset.cons_coe, Multiset.coe_eq_coe]
        exact hperm.symm
      rw [hcoe, Multiset.cons_swap, Multiset.cons_inj_right] at heq
      exact heq
    · -- a task that was not counted leaves no entry behind
      rw [Multiset.filter_cons_of_neg _ hp, Multiset.filter_add, filter_of_le hD,
        Multiset.zero_add] at heq
      have hout : p ∉ x.pendReprios := fun hin =>
        hp (Multiset.mem_filter.1 (heq ▸ Multiset.mem_cons_of_mem hin)).2
      rw [idxOf?_eq_none_iff.2 hout]
      exact .inr ⟨hlt, heq, hpend⟩

end Books

/-! ## The mutexes and their owners -/

/-- The owner of each mutex. -/
abbrev Owner := SemId → Option TaskId

/-- The tasks that wait for a mutex, in the order of the list. -/
def waitersOf (k : Kernel) (m : SemId) : List TaskId :=
  k.waiting.filter fun w => decide ((k.tcb w).waitsem = some m)

/-- The task that a waiting task waits for. -/
def blockedBy (k : Kernel) (owner : Owner) (w : TaskId) : Option TaskId :=
  (k.tcb w).waitsem.bind owner

/-- The priorities of the tasks that wait for a mutex of `t`. -/
def charges (k : Kernel) (owner : Owner) (t : TaskId) : Multiset Nat :=
  ((k.waiting : Multiset TaskId).filter fun w => blockedBy k owner w = some t).map k.prio

/-- The semaphore of a mutex for which `n` tasks wait: a free one has the count 1 and no holder, a
taken one has its owner as the only holder. -/
def mutexSem (o : Option TaskId) (n : Nat) : Sem :=
  match o with
  | none => ⟨1, false, []⟩
  | some t => ⟨-n, false, [⟨t, 1⟩]⟩

/-- The invariant: the semaphores are those of mutexes; tasks wait for mutexes with an owner, and
owners do not wait; the priorities are booked. -/
structure MutexOk (nnest : Nat) (k : Kernel) (owner : Owner) : Prop where
  live : AllLive k
  sem : ∀ m, k.sem m = mutexSem (owner m) (waitersOf k m).length
  owned : ∀ w m, (k.tcb w).waitsem = some m → ∃ h, owner m = some h
  nodup : k.waiting.Nodup
  mem : ∀ t, t ∈ k.waiting ↔ (k.tcb t).waitsem.isSome = true
  sorted : k.waiting.Pairwise fun a b => k.prio b ≤ k.prio a
  ready : ∀ m t, owner m = some t → (k.tcb t).waitsem = none
  valid : ∀ t, Valid (k.tcb t).basePriority
  booked : ∀ t, Booked nnest (k.tcb t) (charges k owner t)

section Charges

variable {nnest : Nat} {k k' : Kernel} {owner owner' : Owner} {t w h : TaskId} {m : SemId}

/-- Nobody waits for a task without a mutex. -/
theorem charges_eq_zero (hnone : ∀ m, owner m ≠ some t) : charges k owner t = 0 := by
  rw [charges, Multiset.filter_eq_nil.2, Multiset.map_zero]
  intro w _ hw
  obtain ⟨m, -, hm⟩ := Option.bind_eq_some_iff.1 hw
  exact hnone m hm

theorem charges_congr (hwaiting : (k'.waiting : Multiset TaskId) = k.waiting)
    (hblocked : ∀ w ∈ k.waiting, blockedBy k' owner' w = some t ↔ blockedBy k owner w = some t)
    (hprio : ∀ w ∈ k.waiting, k'.prio w = k.prio w) : charges k' owner' t = charges k owner t := by
  rw [charges, charges, hwaiting, Multiset.filter_congr fun w hw => hblocked w hw]
  exact Multiset.map_congr rfl fun w hw => hprio w (Multiset.mem_filter.1 hw).1

section

variable (hk : MutexOk nnest k owner)
include hk

theorem MutexOk.waiting_owns_nothing (hw : w ∈ k.waiting) (m : SemId) : owner m ≠ some w := by
  intro hm
  have hsome := (hk.mem w).1 hw
  rw [hk.ready m w hm] at hsome
  cases hsome

theorem MutexOk.mem_of_waitsem (hw : (k.tcb w).waitsem = some m) : w ∈ k.waiting :=
  (hk.mem w).2 (by rw [hw]; rfl)

theorem MutexOk.waiter_ne_owner (hw : (k.tcb w).waitsem = some m) (hm : owner m = some h) :
    w ≠ h := by
  rintro rfl
  exact hk.waiting_owns_nothing (hk.mem_of_waitsem hw) m hm

end

theorem blockedBy_eq (hw : (k.tcb w).waitsem = some m) (hm : owner m = some h) :
    blockedBy k owner w = some h := by
  rw [blockedBy, hw]
  exact hm

section

variable (hk : MutexOk nnest k owner)
include hk

theorem MutexOk.fields_of_idle (hnone : ∀ m, owner m ≠ some t) :
    (k.tcb t).schedPriority = (k.tcb t).basePriority ∧ (k.tcb t).pendReprios = [] := by
  have hbooked := hk.booked t
  rw [charges_eq_zero hnone] at hbooked
  exact hbooked.of_empty

theorem MutexOk.valid_of_idle (hnone : ∀ m, owner m ≠ some t) : Valid (k.prio t) := by
  rw [Kernel.prio, (hk.fields_of_idle hnone).1]
  exact hk.valid t

/-- The saved priorities can be set. -/
theorem MutexOk.valid_pend (t : TaskId) : ∀ p ∈ (k.tcb t).pendReprios, Valid p := by
  intro p hp
  obtain ⟨w, hw, rfl⟩ := Multiset.mem_map.1 ((hk.booked t).pend_mem hp)
  exact hk.valid_of_idle (hk.waiting_owns_nothing (Multiset.mem_filter.1 hw).1)

theorem MutexOk.sem_of_owner (hm : owner m = some t) :
    k.sem m = ⟨-((waitersOf k m).length : Int), false, [⟨t, 1⟩]⟩ := by
  rw [hk.sem m, hm]
  rfl

theorem MutexOk.sem_of_free (hm : owner m = none) : k.sem m = ⟨1, false, []⟩ := by
  rw [hk.sem m, hm]
  rfl

theorem MutexOk.count_le (hm : owner m = some h) : (k.sem m).semcount ≤ 0 := by
  rw [hk.sem_of_owner hm]
  exact Int.neg_nonpos_of_nonneg (Int.natCast_nonneg _)

theorem MutexOk.nobody (hm : owner m = none) (w : TaskId) : (k.tcb w).waitsem ≠ some m := by
  intro hw
  obtain ⟨h, hh⟩ := hk.owned w m hw
  rw [hm] at hh
  cases hh

theorem MutexOk.waiters_nil (hm : owner m = some h) (hnone : handedTo k m = none) :
    waitersOf k m = [] := by
  by_contra hne
  have hlen : 0 < (waitersOf k m).length := length_pos_iff.2 hne
  have hcount : (k.sem m).semcount + 1 ≤ 0 := by
    rw [hk.sem_of_owner hm]
    dsimp only
    omega
  rw [handedTo, if_pos hcount, nextWaiter, find?_eq_none] at hnone
  obtain ⟨u, hu⟩ := exists_mem_of_length_pos hlen
  obtain ⟨humem, hum⟩ := mem_filter.1 hu
  exact hnone u humem hum

end

end Charges

/-! ## The effect of the semaphore functions -/

/-- Task `w` starts or stops to wait; the fields of `h`, which owns the mutex `m`, change by `f`,
and the semaphore of `m` becomes `x`. -/
structure Moves (w h : TaskId) (m : SemId) (wait : Option SemId) (f : Tcb → Tcb) (x : Sem)
    (k k' : Kernel) : Prop where
  sem : k'.sem = update k.sem m x
  waiter : k'.tcb w = { k.tcb w with waitsem := wait }
  holder : k'.tcb h = f (k.tcb h)
  others : ∀ u, u ≠ w → u ≠ h → k'.tcb u = k.tcb u

/-- Task `t` blocks on a mutex of `h`. -/
structure Blocks (nnest : Nat) (t h : TaskId) (m : SemId) (k k' : Kernel) : Prop extends
    Moves t h m (some m) (Tcb.boost nnest (k.prio t))
    ⟨(k.sem m).semcount - 1, false, [⟨h, 1⟩]⟩ k k' where
  waiting : k'.waiting = insertPrioritized k'.prio t k.waiting

/-- Task `w` stops waiting for a mutex of `h`, which then belongs to `h'`. -/
structure Leaves (nnest : Nat) (w h : TaskId) (m : SemId) (h' : TaskId)
    (k k' : Kernel) : Prop extends
    Moves w h m none (Tcb.restore nnest (k.prio w))
    ⟨(k.sem m).semcount + 1, false, [⟨h', 1⟩]⟩ k k' where
  waiting : k'.waiting = k.waiting.erase w

section Effects

variable {nnest : Nat} {k : Kernel} {owner : Owner} {t w h : TaskId} {m : SemId}

theorem setWaitsem_same (hw : (k.tcb t).waitsem = none) : k.setWaitsem t none = k := by
  have heq : { k.tcb t with waitsem := none } = k.tcb t := by rw [← hw]
  rw [Kernel.setWaitsem, heq, setTcb_same]

section

variable (hk : MutexOk nnest k owner)
include hk

theorem wait_free (hm : owner m = none)
    (ht : (k.tcb t).waitsem = none) (hfree : 0 < k.freeholders) :
    (nxsemWait nnest k t (some m)).2 =
      { k with
        sem := update k.sem m (mutexSem (some t) 0)
        freeholders := k.freeholders - 1 } := by
  have hsem := hk.sem_of_free hm
  have hadd : nxsemAddholderTcb (k.setCount m ((k.sem m).semcount - 1)) t m =
      { k with
        sem := update k.sem m (mutexSem (some t) 0)
        freeholders := k.freeholders - 1 } := by
    simp only [nxsemAddholderTcb, Kernel.setCount, Kernel.setSem, Kernel.setHolders, update_self,
      hsem, Bool.false_eq_true, if_false, nxsemFindholder, find?_nil, if_pos hfree, update_idem]
    rfl
  have hpos : 0 < (k.sem m).semcount := by
    rw [hsem]
    exact one_pos
  simp only [nxsemWait, if_pos hpos, hadd]
  exact setWaitsem_same ht

theorem wait_taken (hm : owner m = some h) (hth : t ≠ h) (hidle : ∀ n, owner n ≠ some t) :
    Blocks nnest t h m k (nxsemWait nnest k t (some m)).2 := by
  have hpos : ¬ 0 < (k.sem m).semcount := not_lt.2 (hk.count_le hm)
  set k₁ := (k.setCount m ((k.sem m).semcount - 1)).setWaitsem t (some m) with hk₁
  have hwait : (nxsemWait nnest k t (some m)).2 =
      upBlockTask (nxsemBoostpriority nnest k₁ t m) t := by
    simp only [nxsemWait, if_neg hpos, ← hk₁]
  have hsem : k₁.sem = update k.sem m ⟨(k.sem m).semcount - 1, false, [⟨h, 1⟩]⟩ := by
    show update k.sem m { k.sem m with semcount := (k.sem m).semcount - 1 } = _
    rw [hk.sem_of_owner hm]
  have hhead : (k₁.sem m).hhead = [⟨h, 1⟩] := by rw [hsem, update_self]
  have hh : k₁.tcb h = k.tcb h := update_of_ne hth.symm _ _
  have ht : k₁.tcb t = { k.tcb t with waitsem := some m } := update_self _ _ _
  have hprio : k₁.prio t = k.prio t := by rw [Kernel.prio, ht]; rfl
  have hboost : nxsemBoostpriority nnest k₁ t m =
      k₁.setTcb h ((k.tcb h).boost nnest (k.prio t)) := by
    have hone := nxsemBoostholderprio_eq (k := k₁) nnest m t (h := ⟨h, 1⟩)
      (by rw [hh]; exact hk.live h) (by rw [hh]; exact hk.ready m h hm)
      (by rw [hprio]; exact hk.valid_of_idle hidle)
    simp only [hh, hprio] at hone
    simp only [nxsemBoostpriority, nxsemForeachholder, hhead, foreachFrom, hone, if_true]
  rw [hwait, hboost]
  refine ⟨⟨hsem, ?_, update_self _ _ _, fun u hut huh => ?_⟩, rfl⟩
  · exact (update_of_ne hth _ _).trans ht
  · exact (update_of_ne huh _ _).trans (update_of_ne hut _ _)

theorem MutexOk.restore_eq (hm : owner m = some h) (w : TaskId) :
    nxsemRestoreholderprio nnest k h m w =
      k.setTcb h ((k.tcb h).restore nnest (k.prio w)) :=
  nxsemRestoreholderprio_eq nnest m w (hk.live h) (hk.ready m h hm) (hk.valid h) (hk.valid_pend h)

theorem cancel_waiting (hw : (k.tcb w).waitsem = some m) (hm : owner m = some h) :
    Leaves nnest w h m h k (nxsemWaitIrq nnest k w) := by
  have hsem := hk.sem_of_owner hm
  have hwh := hk.waiter_ne_owner hw hm
  have hcancel : nxsemCanceled nnest k w m = k.setTcb h ((k.tcb h).restore nnest (k.prio w)) := by
    simp only [nxsemCanceled, nxsemForeachholder, hsem, foreachFrom, nxsemRestoreholderprioall,
      if_true, hk.restore_eq hm w]
  simp only [nxsemWaitIrq, hw, hcancel]
  refine ⟨⟨?_, ?_, ?_, fun u huw huh => ?_⟩, rfl⟩
  · simp only [upUnblockTask, Kernel.setWaitsem, Kernel.setCount, Kernel.setSem, Kernel.setTcb,
      hsem]
  · refine (update_self _ _ _).trans ?_
    have heq : (k.setTcb h ((k.tcb h).restore nnest (k.prio w))).tcb w = k.tcb w :=
      update_of_ne hwh _ _
    exact congrArg (fun x : Tcb => { x with waitsem := none }) heq
  · exact (update_of_ne hwh.symm _ _).trans (update_self _ _ _)
  · exact (update_of_ne huw _ _).trans (update_of_ne huh _ _)

end

/-- `nxsem_post` up to the search for a waiter: the record of the owner is empty. -/
def postedKernel (k : Kernel) (t : TaskId) (m : SemId) : Kernel :=
  k.setSem m ⟨(k.sem m).semcount + 1, false, [⟨t, 0⟩]⟩

section

variable (hk : MutexOk nnest k owner) (hm : owner m = some t)
include hk hm

theorem nxsemPost_eq :
    (nxsemPost nnest false k t (some m)).2 =
      match handedTo k m with
      | some w => nxsemRestorebaseprioTask nnest (handOver (postedKernel k t m) w m) t (some w) m
      | none => nxsemRestorebaseprioTask nnest (postedKernel k t m) t none m := by
  have hsem := hk.sem_of_owner hm
  have hrelease : nxsemReleaseholder k t m = k.setHolders m [⟨t, 0⟩] := by
    simp [nxsemReleaseholder, nxsemFindholder, hsem, mapCounts]
  have hposted : (k.setHolders m [⟨t, 0⟩]).setCount m
      (((k.setHolders m [⟨t, 0⟩]).sem m).semcount + 1) = postedKernel k t m := by
    simp only [Kernel.setHolders, Kernel.setCount, Kernel.setSem, update_self,
      update_idem, postedKernel, hsem]
  have hcount : ((postedKernel k t m).sem m).semcount = (k.sem m).semcount + 1 := by
    simp only [postedKernel, Kernel.setSem, update_self]
  have hnext : nextWaiter (postedKernel k t m) m = nextWaiter k m := rfl
  simp only [nxsemPost, hrelease, hposted, hcount, hnext, handedTo, nxsemRestorebaseprio,
    Bool.false_eq_true, if_false]
  split
  · cases nextWaiter k m <;> rfl
  · rfl

theorem post_none (hnone : handedTo k m = none) :
    (nxsemPost nnest false k t (some m)).2 =
      { k with
        sem := update k.sem m (mutexSem none 0)
        freeholders := k.freeholders + 1 } := by
  rw [nxsemPost_eq hk hm, hnone]
  simp [nxsemRestorebaseprioTask, nxsemFindandfreeholder, nxsemFindholder, postedKernel,
    Kernel.setSem, nxsemFreeholder, Kernel.setHolders, hk.sem_of_owner hm, hk.waiters_nil hm hnone,
    mutexSem]

theorem post_hand
    (hw : handedTo k m = some w) (hww : (k.tcb w).waitsem = some m) (hfree : 0 < k.freeholders) :
    Leaves nnest w t m w k (nxsemPost nnest false k t (some m)).2 := by
  have hwt := hk.waiter_ne_owner hww hm
  obtain ⟨hbase, -⟩ := hk.fields_of_idle (hk.waiting_owns_nothing (hk.mem_of_waitsem hww))
  -- the kernel once the waiter is a holder
  set k₁ := handOver (postedKernel k t m) w m with hk₁
  have hadd : nxsemAddholderTcb (postedKernel k t m) w m =
      { k with
        sem := update k.sem m ⟨(k.sem m).semcount + 1, false, [⟨w, 1⟩, ⟨t, 0⟩]⟩
        freeholders := k.freeholders - 1 } := by
    simp [nxsemAddholderTcb, postedKernel, Kernel.setSem, Kernel.setHolders, nxsemFindholder,
      hwt.symm, hfree]
  have htcb : k₁.tcb = update k.tcb w { k.tcb w with waitsem := none } := by
    rw [hk₁, handOver, hadd]
    rfl
  have hsem : k₁.sem = update k.sem m
      ⟨(k.sem m).semcount + 1, false, [⟨w, 1⟩, ⟨t, 0⟩]⟩ := by
    rw [hk₁, handOver, hadd]
    rfl
  have hwaiting : k₁.waiting = k.waiting.erase w := by
    rw [hk₁, handOver, hadd]
    rfl
  have hhead : (k₁.sem m).hhead = [⟨w, 1⟩, ⟨t, 0⟩] := by rw [hsem, update_self]
  have htw : k₁.tcb t = k.tcb t := by rw [htcb, update_of_ne hwt.symm]
  have hprio : k₁.prio w = k.prio w := by rw [Kernel.prio, htcb, update_self]; rfl
  -- the new holder has its base priority, so that only the poster is restored
  have hA : nxsemForeachholder k₁ m (nxsemRestoreholderprioA nnest m t w) = k₁ := by
    have hlive : (k₁.tcb w).live = true := by rw [htcb, update_self]; exact hk.live w
    have hsame : nxsemRestoreholderprio nnest k₁ w m w = k₁ := by
      have hb : (k₁.tcb w).schedPriority = (k₁.tcb w).basePriority := by
        rw [htcb, update_self]
        exact hbase
      simp only [nxsemRestoreholderprio, if_neg (not_not_intro hlive), if_neg (not_not_intro hb)]
    simp [nxsemForeachholder, hhead, foreachFrom, nxsemRestoreholderprioA, hwt, hsame]
  set k₂ := k₁.setTcb t ((k.tcb t).restore nnest (k.prio w))
  have hB : nxsemForeachholder k₁ m (nxsemRestoreholderprioB nnest m t w) = k₂ := by
    have hrestore := nxsemRestoreholderprio_eq (k := k₁) (t := t) nnest m w
      (by rw [htw]; exact hk.live t) (by rw [htw]; exact hk.ready m t hm)
      (by rw [htw]; exact hk.valid t) (by rw [htw]; exact hk.valid_pend t)
    rw [htw, hprio] at hrestore
    simp [nxsemForeachholder, hhead, foreachFrom, nxsemRestoreholderprioB, hwt, hrestore, k₂]
  have hpost : (nxsemPost nnest false k t (some m)).2 = nxsemFindandfreeholder k₂ m t := by
    rw [nxsemPost_eq hk hm, hw]
    simp only [nxsemRestorebaseprioTask, ← hk₁, hA, hB]
  have hfreed : nxsemFindandfreeholder k₂ m t = nxsemFreeholder k₂ m t := by
    have hhead' : (k₂.sem m).hhead = [⟨w, 1⟩, ⟨t, 0⟩] := hhead
    simp [nxsemFindandfreeholder, nxsemFindholder, hhead', hwt]
  rw [hpost, hfreed]
  refine ⟨⟨?_, ?_, update_self _ _ _, fun u huw hut => ?_⟩, hwaiting⟩
  · have heq : (nxsemFreeholder k₂ m t).sem = update k₁.sem m
          { k₁.sem m with hhead := (k₁.sem m).hhead.eraseP (·.htcb = t) } := rfl
    rw [heq, hhead, hsem, update_self, update_idem]
    simp [hwt]
  · refine (update_of_ne hwt _ _).trans ?_
    rw [htcb, update_self]
  · refine (update_of_ne hut _ _).trans ?_
    rw [htcb, update_of_ne huw]

end

end Effects

/-! ## The invariant is kept -/

section Keep

variable {nnest : Nat} {k k' : Kernel} {owner : Owner} {t w h : TaskId} {m : SemId}

theorem MutexOk.reown (hk : MutexOk nnest k owner) (hnobody : ∀ w, (k.tcb w).waitsem ≠ some m)
    {o : Option TaskId} (ho : ∀ t, o = some t → (k.tcb t).waitsem = none) (free : Nat) :
    MutexOk nnest { k with sem := update k.sem m (mutexSem o 0), freeholders := free }
      (update owner m o) := by
  have hnil : waitersOf k m = [] :=
    filter_eq_nil_iff.2 fun w _ => by simpa using hnobody w
  have howner : ∀ w n, (k.tcb w).waitsem = some n → update owner m o n = owner n := fun w n hw =>
    update_of_ne (fun heq : n = m => hnobody w (heq ▸ hw)) _ _
  refine ⟨hk.live, fun n => ?_, fun w n hw => howner w n hw ▸ hk.owned w n hw, hk.nodup, hk.mem,
    hk.sorted, fun n u hn => ?_, hk.valid, fun u => ?_⟩
  · show update k.sem m (mutexSem o 0) n = mutexSem (update owner m o n) (waitersOf k n).length
    by_cases hnm : n = m
    · rw [hnm, update_self, update_self, hnil]
      rfl
    · rw [update_of_ne hnm, update_of_ne hnm, hk.sem n]
  · by_cases hnm : n = m
    · rw [hnm, update_self] at hn
      exact ho u hn
    · rw [update_of_ne hnm] at hn
      exact hk.ready n u hn
  · have hsame : charges { k with sem := update k.sem m (mutexSem o 0), freeholders := free }
        (update owner m o) u = charges k owner u := by
      refine charges_congr rfl (fun w _ => ?_) fun _ _ => rfl
      simp only [blockedBy]
      cases hw : (k.tcb w).waitsem with
      | none => rfl
      | some n => rw [Option.bind_some, Option.bind_some, howner w n hw]
    rw [hsame]
    exact hk.booked u

variable {wait : Option SemId} {f : Tcb → Tcb} {x : Sem} {u : TaskId}

section

variable (hx : Moves w h m wait f x k k')
include hx

theorem Moves.prio (hu : u ≠ h) : k'.prio u = k.prio u := by
  by_cases huw : u = w
  · rw [Kernel.prio, huw, hx.waiter]
    rfl
  · rw [Kernel.prio, hx.others u huw hu]
    rfl

theorem Moves.fields (hf : ∀ y, (f y).SameTask y) (u : TaskId) :
    (k'.tcb u).basePriority = (k.tcb u).basePriority ∧ (k'.tcb u).live = (k.tcb u).live ∧
      (u ≠ w → (k'.tcb u).waitsem = (k.tcb u).waitsem) := by
  by_cases huw : u = w
  · rw [huw, hx.waiter]
    exact ⟨rfl, rfl, fun hne => absurd rfl hne⟩
  · by_cases huh : u = h
    · obtain ⟨hbase, hwait, hlive⟩ := hf (k.tcb h)
      rw [huh, hx.holder]
      exact ⟨hbase, hlive, fun _ => hwait⟩
    · rw [hx.others u huw huh]
      exact ⟨rfl, rfl, fun _ => rfl⟩

/-- The waiting tasks that stay are in order: the owner of a mutex is none of them. -/
theorem Moves.sorted (hk : MutexOk nnest k owner) (hm : owner m = some h) {l : List TaskId}
    (hsub : l.Sublist k.waiting) : l.Pairwise fun a b => k'.prio b ≤ k'.prio a := by
  have hne : ∀ u ∈ l, u ≠ h := fun u hu heq =>
    hk.waiting_owns_nothing (hsub.subset hu) m (heq ▸ hm)
  refine (hk.sorted.sublist hsub).imp_of_mem fun {a b} ha hb hab => ?_
  rw [hx.prio (hne a ha), hx.prio (hne b hb)]
  exact hab

/-- The books of the tasks other than the owner, if nobody else waits for them than before. -/
theorem Moves.booked {C : Multiset Nat} (huh : u ≠ h) (hu : Booked nnest (k.tcb u) C) :
    Booked nnest (k'.tcb u) C := by
  by_cases huw : u = w
  · subst huw
    rw [hx.waiter]
    exact hu
  · rw [hx.others u huw huh]
    exact hu

end

/-- A task starts or stops to wait for the mutex `m`, which then belongs to `h'`: what is left to
show is about the list of the waiting tasks, and the books. -/
theorem MutexOk.move {owner' : Owner} {h' : TaskId} (hk : MutexOk nnest k owner)
    (hx : Moves w h m wait f (mutexSem (some h') (waitersOf k' m).length) k k')
    (hf : ∀ y, (f y).SameTask y) (hwait : ∀ n, wait = some n → n = m)
    (hm' : owner' m = some h') (hrest : ∀ n, n ≠ m → owner' n = owner n)
    (hcount : ∀ n, n ≠ m → (waitersOf k' n).length = (waitersOf k n).length)
    (hidle : ∀ n, n ≠ m → owner n ≠ some w) (hready : (k'.tcb h').waitsem = none)
    (hnodup : k'.waiting.Nodup) (hmem : ∀ u, u ≠ w → (u ∈ k'.waiting ↔ u ∈ k.waiting))
    (hself : w ∈ k'.waiting ↔ wait.isSome = true)
    (hsorted : k'.waiting.Pairwise fun a b => k'.prio b ≤ k'.prio a)
    (hbooked : ∀ u, Booked nnest (k'.tcb u) (charges k' owner' u)) : MutexOk nnest k' owner' := by
  have hfields := hx.fields hf
  refine ⟨fun u => ?_, fun n => ?_, fun u n hu => ?_, hnodup, fun u => ?_, hsorted,
    fun n u hn => ?_, fun u => ?_, hbooked⟩
  · rw [(hfields u).2.1]
    exact hk.live u
  · rw [hx.sem]
    by_cases hnm : n = m
    · rw [hnm, update_self, hm']
    · rw [update_of_ne hnm, hrest n hnm, hcount n hnm]
      exact hk.sem n
  · by_cases hnm : n = m
    · exact ⟨h', hnm ▸ hm'⟩
    · have huw : u ≠ w := by
        rintro rfl
        rw [hx.waiter] at hu
        exact hnm (hwait n hu)
      rw [(hfields u).2.2 huw] at hu
      rw [hrest n hnm]
      exact hk.owned u n hu
  · by_cases huw : u = w
    · rw [huw, hself, hx.waiter]
    · rw [hmem u huw, (hfields u).2.2 huw, hk.mem u]
  · by_cases hnm : n = m
    · rw [hnm, hm'] at hn
      exact Option.some.inj hn ▸ hready
    · rw [hrest n hnm] at hn
      rw [(hfields u).2.2 fun heq => hidle n hnm (heq ▸ hn)]
      exact hk.ready n u hn
  · rw [(hfields u).1]
    exact hk.valid u

/-- `w`, which waits for `m`, waits in `k'` besides the tasks that wait in `k`. -/
structure Joined (w : TaskId) (m : SemId) (k k' : Kernel) : Prop where
  waiting : k'.waiting.Perm (w :: k.waiting)
  waitsem : (k'.tcb w).waitsem = some m
  others : ∀ u ∈ k.waiting, (k'.tcb u).waitsem = (k.tcb u).waitsem ∧ k'.prio u = k.prio u

theorem Joined.waitersOf_length (hj : Joined w m k k') (n : SemId) :
    (waitersOf k' n).length = (waitersOf k n).length + if n = m then 1 else 0 := by
  have hrest : k.waiting.filter (fun u => decide ((k'.tcb u).waitsem = some n)) = waitersOf k n :=
    filter_congr fun u hu => by rw [(hj.others u hu).1]
  rw [waitersOf, (hj.waiting.filter _).length_eq]
  by_cases hnm : n = m
  · subst hnm
    rw [filter_cons_of_pos (by simpa using hj.waitsem), length_cons, hrest, if_pos rfl]
  · rw [filter_cons_of_neg (by rw [hj.waitsem]; simpa using Ne.symm hnm), hrest, if_neg hnm]
    rfl

theorem Joined.charges (hj : Joined w m k k') (hm : owner m = some h) (u : TaskId) :
    PrioInherit.charges k' owner u =
      if u = h then k'.prio w ::ₘ PrioInherit.charges k owner u
      else PrioInherit.charges k owner u := by
  have hself := blockedBy_eq hj.waitsem hm
  have hwaiting : (k'.waiting : Multiset TaskId) = w ::ₘ (k.waiting : Multiset TaskId) := by
    rw [Multiset.cons_coe, Multiset.coe_eq_coe]
    exact hj.waiting
  have hmap : ((k.waiting : Multiset TaskId).filter fun v => blockedBy k' owner v = some u).map
      k'.prio = PrioInherit.charges k owner u := by
    rw [PrioInherit.charges, Multiset.filter_congr fun v (hv : v ∈ k.waiting) => by
      rw [blockedBy, (hj.others v hv).1, ← blockedBy]]
    exact Multiset.map_congr rfl fun v hv => (hj.others v (Multiset.mem_filter.1 hv).1).2
  rw [PrioInherit.charges, hwaiting]
  by_cases hu : u = h
  · rw [if_pos hu, Multiset.filter_cons_of_pos _ (by rw [hself, hu]), Multiset.map_cons, hmap]
  · rw [if_neg hu, Multiset.filter_cons_of_neg _ (by rw [hself]; simpa using Ne.symm hu), hmap]

theorem Blocks.joined (hb : Blocks nnest t h m k k') (hk : MutexOk nnest k owner)
    (hm : owner m = some h) (ht : t ∉ k.waiting) : Joined t m k k' := by
  refine ⟨?_, by rw [hb.waiter], fun u hu => ⟨?_, ?_⟩⟩
  · rw [hb.waiting]
    exact Sched.insertPrioritized_perm _ _ _
  · exact (hb.fields (boost_same nnest _) u).2.2 fun heq => ht (heq ▸ hu)
  · exact hb.prio fun heq => hk.waiting_owns_nothing hu m (heq ▸ hm)

theorem MutexOk.block (hk : MutexOk nnest k owner) (hb : Blocks nnest t h m k k')
    (hm : owner m = some h) (ht : (k.tcb t).waitsem = none) (hidle : ∀ n, owner n ≠ some t)
    (hroom : 0 < nnest → (charges k owner h).card < nnest) : MutexOk nnest k' owner := by
  have hth : h ≠ t := fun heq => hidle m (heq ▸ hm)
  have htw : t ∉ k.waiting := fun hmem => by
    have := (hk.mem t).1 hmem
    rw [ht] at this
    cases this
  have hj := hb.joined hk hm htw
  have hsem : Moves t h m (some m) (Tcb.boost nnest (k.prio t))
      (mutexSem (some h) (waitersOf k' m).length) k k' := by
    have hcount : (k.sem m).semcount - 1 = -((waitersOf k' m).length : Int) := by
      rw [hk.sem_of_owner hm, hj.waitersOf_length, if_pos rfl]
      dsimp only
      omega
    have hmoves := hb.toMoves
    rwa [hcount] at hmoves
  refine hk.move hsem (boost_same nnest _) (fun n hn => (Option.some.inj hn).symm) hm
    (fun _ _ => rfl)
    (fun n hn => ?_) (fun n _ => hidle n) ?_ ?_ (fun u hut => ?_) ?_ ?_ fun u => ?_
  · rw [hj.waitersOf_length, if_neg hn, add_zero]
  · rw [(hb.fields (boost_same nnest _) h).2.2 hth]
    exact hk.ready m h hm
  · rw [hj.waiting.nodup_iff]
    exact nodup_cons.2 ⟨htw, hk.nodup⟩
  · rw [hb.waiting, Sched.mem_insertPrioritized]
    exact ⟨fun hu => hu.resolve_left hut, .inr⟩
  · rw [hb.waiting, Sched.mem_insertPrioritized]
    exact ⟨fun _ => rfl, fun _ => .inl rfl⟩
  · rw [hb.waiting]
    exact Sched.sortedBy_insertPrioritized (hb.sorted hk hm (.refl _)) t
  · rw [hj.charges hm, hb.prio hth.symm]
    by_cases huh : u = h
    · subst huh
      rw [if_pos rfl, hb.holder]
      exact (hk.booked u).boost hroom
    · rw [if_neg huh]
      exact hb.booked huh (hk.booked u)

variable {h' : TaskId}

section

variable (hl : Leaves nnest w h m h' k k')
include hl

theorem Leaves.mem_waiting (hk : MutexOk nnest k owner) :
    u ∈ k'.waiting ↔ u ≠ w ∧ u ∈ k.waiting := by
  rw [hl.waiting, hk.nodup.mem_erase_iff]

theorem Leaves.joined (hk : MutexOk nnest k owner)
    (hw : (k.tcb w).waitsem = some m) (hm : owner m = some h) : Joined w m k' k := by
  refine ⟨?_, hw, fun u hu => ?_⟩
  · rw [hl.waiting]
    exact perm_cons_erase (hk.mem_of_waitsem hw)
  · obtain ⟨huw, hu⟩ := (hl.mem_waiting hk).1 hu
    have huh : u ≠ h := fun heq => hk.waiting_owns_nothing hu m (heq ▸ hm)
    exact ⟨((hl.fields (restore_same nnest _) u).2.2 huw).symm, (hl.prio huh).symm⟩

end

/-- A task stops waiting for `m`, which then belongs to `h'`. -/
theorem MutexOk.leave {owner' : Owner} (hk : MutexOk nnest k owner)
    (hl : Leaves nnest w h m h' k k') (hw : (k.tcb w).waitsem = some m)
    (hm : owner m = some h) (hm' : owner' m = some h') (hrest : ∀ n, n ≠ m → owner' n = owner n)
    (hready : (k'.tcb h').waitsem = none)
    (hbooked : ∀ u, Booked nnest (k'.tcb u) (charges k' owner' u)) : MutexOk nnest k' owner' := by
  have hlen := (hl.joined hk hw hm).waitersOf_length
  have hsem : Moves w h m none (Tcb.restore nnest (k.prio w))
      (mutexSem (some h') (waitersOf k' m).length) k k' := by
    have hcount : (k.sem m).semcount + 1 = -((waitersOf k' m).length : Int) := by
      rw [hk.sem_of_owner hm, hlen, if_pos rfl]
      dsimp only
      omega
    have hmoves := hl.toMoves
    rwa [hcount] at hmoves
  refine hk.move hsem (restore_same nnest _) nofun hm' hrest (fun n hn => ?_)
    (fun n _ => hk.waiting_owns_nothing (hk.mem_of_waitsem hw) n) hready ?_ (fun u huw => ?_) ?_ ?_
    hbooked
  · rw [hlen, if_neg hn, add_zero]
  · rw [hl.waiting]
    exact hk.nodup.erase w
  · rw [hl.mem_waiting hk]
    exact ⟨fun hu => hu.2, fun hu => ⟨huw, hu⟩⟩
  · rw [hl.mem_waiting hk]
    exact ⟨fun hu => absurd rfl hu.1, nofun⟩
  · exact hl.sorted hk hm (hl.waiting ▸ erase_sublist)

/-- The priorities of the other tasks that wait for `m`. -/
def otherWaiters (k : Kernel) (m : SemId) (w : TaskId) : Multiset Nat :=
  (((k.waiting.erase w : List TaskId) : Multiset TaskId).filter fun u =>
    (k.tcb u).waitsem = some m).map k.prio

/-- The priorities of the tasks that wait for another mutex of `h` than `m`. -/
def elsewhere (k : Kernel) (owner : Owner) (h : TaskId) (m : SemId) : Multiset Nat :=
  ((k.waiting : Multiset TaskId).filter fun u =>
    blockedBy k owner u = some h ∧ (k.tcb u).waitsem ≠ some m).map k.prio

theorem cons_erase_waiting (hw : w ∈ k.waiting) : (k.waiting : Multiset TaskId) =
    w ::ₘ ((k.waiting.erase w : List TaskId) : Multiset TaskId) := by
  rw [Multiset.cons_coe, Multiset.coe_eq_coe]
  exact perm_cons_erase hw

/-- The tasks that wait for the owner of `m`: the one that gets the mutex, the others that wait for
it, and those that wait for other mutexes. -/
theorem MutexOk.charges_split (hk : MutexOk nnest k owner) (hw : (k.tcb w).waitsem = some m)
    (hm : owner m = some h) :
    charges k owner h = k.prio w ::ₘ (otherWaiters k m w + elsewhere k owner h m) := by
  have hself := blockedBy_eq hw hm
  rw [charges, elsewhere, cons_erase_waiting (hk.mem_of_waitsem hw),
    Multiset.filter_cons_of_pos (p := fun u => blockedBy k owner u = some h) _ hself,
    Multiset.filter_cons_of_neg _ (fun hno => hno.2 hw), Multiset.map_cons, otherWaiters,
    ← Multiset.map_add]
  congr 2
  rw [← Multiset.filter_add_not (fun u => (k.tcb u).waitsem = some m)
    (Multiset.filter (fun u => blockedBy k owner u = some h) _), Multiset.filter_filter,
    Multiset.filter_filter]
  congr 1
  · exact Multiset.filter_congr fun u _ => ⟨fun hu => hu.1, fun hu => ⟨hu, blockedBy_eq hu hm⟩⟩
  · exact Multiset.filter_congr fun u _ => and_comm

/-- After the mutex went to `w`: the poster keeps the tasks that wait elsewhere, `w` gets the other
waiters. -/
theorem Leaves.charges_post (hl : Leaves nnest w h m h' k k') (hk : MutexOk nnest k owner)
    (hw : (k.tcb w).waitsem = some m) (hm : owner m = some h) (u : TaskId) :
    charges k' (update owner m (some w)) u =
      if u = h then elsewhere k owner h m
      else if u = w then otherWaiters k m w else charges k owner u := by
  have hwmem := hk.mem_of_waitsem hw
  have hwh := hk.waiter_ne_owner hw hm
  have hj := hl.joined hk hw hm
  have hcons := cons_erase_waiting hwmem
  have hblocked : ∀ v ∈ k'.waiting, blockedBy k' (update owner m (some w)) v =
      if (k.tcb v).waitsem = some m then some w else blockedBy k owner v := by
    intro v hv
    rw [blockedBy, ← (hj.others v hv).1, blockedBy]
    cases hvs : (k.tcb v).waitsem with
    | none => simp
    | some n =>
      by_cases hnm : n = m
      · simp [hnm]
      · simp [hnm]
  -- the filter over the tasks that still wait, with the old fields
  have hbase : ∀ P : TaskId → Prop, [DecidablePred P] →
      (∀ v ∈ k'.waiting, (blockedBy k' (update owner m (some w)) v = some u ↔ P v)) →
      charges k' (update owner m (some w)) u =
        (((k.waiting.erase w : List TaskId) : Multiset TaskId).filter P).map k.prio := by
    intro P _ hP
    rw [charges, Multiset.filter_congr hP, ← hl.waiting]
    exact Multiset.map_congr rfl fun v hv => (hj.others v (Multiset.mem_filter.1 hv).1).2.symm
  by_cases huh : u = h
  · subst huh
    rw [if_pos rfl, elsewhere, hcons, Multiset.filter_cons_of_neg _ (fun hno => hno.2 hw)]
    refine hbase _ fun v hv => ?_
    rw [hblocked v hv]
    split
    · rename_i hvm
      exact ⟨fun heq => absurd (Option.some.inj heq) hwh, fun hno => absurd hvm hno.2⟩
    · rename_i hvm
      exact ⟨fun heq => ⟨heq, hvm⟩, fun h => h.1⟩
  · rw [if_neg huh]
    by_cases huw : u = w
    · subst huw
      rw [if_pos rfl, otherWaiters]
      refine hbase _ fun v hv => ?_
      rw [hblocked v hv]
      split
      · rename_i hvm
        exact ⟨fun _ => hvm, fun _ => rfl⟩
      · rename_i hvm
        refine ⟨fun heq => ?_, fun hno => absurd hno hvm⟩
        obtain ⟨n, -, hn⟩ := Option.bind_eq_some_iff.1 heq
        exact absurd hn (hk.waiting_owns_nothing hwmem n)
    · have hold : charges k owner u =
          (((k.waiting.erase w : List TaskId) : Multiset TaskId).filter fun v =>
            blockedBy k owner v = some u).map k.prio := by
        rw [charges, hcons, Multiset.filter_cons_of_neg _ (by
          rw [blockedBy_eq hw hm]; simpa using Ne.symm huh)]
      rw [if_neg huw, hold]
      refine hbase _ fun v hv => ?_
      rw [hblocked v hv]
      split
      · rename_i hvm
        rw [blockedBy_eq hvm hm]
        exact ⟨fun heq => absurd (Option.some.inj heq).symm huw,
          fun heq => absurd (Option.some.inj heq).symm huh⟩
      · exact Iff.rfl

section

variable (hk : MutexOk nnest k owner)
include hk

theorem MutexOk.nextWaiter_max (hw : nextWaiter k m = some w) :
    (k.tcb w).waitsem = some m ∧ ∀ u ∈ waitersOf k m, k.prio u ≤ k.prio w := by
  obtain ⟨hwm, as, bs, hsplit, has⟩ := find?_eq_some_iff_append.1 hw
  refine ⟨by simpa using hwm, fun u hu => ?_⟩
  obtain ⟨hu, hum⟩ := mem_filter.1 hu
  have hsorted := hk.sorted
  rw [hsplit] at hu hsorted
  rcases mem_append.1 hu with hu | hu
  · have := has u hu
    rw [hum] at this
    cases this
  · rcases mem_cons.1 hu with rfl | hu
    · exact le_refl _
    · exact (pairwise_cons.1 (pairwise_append.1 hsorted).2.1).1 u hu

theorem MutexOk.handedTo_some (hw : handedTo k m = some w) :
    (k.tcb w).waitsem = some m ∧ ∀ u ∈ waitersOf k m, k.prio u ≤ k.prio w := by
  rw [handedTo] at hw
  split at hw
  · exact hk.nextWaiter_max hw
  · cases hw

theorem MutexOk.otherWaiters_le (hw : handedTo k m = some w) :
    ∀ p ∈ otherWaiters k m w, p ≤ k.prio w := by
  intro p hp
  obtain ⟨u, hu, rfl⟩ := Multiset.mem_map.1 hp
  obtain ⟨humem, hum⟩ := Multiset.mem_filter.1 hu
  exact (hk.handedTo_some hw).2 u
    (mem_filter.2 ⟨mem_of_mem_erase humem, by simpa using hum⟩)

/-- A mutex for which nobody waits is posted. -/
theorem MutexOk.release (hm : owner m = some t) (hnone : handedTo k m = none) (free : Nat) :
    MutexOk nnest { k with sem := update k.sem m (mutexSem none 0), freeholders := free }
      (update owner m none) := by
  refine hk.reown (fun w hw => ?_) (fun _ ht => by cases ht) free
  have hmem : w ∈ waitersOf k m := mem_filter.2 ⟨hk.mem_of_waitsem hw, by simpa using hw⟩
  rw [hk.waiters_nil hm hnone] at hmem
  exact absurd hmem not_mem_nil

/-- A wait is cancelled: the books of the owner have to be right for the others. -/
theorem MutexOk.cancel (hl : Leaves nnest w h m h k k')
    (hw : (k.tcb w).waitsem = some m) (hm : owner m = some h)
    (hbooked : ∀ C, charges k owner h = k.prio w ::ₘ C →
      Booked nnest ((k.tcb h).restore nnest (k.prio w)) C) : MutexOk nnest k' owner := by
  refine hk.leave hl hw hm hm (fun _ _ => rfl) ?_ fun u => ?_
  · rw [hl.holder, (restore_same nnest _ _).2.1]
    exact hk.ready m h hm
  · have hcharges := (hl.joined hk hw hm).charges hm u
    by_cases huh : u = h
    · subst huh
      rw [if_pos rfl] at hcharges
      rw [hl.holder]
      exact hbooked _ hcharges
    · rw [if_neg huh] at hcharges
      rw [← hcharges]
      exact hl.booked huh (hk.booked u)

/-- A mutex is handed over: the books of the poster have to be right for its other mutexes. -/
theorem MutexOk.hand (hl : Leaves nnest w t m w k k')
    (hw : handedTo k m = some w) (hm : owner m = some t)
    (hbooked : Booked nnest ((k.tcb t).restore nnest (k.prio w)) (elsewhere k owner t m)) :
    MutexOk nnest k' (update owner m (some w)) := by
  have hww := (hk.handedTo_some hw).1
  have hwmem := hk.mem_of_waitsem hww
  refine hk.leave hl hww hm (update_self _ _ _)
    (fun n hn => update_of_ne hn _ _) ?_ fun u => ?_
  · rw [hl.waiter]
  · rw [hl.charges_post hk hww hm]
    by_cases hut : u = t
    · subst hut
      rw [if_pos rfl, hl.holder]
      exact hbooked
    · rw [if_neg hut]
      by_cases huw : u = w
      · subst huw
        obtain ⟨hbase, hpend⟩ := hk.fields_of_idle (hk.waiting_owns_nothing hwmem)
        rw [if_pos rfl, hl.waiter]
        exact booked_of_le hbase hpend fun p hp => hbase ▸ hk.otherWaiters_le hw p hp
      · rw [if_neg huw, hl.others u huw hut]
        exact hk.booked u

end

end Keep

end BaseNx.PrioInherit
