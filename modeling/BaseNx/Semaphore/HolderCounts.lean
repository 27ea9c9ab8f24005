import BaseNx.Semaphore.Holder

/-!
# Every count has a holder

The history of a run keeps, for each task and semaphore, how many counts the task has obtained and
not posted yet. As long as no count is obtained by `nxsem_trywait`, the holder records agree with
that number (`holders_exact`). `nxsem_trywait` takes a count without a record
(`trywait_unrecorded`).
-/

namespace BaseNx.PrioInherit

open Lib List
open Sched (TaskId)
open Semaphore (SemId)

/-! ## The records of a task -/

/-- The records of the task `t` among the holders of `m`. -/
def recs (k : Kernel) (m : SemId) (t : TaskId) : List Semholder :=
  (k.sem m).hhead.filter (·.htcb = t)

/-- The records of a task that holds `n` counts. -/
def record (t : TaskId) (n : Nat) : List Semholder := if n = 0 then [] else [⟨t, n⟩]

theorem record_succ (t : TaskId) (n : Nat) : record t (n + 1) = [⟨t, (n : Int) + 1⟩] := by
  rw [record, if_neg (Nat.succ_ne_zero n)]
  rfl

theorem find_eq_head (s : Sem) (t : TaskId) :
    nxsemFindholder s t = (s.hhead.filter (·.htcb = t)).head? :=
  head?_filter.symm

theorem filter_mapCounts (t u : TaskId) (f : Int → Int) (l : List Semholder) :
    (mapCounts t f l).filter (·.htcb = u) =
      if u = t then mapCounts t f (l.filter (·.htcb = u)) else l.filter (·.htcb = u) := by
  induction l with
  | nil => simp [mapCounts]
  | cons h l ih =>
    by_cases ht : h.htcb = t
    · by_cases hu : u = t
      · subst hu
        simp [mapCounts, ht]
      · have hne : h.htcb ≠ u := fun heq => hu (heq ▸ ht)
        simp only [mapCounts, if_pos ht, if_neg hu]
        rw [filter_cons_of_neg (by simpa using hne), filter_cons_of_neg (by simpa using hne)]
    · rw [mapCounts, if_neg ht]
      by_cases hu : h.htcb = u
      · have hut : u ≠ t := hu ▸ ht
        rw [filter_cons_of_pos (by simpa using hu), ih, if_neg hut, if_neg hut,
          filter_cons_of_pos (by simpa using hu)]
      · rw [filter_cons_of_neg (by simpa using hu), ih,
          filter_cons_of_neg (by simpa using hu)]

theorem filter_eraseP (t u : TaskId) (l : List Semholder) :
    (l.eraseP (·.htcb = t)).filter (·.htcb = u) =
      if u = t then (l.filter (·.htcb = u)).tail else l.filter (·.htcb = u) := by
  induction l with
  | nil => simp
  | cons h l ih =>
    by_cases ht : h.htcb = t
    · rw [eraseP_cons_of_pos (by simpa using ht)]
      by_cases hu : u = t
      · subst hu
        rw [if_pos rfl, filter_cons_of_pos (by simpa using ht), tail_cons]
      · have hne : h.htcb ≠ u := fun heq => hu (heq ▸ ht)
        rw [if_neg hu, filter_cons_of_neg (by simpa using hne)]
    · rw [eraseP_cons_of_neg (by simpa using ht)]
      by_cases hu : h.htcb = u
      · have hut : u ≠ t := hu ▸ ht
        rw [filter_cons_of_pos (by simpa using hu), ih, if_neg hut, if_neg hut,
          filter_cons_of_pos (by simpa using hu)]
      · rw [filter_cons_of_neg (by simpa using hu), ih,
          filter_cons_of_neg (by simpa using hu)]

variable {c : Nat}

section Records

variable {k k' : Kernel} {t u : TaskId} {m n : SemId}

theorem recs_setHolders (k : Kernel) (m n : SemId) (l : List Semholder) (u : TaskId) :
    recs (k.setHolders m l) n u = if n = m then l.filter (·.htcb = u) else recs k n u := by
  by_cases h : n = m
  · subst h
    simp [recs, Kernel.setHolders, Kernel.setSem]
  · simp [recs, Kernel.setHolders, Kernel.setSem, h]

/-- What the holder functions change: the records of one task for one semaphore. -/
structure HoldersOnly (t : TaskId) (m : SemId) (k k' : Kernel) : Prop where
  tcb : k'.tcb = k.tcb
  waiting : k'.waiting = k.waiting
  sem : ∀ n, (k'.sem n).disabled = (k.sem n).disabled ∧ (k'.sem n).semcount = (k.sem n).semcount
  others : ∀ n u, ¬ (u = t ∧ n = m) → recs k' n u = recs k n u

theorem HoldersOnly.refl (t : TaskId) (m : SemId) (k : Kernel) : HoldersOnly t m k k :=
  ⟨rfl, rfl, fun _ => ⟨rfl, rfl⟩, fun _ _ _ => rfl⟩

theorem HoldersOnly.set {l : List Semholder} (hl : ∀ u, u ≠ t → l.filter (·.htcb = u) = recs k m u)
    (free : Nat) : HoldersOnly t m k { k.setHolders m l with freeholders := free } := by
  refine ⟨rfl, rfl, fun n => ?_, fun n u hu => ?_⟩
  · by_cases hn : n = m
    · subst hn
      simp [Kernel.setHolders, Kernel.setSem]
    · simp [Kernel.setHolders, Kernel.setSem, hn]
  · refine (recs_setHolders k m n l u).trans ?_
    split
    · subst n
      exact hl u fun heq => hu ⟨heq, rfl⟩
    · rfl

theorem filter_mapCounts_other {g : Int → Int} (hu : u ≠ t) :
    (mapCounts t g (k.sem m).hhead).filter (·.htcb = u) = recs k m u := by
  rw [filter_mapCounts, if_neg hu]
  rfl

section

variable (k : Kernel) (t : TaskId) (m : SemId)

theorem nxsemAddholderTcb_only : HoldersOnly t m k (nxsemAddholderTcb k t m) := by
  rw [nxsemAddholderTcb]
  split
  · exact .refl t m k
  · split
    · exact .set (fun u hu => filter_mapCounts_other hu) k.freeholders
    · split
      · refine .set (fun u hu => ?_) _
        rw [filter_cons_of_neg (by simpa using hu.symm)]
        rfl
      · exact .refl t m k

theorem nxsemReleaseholder_only :
    HoldersOnly t m k (nxsemReleaseholder k t m) ∧
      (nxsemReleaseholder k t m).freeholders = k.freeholders := by
  rw [nxsemReleaseholder]
  split
  · exact ⟨.refl t m k, rfl⟩
  · split
    · exact ⟨.set (fun u hu => filter_mapCounts_other hu) k.freeholders, rfl⟩
    · exact ⟨.refl t m k, rfl⟩

theorem nxsemFindandfreeholder_only : HoldersOnly t m k (nxsemFindandfreeholder k m t) := by
  rw [nxsemFindandfreeholder]
  split
  · exact .refl t m k
  · split
    · refine .set (fun u hu => ?_) _
      rw [filter_eraseP, if_neg hu]
      rfl
    · exact .refl t m k

end

/-- There is a container for a new record, if one is needed. -/
def Room (k : Kernel) (t : TaskId) (m : SemId) : Prop :=
  (k.sem m).disabled = false → recs k m t = [] → 0 < k.freeholders

/-- A task obtains one more count. -/
theorem recs_add (hd : (k.sem m).disabled = false) (hc : recs k m t = record t c)
    (hroom : Room k t m) : recs (nxsemAddholderTcb k t m) m t = record t (c + 1) := by
  simp only [nxsemAddholderTcb, hd, Bool.false_eq_true, if_false, find_eq_head]
  have hrecs : (k.sem m).hhead.filter (·.htcb = t) = record t c := hc
  cases c with
  | zero =>
    have hnil : record t 0 = [] := rfl
    rw [hrecs, hnil, head?_nil]
    simp only [if_pos (hroom hd (hc.trans hnil))]
    have heq : recs { k.setHolders m (⟨t, 1⟩ :: (k.sem m).hhead) with
        freeholders := k.freeholders - 1 } m t =
        recs (k.setHolders m (⟨t, 1⟩ :: (k.sem m).hhead)) m t := rfl
    rw [heq, recs_setHolders, if_pos rfl, filter_cons_of_pos (by simp), hrecs, hnil]
    rfl
  | succ c =>
    rw [hrecs, record_succ, head?_cons]
    simp only [recs_setHolders, if_true, filter_mapCounts, hrecs, record_succ, mapCounts]
    norm_num

/-- A task gives a count back: its record stays until it is freed. -/
theorem recs_release (hc : recs k m t = record t (c + 1)) :
    recs (nxsemReleaseholder k t m) m t = [⟨t, c⟩] := by
  have hrecs : (k.sem m).hhead.filter (·.htcb = t) = record t (c + 1) := hc
  simp only [nxsemReleaseholder, find_eq_head, hrecs, record_succ, head?_cons]
  rw [if_pos (by omega), recs_setHolders, if_pos rfl, filter_mapCounts, if_pos rfl, hrecs,
    record_succ]
  simp [mapCounts]

/-- The record of a task without counts is freed. -/
theorem recs_free (hc : recs k m t = [⟨t, c⟩]) :
    recs (nxsemFindandfreeholder k m t) m t = record t c := by
  have hrecs : (k.sem m).hhead.filter (·.htcb = t) = [⟨t, c⟩] := hc
  simp only [nxsemFindandfreeholder, find_eq_head, hrecs, head?_cons]
  cases c with
  | zero =>
    have heq : recs (nxsemFreeholder k m t) m t =
        recs (k.setHolders m ((k.sem m).hhead.eraseP (·.htcb = t))) m t := rfl
    rw [if_pos (by simp), heq, recs_setHolders, if_pos rfl, filter_eraseP, if_pos rfl, hrecs]
    rfl
  | succ c =>
    rw [if_neg (by omega), hc, record_succ]
    rfl

end Records

/-! ## Obtaining and posting counts -/

/-- How many counts each task has obtained and not posted yet. -/
abbrev Held := TaskId → SemId → Nat

/-- The task `t` obtains a count of `m`. -/
def Held.credit (held : Held) (t : TaskId) (m : SemId) : Held :=
  fun u n => if u = t ∧ n = m then held u n + 1 else held u n

/-- The task `t` posts a count of `m`. -/
def Held.debit (held : Held) (t : TaskId) (m : SemId) : Held :=
  fun u n => if u = t ∧ n = m then held u n - 1 else held u n

/-- The records of the semaphores with priority inheritance are those of `f`. -/
def Recorded (k : Kernel) (f : TaskId → SemId → List Semholder) : Prop :=
  ∀ n, (k.sem n).disabled = false → ∀ u, recs k n u = f u n

/-- The records agree with the history: a task with counts has one record with their number, and a
task without has none. -/
def Exact (k : Kernel) (held : Held) : Prop := Recorded k fun u n => record u (held u n)

/-- Other records of the task `t` for `m`. -/
def put (f : TaskId → SemId → List Semholder) (t : TaskId) (m : SemId) (x : List Semholder) :
    TaskId → SemId → List Semholder :=
  fun u n => if u = t ∧ n = m then x else f u n

section Recorded

variable {k k' : Kernel} {f : TaskId → SemId → List Semholder} {t : TaskId} {m : SemId} {c : Nat}

theorem put_self (f : TaskId → SemId → List Semholder) (t : TaskId) (m : SemId)
    (x : List Semholder) :
    put f t m x t m = x :=
  if_pos ⟨rfl, rfl⟩

theorem put_other {u : TaskId} (hu : u ≠ t) (f : TaskId → SemId → List Semholder) (m : SemId)
    (x : List Semholder) : put f t m x u m = f u m :=
  if_neg fun h => hu h.1

section

variable (h : Recorded k f)
include h

theorem Recorded.congr (hflags : ∀ n, (k'.sem n).disabled = (k.sem n).disabled)
    (hrecs : ∀ n u, recs k' n u = recs k n u) : Recorded k' f := fun n hn u => by
  rw [hrecs, h n (hflags n ▸ hn)]

theorem Recorded.setCount (m : SemId) (c : Int) : Recorded (k.setCount m c) f := by
  refine h.congr (fun n => ?_) fun n u => ?_ <;> by_cases hn : n = m
  · simp [Kernel.setCount, Kernel.setSem, hn]
  · simp [Kernel.setCount, Kernel.setSem, hn]
  · simp [recs, Kernel.setCount, Kernel.setSem, hn]
  · simp [recs, Kernel.setCount, Kernel.setSem, hn]

theorem Recorded.prioOnly (hp : PrioOnly k k') : Recorded k' f :=
  h.congr (fun n => by rw [hp.sem]) fun n u => by rw [recs, hp.sem]; rfl

theorem Recorded.put (honly : HoldersOnly t m k k') {x : List Semholder}
    (hself : (k.sem m).disabled = false → recs k' m t = x) : Recorded k' (put f t m x) := by
  intro n hn u
  rw [(honly.sem n).1] at hn
  rw [PrioInherit.put]
  split
  · rename_i heq
    obtain ⟨rfl, rfl⟩ := heq
    exact hself hn
  · rw [honly.others n u ‹_›]
    exact h n hn u

theorem Recorded.add (hc : f t m = record t c) (hroom : Room k t m) :
    Recorded (nxsemAddholderTcb k t m) (PrioInherit.put f t m (record t (c + 1))) :=
  h.put (nxsemAddholderTcb_only k t m) fun hd => recs_add hd ((h m hd t).trans hc) hroom

theorem Recorded.release (hc : f t m = record t (c + 1)) :
    Recorded (nxsemReleaseholder k t m) (PrioInherit.put f t m [⟨t, c⟩]) :=
  h.put (nxsemReleaseholder_only k t m).1 fun hd => recs_release ((h m hd t).trans hc)

theorem Recorded.free (hc : f t m = [⟨t, c⟩]) :
    Recorded (nxsemFindandfreeholder k m t) (PrioInherit.put f t m (record t c)) :=
  h.put (nxsemFindandfreeholder_only k t m) fun hd => recs_free ((h m hd t).trans hc)

end

theorem put_credit (held : Held) (t : TaskId) (m : SemId) :
    PrioInherit.put (fun u n => record u (held u n)) t m (record t (held t m + 1)) =
      fun u n => record u (held.credit t m u n) := by
  funext u n
  rw [PrioInherit.put, Held.credit]
  split
  · rename_i heq
    rw [heq.1, heq.2]
  · rfl

end Recorded

theorem room_setCount {k : Kernel} {t : TaskId} {m : SemId} (h : Room k t m) (n : SemId) (c : Int) :
    Room (k.setCount n c) t m := by
  intro hd hnil
  by_cases hm : m = n
  · exact h (by simpa [Kernel.setCount, Kernel.setSem, hm] using hd)
      (by simpa [recs, Kernel.setCount, Kernel.setSem, hm] using hnil)
  · exact h (by simpa [Kernel.setCount, Kernel.setSem, hm] using hd)
      (by simpa [recs, Kernel.setCount, Kernel.setSem, hm] using hnil)

/-- All tasks exist. -/
def AllLive (k : Kernel) : Prop := ∀ u, (k.tcb u).live = true

theorem AllLive.setWaitsem {k : Kernel} (h : AllLive k) (t : TaskId) (x : Option SemId) :
    AllLive (k.setWaitsem t x) := by
  intro u
  by_cases hu : u = t
  · subst hu
    simp [Kernel.setWaitsem, Kernel.setTcb, h u]
  · simp [Kernel.setWaitsem, Kernel.setTcb, hu, h u]

theorem AllLive.of_tcb {k k' : Kernel} (h : AllLive k) (heq : k'.tcb = k.tcb) : AllLive k' :=
  fun u => by rw [heq, h u]

theorem AllLive.prioOnly {k k' : Kernel} (h : AllLive k) (hp : PrioOnly k k') : AllLive k' :=
  fun u => (hp.live u).trans (h u)

/-! ## Runs -/

/-- The kernel with the history of the counts. -/
structure Ledger where
  kernel : Kernel
  held : Held

/-- The operations of a run; `cancel` is the end of a wait by a signal or a timeout. -/
inductive Op
  | wait (t : TaskId) (m : SemId)
  | trywait (t : TaskId) (m : SemId)
  | post (t : TaskId) (m : SemId)
  | cancel (t : TaskId)

/-- The task that a post hands the count to. -/
def handedTo (k : Kernel) (m : SemId) : Option TaskId :=
  if (k.sem m).semcount + 1 ≤ 0 then nextWaiter k m else none

/-- One operation, with the counts that change hands. -/
def Ledger.apply (nnest : Nat) (s : Ledger) : Op → Option Ledger
  | .wait t m =>
    some ⟨(nxsemWait nnest s.kernel t (some m)).2,
      if 0 < (s.kernel.sem m).semcount then s.held.credit t m else s.held⟩
  | .trywait t m =>
    some ⟨(nxsemTrywait s.kernel t (some m)).2,
      if 0 < (s.kernel.sem m).semcount then s.held.credit t m else s.held⟩
  | .post t m =>
    some ⟨(nxsemPost nnest false s.kernel t (some m)).2,
      match handedTo s.kernel m with
      | some w => (s.held.debit t m).credit w m
      | none => s.held.debit t m⟩
  | .cancel t => some ⟨nxsemWaitIrq nnest s.kernel t, s.held⟩

/-- The rules of the runs: a task that waits does nothing, a task posts only counts it holds, and
there are enough containers. A count of a semaphore with priority inheritance is not obtained by
`nxsem_trywait`. -/
def Ledger.Allowed (s : Ledger) : Op → Prop
  | .wait t m =>
    (s.kernel.tcb t).waitsem = none ∧ (0 < (s.kernel.sem m).semcount → Room s.kernel t m)
  | .trywait t m =>
    (s.kernel.tcb t).waitsem = none ∧
      ((s.kernel.sem m).disabled = false → ¬ 0 < (s.kernel.sem m).semcount)
  | .post t m =>
    (s.kernel.tcb t).waitsem = none ∧ 0 < s.held t m ∧ ∀ w ∈ handedTo s.kernel m, Room s.kernel w m
  | .cancel _ => True

/-- Nobody holds a count or waits. -/
structure Ledger.Start (s : Ledger) : Prop where
  live : AllLive s.kernel
  waiting : s.kernel.waiting = []
  waitsem : ∀ t, (s.kernel.tcb t).waitsem = none
  hhead : ∀ m, (s.kernel.sem m).hhead = []
  held : ∀ t m, s.held t m = 0

/-- The states on the runs that keep to the rules. -/
abbrev Ledger.Reachable (nnest : Nat) : Ledger → Prop :=
  Reach Ledger.Start (LabelledStep Ledger.Allowed (Ledger.apply nnest))

section Steps

variable {nnest : Nat} {k : Kernel} {held : Held} {t : TaskId} {m : SemId}

section

variable (hlive : AllLive k) (h : Exact k held)
include hlive h

theorem wait_exact (hroom : 0 < (k.sem m).semcount → Room k t m) :
    AllLive (nxsemWait nnest k t (some m)).2 ∧
      Exact (nxsemWait nnest k t (some m)).2
        (if 0 < (k.sem m).semcount then held.credit t m else held) := by
  simp only [nxsemWait]
  by_cases hpos : 0 < (k.sem m).semcount
  · rw [if_pos hpos, if_pos hpos]
    have hadd := (h.setCount m ((k.sem m).semcount - 1)).add rfl (room_setCount (hroom hpos) m _)
    rw [put_credit] at hadd
    exact ⟨AllLive.setWaitsem (hlive.of_tcb (nxsemAddholderTcb_only (k.setCount m _) t m).tcb) t
      none,
      hadd.congr (fun _ => rfl) fun _ _ => rfl⟩
  · rw [if_neg hpos, if_neg hpos]
    set k₁ := (k.setCount m ((k.sem m).semcount - 1)).setWaitsem t (some m) with hk₁
    have hlive₁ : AllLive k₁ := AllLive.setWaitsem (k := k.setCount m _) hlive t (some m)
    have hboost := nxsemBoostpriority_prioOnly nnest t m hlive₁
    refine ⟨(hlive₁.prioOnly hboost).of_tcb rfl, ?_⟩
    have hcount : Exact k₁ held := (h.setCount m _).congr (fun _ => rfl) fun _ _ => rfl
    exact (hcount.prioOnly hboost).congr (fun _ => rfl) fun _ _ => rfl

theorem trywait_exact (hno : (k.sem m).disabled = false → ¬ 0 < (k.sem m).semcount) :
    AllLive (nxsemTrywait k t (some m)).2 ∧
      Exact (nxsemTrywait k t (some m)).2
        (if 0 < (k.sem m).semcount then held.credit t m else held) := by
  simp only [nxsemTrywait]
  by_cases hpos : 0 < (k.sem m).semcount
  · rw [if_pos hpos, if_pos hpos]
    refine ⟨AllLive.setWaitsem (k := k.setCount m _) hlive t none, fun n hn u => ?_⟩
    have hnm : ¬ (u = t ∧ n = m) := by
      rintro ⟨-, rfl⟩
      exact hno (by simpa [Kernel.setWaitsem, Kernel.setTcb, Kernel.setCount,
        Kernel.setSem] using hn) hpos
    change _ = record u (held.credit t m u n)
    rw [Held.credit, if_neg hnm]
    exact h.setCount m _ n hn u
  · rw [if_neg hpos, if_neg hpos]
    exact ⟨hlive, h⟩

theorem cancel_exact : AllLive (nxsemWaitIrq nnest k t) ∧ Exact (nxsemWaitIrq nnest k t) held := by
  simp only [nxsemWaitIrq]
  split
  · exact ⟨hlive, h⟩
  · rename_i m hm
    have hcancel := nxsemCanceled_prioOnly nnest t m hlive
    set k₁ := nxsemCanceled nnest k t m
    have hlive₁ : AllLive (k₁.setCount m ((k₁.sem m).semcount + 1)) :=
      (hlive.prioOnly hcancel).of_tcb rfl
    exact ⟨hlive₁.setWaitsem t none,
      ((h.prioOnly hcancel).setCount m _).congr (fun _ => rfl) fun _ _ => rfl⟩

end

/-- The last part of a post, in a task: only priorities change until the record is freed. -/
theorem restore_exact (nnest : Nat) {f : TaskId → SemId → List Semholder} (stcb : Option TaskId)
    (hlive : AllLive k) (h : Recorded k f) (hc : f t m = [⟨t, c⟩]) :
    AllLive (nxsemRestorebaseprio nnest false k t stcb m) ∧
      Recorded (nxsemRestorebaseprio nnest false k t stcb m) (put f t m (record t c)) := by
  have hprio : ∃ k', PrioOnly k k' ∧
      nxsemRestorebaseprio nnest false k t stcb m = nxsemFindandfreeholder k' m t := by
    cases stcb with
    | none => exact ⟨k, .refl k, rfl⟩
    | some w =>
      have hA := restoreA_prioOnly nnest m t w hlive
      have hB := restoreB_prioOnly nnest m t w (hlive.prioOnly hA)
      exact ⟨_, hA.trans hB, rfl⟩
  obtain ⟨k', hk', heq⟩ := hprio
  rw [heq]
  exact ⟨(hlive.prioOnly hk').of_tcb (nxsemFindandfreeholder_only k' t m).tcb,
    (h.prioOnly hk').free hc⟩

theorem post_exact (hlive : AllLive k) (h : Exact k held) (hw : (k.tcb t).waitsem = none)
    (hpos : 0 < held t m) (hroom : ∀ w ∈ handedTo k m, Room k w m) :
    AllLive (nxsemPost nnest false k t (some m)).2 ∧
      Exact (nxsemPost nnest false k t (some m)).2
        (match handedTo k m with
        | some w => (held.debit t m).credit w m
        | none => held.debit t m) := by
  obtain ⟨honly, hfree⟩ := nxsemReleaseholder_only k t m
  have hrelease := (h.release (t := t) (m := m) (c := held t m - 1)
    (by rw [Nat.sub_add_cancel hpos])).setCount m
      (((nxsemReleaseholder k t m).sem m).semcount + 1)
  set k₁ := nxsemReleaseholder k t m with hk₁
  set k₂ := k₁.setCount m ((k₁.sem m).semcount + 1) with hk₂
  have hlive₂ : AllLive k₂ := hlive.of_tcb honly.tcb
  have hcount : (k₂.sem m).semcount = (k.sem m).semcount + 1 := by
    simp only [hk₂, Kernel.setCount, Kernel.setSem, Function.update_self]
    rw [(honly.sem m).2]
  have hnext : nextWaiter k₂ m = nextWaiter k m := by
    have htcb₂ : k₂.tcb = k.tcb := honly.tcb
    have hwaiting₂ : k₂.waiting = k.waiting := honly.waiting
    rw [nextWaiter, htcb₂, hwaiting₂]
    rfl
  have heq : (nxsemPost nnest false k t (some m)).2 =
      match handedTo k m with
      | some w => nxsemRestorebaseprio nnest false (handOver k₂ w m) t (some w) m
      | none => nxsemRestorebaseprio nnest false k₂ t none m := by
    rw [handedTo, ← hcount, ← hnext]
    simp only [nxsemPost, ← hk₁, ← hk₂]
    split
    · cases nextWaiter k₂ m <;> rfl
    · rfl
  rw [heq]
  cases hw' : handedTo k m with
  | none =>
    obtain ⟨hlive', hrec⟩ := restore_exact nnest none hlive₂ hrelease (put_self _ t m _)
    refine ⟨hlive', fun n hn u => (hrec n hn u).trans ?_⟩
    simp only [put, Held.debit]
    split_ifs with hu
    · rw [hu.1, hu.2]
    · rfl
  | some w =>
    have hwait : (k.tcb w).waitsem = some m := by
      rw [handedTo] at hw'
      split at hw'
      · simpa using find?_some hw'
      · cases hw'
    have hwt : w ≠ t := fun hwt => by rw [hwt, hw] at hwait; cases hwait
    have hroom₁ : Room k₁ w m := by
      intro hd hnil
      rw [honly.others m w fun heq => hwt heq.1] at hnil
      exact (hroom w hw' ((honly.sem m).1.symm.trans hd) hnil).trans_eq hfree.symm
    have hadd := hrelease.add (put_other hwt _ m _) (room_setCount hroom₁ m _)
    have hlive₃ : AllLive (handOver k₂ w m) :=
      (hlive₂.of_tcb (nxsemAddholderTcb_only k₂ w m).tcb).setWaitsem w none
    obtain ⟨hlive', hrec⟩ := restore_exact nnest (some w) hlive₃
      (hadd.congr (fun _ => rfl) fun _ _ => rfl : Recorded (handOver k₂ w m) _)
      ((put_other hwt.symm _ m _).trans (put_self _ t m _))
    refine ⟨hlive', fun n hn u => (hrec n hn u).trans ?_⟩
    simp only [put, Held.credit, Held.debit]
    split_ifs with hu hu'
    · exact absurd (hu'.1.symm.trans hu.1) hwt
    · rw [hu.1, hu.2]
    · rename_i hu'
      rw [hu'.1, hu'.2]
    · rfl

end Steps

theorem Ledger.step_exact {nnest : Nat} {s : Ledger} {op : Op}
    (h : AllLive s.kernel ∧ Exact s.kernel s.held) (hok : s.Allowed op) :
    ∃ t, s.apply nnest op = some t ∧ AllLive t.kernel ∧ Exact t.kernel t.held := by
  obtain ⟨hlive, hexact⟩ := h
  cases op with
  | wait t m => exact ⟨_, rfl, wait_exact hlive hexact hok.2⟩
  | trywait t m => exact ⟨_, rfl, trywait_exact hlive hexact hok.2⟩
  | post t m => exact ⟨_, rfl, post_exact hlive hexact hok.1 hok.2.1 hok.2.2⟩
  | cancel t => exact ⟨_, rfl, cancel_exact hlive hexact⟩

/-- In every run without a successful `nxsem_trywait`, each task that holds counts of a semaphore
with priority inheritance has exactly one record, with their number, and a task without counts has
none. -/
theorem holders_exact (nnest : Nat) (s : Ledger) (h : s.Reachable nnest) (m : SemId)
    (hd : (s.kernel.sem m).disabled = false) (t : TaskId) :
    (s.kernel.sem m).hhead.filter (·.htcb = t) =
      if s.held t m = 0 then [] else [⟨t, s.held t m⟩] := by
  have hinv : AllLive s.kernel ∧ Exact s.kernel s.held := by
    refine h.labelled (fun s hs => ⟨hs.live, fun n _ u => ?_⟩) fun s op hs hok =>
      Ledger.step_exact hs hok
    change recs _ n u = record u (s.held u n)
    rw [recs, hs.hhead n, hs.held u n]
    rfl
  exact hinv.2 m hd t

/-! ## Concrete runs -/

instance (k : Kernel) (t : TaskId) (m : SemId) : Decidable (Room k t m) :=
  inferInstanceAs (Decidable ((k.sem m).disabled = false → recs k m t = [] → 0 < k.freeholders))

instance (s : Ledger) (op : Op) : Decidable (s.Allowed op) := by
  cases op <;> unfold Ledger.Allowed <;> infer_instance

/-- Task `t` has the priority `100 + 50 * t`; every semaphore has the value 1. -/
def sampleKernel : Kernel where
  tcb t := ⟨100 + 50 * t, 100 + 50 * t, [], none, true⟩
  sem _ := ⟨1, false, []⟩
  freeholders := 8
  waiting := []

/-- The start of the sample runs. -/
def sampleLedger : Ledger := ⟨sampleKernel, fun _ _ => 0⟩

theorem sampleLedger_start : sampleLedger.Start :=
  ⟨fun _ => rfl, rfl, fun _ => rfl, fun _ => rfl, fun _ _ => rfl⟩

/-- The semaphore goes from task 0 to task 2, while task 1 waits. -/
def handOverOps : List Op := [.wait 0 0, .wait 1 0, .wait 2 0, .trywait 0 0, .post 0 0]

theorem holders_exact_sample :
    Ledger.Reachable 0 (after (Ledger.apply 0) sampleLedger handOverOps) ∧
      (after (Ledger.apply 0) sampleLedger handOverOps).held 2 0 = 1 ∧
      ((after (Ledger.apply 0) sampleLedger handOverOps).kernel.sem 0).hhead.filter (·.htcb = 2) =
        [⟨2, 1⟩] ∧
      ((after (Ledger.apply 0) sampleLedger handOverOps).kernel.sem 0).hhead.filter (·.htcb = 0) =
        [] := by
  have hreach : Ledger.Reachable 0 (after (Ledger.apply 0) sampleLedger handOverOps) :=
    Reach.after handOverOps (.start sampleLedger_start) (by decide)
  exact ⟨hreach, by decide, holders_exact 0 _ hreach 0 (by decide) 2,
    holders_exact 0 _ hreach 0 (by decide) 0⟩

/-- A task that takes the count with `nxsem_trywait` has it, and no record says so; the task that
then waits does not raise its priority. -/
theorem trywait_unrecorded :
    let s := after (Ledger.apply 0) sampleLedger [.trywait 0 0, .wait 1 0]
    s.held 0 0 = 1 ∧ (s.kernel.sem 0).disabled = false ∧ (s.kernel.sem 0).hhead = [] ∧
      (s.kernel.tcb 1).waitsem = some 0 ∧ s.kernel.prio 0 = 100 ∧ s.kernel.prio 1 = 150 := by
  decide

end BaseNx.PrioInherit
