import BaseNx.Lib.UnorderedArray
import BaseNx.Semaphore.Operations

/-!
# Semaphores with priority inheritance

`sched/semaphore` with `CONFIG_PRIORITY_INHERITANCE` and a pool of holder containers
(`CONFIG_SEM_PREALLOCHOLDERS > 0`). Of the scheduler, the model keeps what `sem_holder.c` reads and
writes: the priorities of the tasks and the list `g_waitingforsemaphore`. Any task that does not
wait may be the running one. `nnest` is `CONFIG_SEM_NNESTPRIO`; without a nesting list it is zero.

`semcount` and the counts of the holders are `int16_t` in the source. A task posts only counts it
holds, so that no count exceeds the initial value of the semaphore, and they are integers here.
-/

namespace BaseNx.PrioInherit

open Lib
open Function (update update_of_ne update_self)
open Sched (TaskId insertPrioritized schedPriorityMin schedPriorityMax)
open Semaphore (SemId)

/-! ## State -/

/-- The fields of `struct tcb_s` that are read; `pendReprios` holds the first `npend_reprio` entries
of `pend_reprios`. -/
structure Tcb where
  basePriority : Nat
  schedPriority : Nat
  pendReprios : List Nat
  waitsem : Option SemId
  /-- What `sched_verifytcb` finds: the task exists. -/
  live : Bool
  deriving DecidableEq

/-- `struct semholder_s` -/
structure Semholder where
  htcb : TaskId
  counts : Int
  deriving DecidableEq

/-- `sem_t`; `disabled` is `PRIOINHERIT_FLAGS_DISABLE` in `flags`, and `hhead` is the list of
holders. -/
structure Sem where
  semcount : Int
  disabled : Bool
  hhead : List Semholder
  deriving DecidableEq

/-- The tasks, the semaphores, the number of containers in `g_freeholders` and the list
`g_waitingforsemaphore`. -/
structure Kernel where
  tcb : TaskId → Tcb
  sem : SemId → Sem
  freeholders : Nat
  waiting : List TaskId

namespace Kernel

variable (k : Kernel)

def prio (t : TaskId) : Nat := (k.tcb t).schedPriority

def setTcb (t : TaskId) (x : Tcb) : Kernel := { k with tcb := update k.tcb t x }

def setSem (m : SemId) (x : Sem) : Kernel := { k with sem := update k.sem m x }

/-- `sem->semcount = n` -/
def setCount (m : SemId) (n : Int) : Kernel := k.setSem m { k.sem m with semcount := n }

def setHolders (m : SemId) (l : List Semholder) : Kernel := k.setSem m { k.sem m with hhead := l }

/-- `tcb->waitsem = w` -/
def setWaitsem (t : TaskId) (w : Option SemId) : Kernel :=
  k.setTcb t { k.tcb t with waitsem := w }

end Kernel

/-! ## Priorities -/

/-- `nxsched_setpriority`; a blocked task moves to its new place in the list. -/
def nxschedSetpriority (k : Kernel) (t : TaskId) (p : Nat) : Int × Kernel :=
  if p < schedPriorityMin ∨ schedPriorityMax < p then (-EINVAL, k)
  else
    let k := k.setTcb t { k.tcb t with schedPriority := p }
    if (k.tcb t).waitsem.isSome then
      (OK, { k with waiting := insertPrioritized k.prio t (k.waiting.erase t) })
    else (OK, k)

/-- `nxsched_reprioritize` -/
def nxschedReprioritize (k : Kernel) (t : TaskId) (p : Nat) : Kernel :=
  let (ret, k) := nxschedSetpriority k t p
  if ret = 0 then k.setTcb t { k.tcb t with basePriority := p, pendReprios := [] } else k

/-! ## Holders -/

/-- `nxsem_findholder` -/
def nxsemFindholder (s : Sem) (t : TaskId) : Option Semholder := s.hhead.find? (·.htcb = t)

/-- An assignment to `counts` of the container that `nxsem_findholder` finds. -/
def mapCounts (t : TaskId) (f : Int → Int) : List Semholder → List Semholder
  | [] => []
  | h :: hs => if h.htcb = t then { h with counts := f h.counts } :: hs else h :: mapCounts t f hs

/-- `nxsem_freeholder` of the container of a task -/
def nxsemFreeholder (k : Kernel) (m : SemId) (t : TaskId) : Kernel :=
  { k.setHolders m ((k.sem m).hhead.eraseP (·.htcb = t)) with freeholders := k.freeholders + 1 }

/-- `nxsem_findandfreeholder` -/
def nxsemFindandfreeholder (k : Kernel) (m : SemId) (t : TaskId) : Kernel :=
  match nxsemFindholder (k.sem m) t with
  | none => k
  | some h => if h.counts ≤ 0 then nxsemFreeholder k m t else k

/-- `nxsem_addholder_tcb`, with `nxsem_findorallocateholder`: a new container comes from the free
list and goes to the head of the list of holders. -/
def nxsemAddholderTcb (k : Kernel) (t : TaskId) (m : SemId) : Kernel :=
  if (k.sem m).disabled then k
  else
    match nxsemFindholder (k.sem m) t with
    | some _ => k.setHolders m (mapCounts t (· + 1) (k.sem m).hhead)
    | none =>
      if 0 < k.freeholders then
        { k.setHolders m (⟨t, 1⟩ :: (k.sem m).hhead) with freeholders := k.freeholders - 1 }
      else k

/-- `nxsem_releaseholder` -/
def nxsemReleaseholder (k : Kernel) (rtcb : TaskId) (m : SemId) : Kernel :=
  match nxsemFindholder (k.sem m) rtcb with
  | none => k
  | some h => if 0 < h.counts then k.setHolders m (mapCounts rtcb (· - 1) (k.sem m).hhead) else k

/-- The loop of `nxsem_foreachholder`: it ends when the handler returns a value other than zero. -/
def foreachFrom (handler : Kernel → Semholder → Kernel × Int) : List Semholder → Kernel → Kernel
  | [], k => k
  | h :: hs, k =>
    if (handler k h).2 = 0 then foreachFrom handler hs (handler k h).1 else (handler k h).1

/-- `nxsem_foreachholder`; the handlers keep the links of the other containers. -/
def nxsemForeachholder (k : Kernel) (m : SemId) (handler : Kernel → Semholder → Kernel × Int) :
    Kernel :=
  foreachFrom handler (k.sem m).hhead k

/-! ## Boosting and restoring -/

variable (nnest : Nat) (k : Kernel) (rtcb : TaskId)

/-- An entry is added to `pend_reprios` if there is room. -/
def pushReprio (t : TaskId) (p : Nat) : Kernel :=
  if (k.tcb t).pendReprios.length < nnest then
    k.setTcb t { k.tcb t with pendReprios := (k.tcb t).pendReprios ++ [p] }
  else k

/-- `nxsem_boostholderprio` -/
def nxsemBoostholderprio (m : SemId) (rtcb : TaskId) (k : Kernel) (h : Semholder) :
    Kernel × Int :=
  let htcb := k.tcb h.htcb
  if ¬ htcb.live then (nxsemFreeholder k m h.htcb, 0)
  else if 0 < nnest then
    if htcb.basePriority < k.prio rtcb then
      if htcb.schedPriority < k.prio rtcb then
        let k' := if htcb.basePriority < htcb.schedPriority then
            pushReprio nnest k h.htcb htcb.schedPriority
          else k
        ((nxschedSetpriority k' h.htcb (k.prio rtcb)).2, 0)
      else (pushReprio nnest k h.htcb (k.prio rtcb), 0)
    else (k, 0)
  else if htcb.schedPriority < k.prio rtcb then
    ((nxschedSetpriority k h.htcb (k.prio rtcb)).2, 0)
  else (k, 0)

/-- `nxsem_boostpriority` -/
def nxsemBoostpriority (m : SemId) : Kernel :=
  nxsemForeachholder k m (nxsemBoostholderprio nnest m rtcb)

/-- The highest entry of `pend_reprios` becomes the priority. -/
def dropToPending (k : Kernel) (t : TaskId) : Kernel :=
  let pend := (k.tcb t).pendReprios
  let rpriority := pend.getD (firstMax pend) 0
  (nxschedSetpriority (k.setTcb t { k.tcb t with pendReprios := swapRemove pend (firstMax pend) }) t
    rpriority).2

/-- The first entry of `pend_reprios` with this priority goes. -/
def forgetPending (k : Kernel) (t : TaskId) (p : Nat) : Kernel :=
  match (k.tcb t).pendReprios.idxOf? p with
  | none => k
  | some i => k.setTcb t { k.tcb t with pendReprios := swapRemove (k.tcb t).pendReprios i }

/-- `nxsem_restoreholderprio` -/
def nxsemRestoreholderprio (t : TaskId) (m : SemId) (stcb : TaskId) :
    Kernel :=
  let htcb := k.tcb t
  if ¬ htcb.live then
    match nxsemFindholder (k.sem m) t with
    | none => k
    | some _ => nxsemFreeholder k m t
  else if htcb.schedPriority ≠ htcb.basePriority then
    if 0 < nnest then
      if htcb.pendReprios.length < 1 then nxschedReprioritize k t htcb.basePriority
      else if htcb.schedPriority ≤ k.prio stcb then dropToPending k t
      else forgetPending k t (k.prio stcb)
    else nxschedReprioritize k t htcb.basePriority
  else k

/-- `nxsem_restoreholderprioall` -/
def nxsemRestoreholderprioall (m : SemId) (stcb : TaskId) (k : Kernel)
    (h : Semholder) : Kernel × Int :=
  (nxsemRestoreholderprio nnest k h.htcb m stcb, 0)

/-- `nxsem_restoreholderprioA`: the holders other than the running task -/
def nxsemRestoreholderprioA (m : SemId) (rtcb stcb : TaskId) (k : Kernel)
    (h : Semholder) : Kernel × Int :=
  if h.htcb ≠ rtcb then (nxsemRestoreholderprio nnest k h.htcb m stcb, 0) else (k, 0)

/-- `nxsem_restoreholderprioB`: the running task, which ends the loop -/
def nxsemRestoreholderprioB (m : SemId) (rtcb stcb : TaskId) (k : Kernel)
    (h : Semholder) : Kernel × Int :=
  if h.htcb = rtcb then (nxsemRestoreholderprio nnest k rtcb m stcb, 1) else (k, 0)

/-- `nxsem_restorebaseprio_irq` -/
def nxsemRestorebaseprioIrq (stcb : Option TaskId) (m : SemId) : Kernel :=
  match stcb with
  | none => k
  | some w => nxsemForeachholder k m (nxsemRestoreholderprioall nnest m w)

/-- `nxsem_restorebaseprio_task` -/
def nxsemRestorebaseprioTask (stcb : Option TaskId)
    (m : SemId) : Kernel :=
  let k := match stcb with
    | none => k
    | some w =>
      let k := nxsemForeachholder k m (nxsemRestoreholderprioA nnest m rtcb w)
      nxsemForeachholder k m (nxsemRestoreholderprioB nnest m rtcb w)
  nxsemFindandfreeholder k m rtcb

/-- `nxsem_restorebaseprio`; `irq` is `up_interrupt_context`. -/
def nxsemRestorebaseprio (irq : Bool) (k : Kernel) (rtcb : TaskId)
    (stcb : Option TaskId) (m : SemId) : Kernel :=
  if irq then nxsemRestorebaseprioIrq nnest k stcb m
  else nxsemRestorebaseprioTask nnest k rtcb stcb m

/-- `nxsem_canceled` -/
def nxsemCanceled (stcb : TaskId) (m : SemId) : Kernel :=
  nxsemForeachholder k m (nxsemRestoreholderprioall nnest m stcb)

/-! ## The semaphore functions -/

/-- `up_block_task(rtcb, TSTATE_WAIT_SEM)`, as far as the waiting list goes -/
def upBlockTask (k : Kernel) (t : TaskId) : Kernel :=
  { k with waiting := insertPrioritized k.prio t k.waiting }

/-- `up_unblock_task`, as far as the waiting list goes -/
def upUnblockTask (k : Kernel) (t : TaskId) : Kernel := { k with waiting := k.waiting.erase t }

/-- How far `nxsem_wait` gets. -/
inductive WaitResult
  | returned (ret : Int)
  | blocked
  deriving DecidableEq

/-- `nxsem_wait` of the running task, up to its return or to the point where it blocks -/
def nxsemWait (sem : Option SemId) :
    WaitResult × Kernel :=
  match sem with
  | none => (.returned (-EINVAL), k)
  | some m =>
    if 0 < (k.sem m).semcount then
      let k := nxsemAddholderTcb (k.setCount m ((k.sem m).semcount - 1)) rtcb m
      (.returned OK, k.setWaitsem rtcb none)
    else
      let k := (k.setCount m ((k.sem m).semcount - 1)).setWaitsem rtcb (some m)
      (.blocked, upBlockTask (nxsemBoostpriority nnest k rtcb m) rtcb)

/-- `nxsem_trywait` -/
def nxsemTrywait (k : Kernel) (rtcb : TaskId) (sem : Option SemId) : Int × Kernel :=
  match sem with
  | none => (-EINVAL, k)
  | some m =>
    if 0 < (k.sem m).semcount then
      (OK, (k.setCount m ((k.sem m).semcount - 1)).setWaitsem rtcb none)
    else (-EAGAIN, k)

/-- The search of `nxsem_post`: the first task in the list that waits for this semaphore -/
def nextWaiter (k : Kernel) (m : SemId) : Option TaskId :=
  k.waiting.find? fun t => decide ((k.tcb t).waitsem = some m)

/-- The count is handed to a waiter: it becomes a holder and leaves the list. -/
def handOver (k : Kernel) (w : TaskId) (m : SemId) : Kernel :=
  upUnblockTask ((nxsemAddholderTcb k w m).setWaitsem w none) w

/-- `nxsem_post` -/
def nxsemPost (irq : Bool) (k : Kernel) (rtcb : TaskId) (sem : Option SemId) :
    Int × Kernel :=
  match sem with
  | none => (-EINVAL, k)
  | some m =>
    let k := nxsemReleaseholder k rtcb m
    let k := k.setCount m ((k.sem m).semcount + 1)
    if (k.sem m).semcount ≤ 0 then
      match nextWaiter k m with
      | some w => (OK, nxsemRestorebaseprio nnest irq (handOver k w m) rtcb (some w) m)
      | none => (OK, nxsemRestorebaseprio nnest irq k rtcb none m)
    else (OK, nxsemRestorebaseprio nnest irq k rtcb none m)

/-- `nxsem_wait_irq`: a signal or a timeout ends the wait of a task -/
def nxsemWaitIrq (wtcb : TaskId) : Kernel :=
  match (k.tcb wtcb).waitsem with
  | none => k
  | some m =>
    let k := nxsemCanceled nnest k wtcb m
    upUnblockTask ((k.setCount m ((k.sem m).semcount + 1)).setWaitsem wtcb none) wtcb

/-! ## What priority changes leave alone -/

/-- Priority fields and the order of the waiting list change; semaphores do not. -/
structure PrioOnly (k k' : Kernel) : Prop where
  sem : k'.sem = k.sem
  live : ∀ u, (k'.tcb u).live = (k.tcb u).live

section Frame

variable {k k' k'' : Kernel} {t : TaskId} {m : SemId}

theorem PrioOnly.refl (k : Kernel) : PrioOnly k k := ⟨rfl, fun _ => rfl⟩

theorem PrioOnly.trans (h : PrioOnly k k') (h' : PrioOnly k' k'') : PrioOnly k k'' :=
  ⟨h'.sem.trans h.sem, fun u => (h'.live u).trans (h.live u)⟩

/-- An assignment to other fields than `live`. -/
theorem setTcb_prioOnly {tcb : Tcb} (h : tcb.live = (k.tcb t).live) :
    PrioOnly k (k.setTcb t tcb) := by
  refine ⟨rfl, fun u => ?_⟩
  by_cases hu : u = t
  · subst hu
    simp only [Kernel.setTcb, update_self, h]
  · simp only [Kernel.setTcb, update_of_ne hu]

theorem nxschedSetpriority_prioOnly (k : Kernel) (t : TaskId) (p : Nat) :
    PrioOnly k (nxschedSetpriority k t p).2 := by
  have hset : PrioOnly k (k.setTcb t { k.tcb t with schedPriority := p }) := setTcb_prioOnly rfl
  simp only [nxschedSetpriority]
  split
  · exact .refl k
  · split
    · exact ⟨rfl, hset.live⟩
    · exact hset

theorem nxschedReprioritize_prioOnly (k : Kernel) (t : TaskId) (p : Nat) :
    PrioOnly k (nxschedReprioritize k t p) := by
  simp only [nxschedReprioritize]
  split
  · exact (nxschedSetpriority_prioOnly k t p).trans (setTcb_prioOnly rfl)
  · exact nxschedSetpriority_prioOnly k t p

variable (nnest : Nat) (m : SemId) (rtcb stcb : TaskId)

theorem pushReprio_prioOnly (k : Kernel) (t : TaskId) (p : Nat) :
    PrioOnly k (pushReprio nnest k t p) := by
  simp only [pushReprio]
  split
  · exact setTcb_prioOnly rfl
  · exact .refl k

theorem nxsemBoostholderprio_prioOnly (rtcb : TaskId) {h : Semholder}
    (hlive : (k.tcb h.htcb).live = true) :
    PrioOnly k (nxsemBoostholderprio nnest m rtcb k h).1 := by
  simp only [nxsemBoostholderprio, hlive, not_true_eq_false, if_false]
  split
  · split
    · split
      · refine PrioOnly.trans ?_ (nxschedSetpriority_prioOnly _ _ _)
        split
        · exact pushReprio_prioOnly _ _ _ _
        · exact .refl k
      · exact pushReprio_prioOnly _ _ _ _
    · exact .refl k
  · split
    · exact nxschedSetpriority_prioOnly _ _ _
    · exact .refl k

theorem nxsemRestoreholderprio_prioOnly (stcb : TaskId) (hlive : (k.tcb t).live = true) :
    PrioOnly k (nxsemRestoreholderprio nnest k t m stcb) := by
  simp only [nxsemRestoreholderprio, hlive, not_true_eq_false, if_false]
  split
  · split
    · split
      · exact nxschedReprioritize_prioOnly k t _
      · split
        · refine PrioOnly.trans ?_ (nxschedSetpriority_prioOnly _ _ _)
          exact setTcb_prioOnly rfl
        · rw [forgetPending]
          split
          · exact .refl k
          · exact setTcb_prioOnly rfl
    · exact nxschedReprioritize_prioOnly k t _
  · exact .refl k

/-- A loop over handlers that only change priorities. -/
theorem foreachFrom_prioOnly {handler : Kernel → Semholder → Kernel × Int}
    (hstep : ∀ k h, (∀ u, (k.tcb u).live = true) → PrioOnly k (handler k h).1)
    (hs : List Semholder) :
    ∀ k : Kernel, (∀ u, (k.tcb u).live = true) → PrioOnly k (foreachFrom handler hs k) := by
  induction hs with
  | nil => exact fun k _ => .refl k
  | cons h hs ih =>
    intro k hlive
    have hone := hstep k h hlive
    simp only [foreachFrom]
    split
    · exact hone.trans (ih _ fun u => (hone.live u).trans (hlive u))
    · exact hone

theorem nxsemBoostpriority_prioOnly (rtcb : TaskId) (m : SemId)
    (hlive : ∀ u, (k.tcb u).live = true) : PrioOnly k (nxsemBoostpriority nnest k rtcb m) :=
  foreachFrom_prioOnly
    (fun _ h hl => nxsemBoostholderprio_prioOnly nnest m rtcb (hl h.htcb)) _ k hlive

theorem nxsemCanceled_prioOnly (stcb : TaskId) (m : SemId)
    (hlive : ∀ u, (k.tcb u).live = true) : PrioOnly k (nxsemCanceled nnest k stcb m) :=
  foreachFrom_prioOnly
    (fun _ h hl => nxsemRestoreholderprio_prioOnly nnest m stcb (hl h.htcb)) _ k hlive

theorem restoreA_prioOnly (hlive : ∀ u, (k.tcb u).live = true) :
    PrioOnly k (nxsemForeachholder k m (nxsemRestoreholderprioA nnest m rtcb stcb)) := by
  refine foreachFrom_prioOnly (fun k h hl => ?_) _ k hlive
  simp only [nxsemRestoreholderprioA]
  split
  · exact nxsemRestoreholderprio_prioOnly nnest m stcb (hl h.htcb)
  · exact .refl k

theorem restoreB_prioOnly (hlive : ∀ u, (k.tcb u).live = true) :
    PrioOnly k (nxsemForeachholder k m (nxsemRestoreholderprioB nnest m rtcb stcb)) := by
  refine foreachFrom_prioOnly (fun k h hl => ?_) _ k hlive
  simp only [nxsemRestoreholderprioB]
  split
  · exact nxsemRestoreholderprio_prioOnly nnest m stcb (hl rtcb)
  · exact .refl k

end Frame

end BaseNx.PrioInherit
