import BaseNx.Sched.Runs

/-!
# Counting semaphores

`sched/semaphore` without priority inheritance, over the task lists of the scheduler: `nxsemWait`,
`nxsemTrywait`, `nxsemPost`, `nxsemWaitIrq` and `nxsemRecover`. A wait that blocks is left in the
middle, in `up_block_task`, and is continued by `nxsemWaitResume` when the task runs again. The
parts of `task_terminate` and `task_restart` that take a task away from its list stand here too,
since they decide in which state `nxsem_recover` finds the task.

For each function there is one specification, under `KernelOk`: the lists are well placed, and
exactly the tasks in the state `TSTATE_WAIT_SEM` have a semaphore in `waitsem`.
-/

namespace BaseNx.Semaphore

open Lib
open Sched
open Function (update update_eq_self update_of_ne)

/-! ## State -/

/-- A semaphore, by the address of its `sem_t`. -/
abbrev SemId := Nat

/-- `SEM_VALUE_MAX` -/
def semValueMax : Int := 32767

/-- The scheduler together with the semaphore fields. -/
structure Kernel where
  sched : SchedState
  /-- `sem->semcount`, an `int16_t` -/
  semcount : SemId → Int
  /-- `tcb->waitsem`; `none` is `NULL` -/
  waitsem : TaskId → Option SemId
  /-- `tcb->pterrno` -/
  pterrno : TaskId → Int

namespace Kernel

variable (k : Kernel) (t : TaskId)

/-- `sem->semcount = i16 n` -/
def setCount (sem : SemId) (n : Int) : Kernel :=
  { k with semcount := update k.semcount sem (i16 n) }

/-- `tcb->waitsem = w` -/
def setWaitsem (w : Option SemId) : Kernel :=
  { k with waitsem := update k.waitsem t w }

/-- `tcb->pterrno = e` -/
def setErrno (e : Int) : Kernel :=
  { k with pterrno := update k.pterrno t e }

/-- Run an operation of the scheduler. -/
def onSched (f : SchedState → Option SchedState) : Option Kernel :=
  (f k.sched).map fun s => { k with sched := s }

end Kernel

/-! ## The semaphore functions -/

/-- How far a call of `nxsem_wait` gets: it returns, or it blocks with the saved errno on its
stack. -/
inductive WaitResult
  | returned (ret : Int)
  | blocked (savedErrno : Int)
  deriving DecidableEq

variable (k : Kernel) (rtcb : TaskId) (sem : Option SemId)

/-- `nxsem_wait` up to its return or to the point where the task is blocked -/
def nxsemWait : Option (WaitResult × Kernel) :=
  match sem with
  | none => some (.returned (-EINVAL), k)
  | some sem =>
    if 0 < k.semcount sem then
      some (.returned OK, (k.setCount sem (k.semcount sem - 1)).setWaitsem rtcb none)
    else
      let k := (k.setCount sem (k.semcount sem - 1)).setWaitsem rtcb (some sem)
      let savedErrno := k.pterrno rtcb
      ((k.setErrno rtcb OK).onSched fun s => upBlockTask s rtcb .waitSem).map
        fun k => (.blocked savedErrno, k)

/-- The end of `nxsem_wait`, when the blocked task runs again -/
def nxsemWaitResume (savedErrno : Int) : Int × Kernel :=
  (if k.pterrno rtcb ≠ OK then -(k.pterrno rtcb) else OK, k.setErrno rtcb savedErrno)

/-- `nxsem_trywait` -/
def nxsemTrywait : Int × Kernel :=
  match sem with
  | none => (-EINVAL, k)
  | some sem =>
    if 0 < k.semcount sem then
      (OK, (k.setCount sem (k.semcount sem - 1)).setWaitsem rtcb none)
    else (-EAGAIN, k)

/-- The search of `nxsem_post`: the first task in the list that waits for this semaphore -/
def nextWaiter (sem : SemId) : Option TaskId :=
  (k.sched.list .waitingforsemaphore).find? fun t => decide (k.waitsem t = some sem)

/-- `nxsem_post` -/
def nxsemPost (sem : Option SemId) : Option (Int × Kernel) :=
  match sem with
  | none => some (-EINVAL, k)
  | some sem =>
    let k := k.setCount sem (k.semcount sem + 1)
    if k.semcount sem ≤ 0 then
      match nextWaiter k sem with
      | some stcb =>
        ((k.setWaitsem stcb none).onSched fun s => upUnblockTask s stcb).map fun k => (OK, k)
      | none => some (OK, k)
    else some (OK, k)

/-- `nxsem_wait_irq`: a signal or a timeout ends the wait of a task -/
def nxsemWaitIrq (wtcb : TaskId) (errcode : Int) : Option Kernel :=
  if k.sched.taskState wtcb = .waitSem then
    match k.waitsem wtcb with
    | none => none
    | some sem =>
      let k := ((k.setCount sem (k.semcount sem + 1)).setWaitsem wtcb none).setErrno wtcb errcode
      k.onSched fun s => upUnblockTask s wtcb
  else some k

/-- `nxsem_recover`: take back the wait of a task that is being deleted -/
def nxsemRecover (tcb : TaskId) : Option Kernel :=
  if k.sched.taskState tcb = .waitSem then
    match k.waitsem tcb with
    | none => none
    | some sem => some ((k.setCount sem (k.semcount sem + 1)).setWaitsem tcb none)
  else some k

/-! ## Deleting and restarting a task -/

/-- Take a task out of the list of its state and mark it invalid. -/
def dropTask (s : SchedState) (t : TaskId) : SchedState :=
  match (s.taskState t).tlist with
  | none => s.setState t .invalid
  | some l => (s.dqRem t l).setState t .invalid

/-- `task_terminate` up to the end of its critical section -/
def taskTerminate (dtcb : TaskId) : Kernel :=
  { k with sched := dropTask k.sched dtcb }

/-- `task_restart` up to the end of its critical section; `initPriority` is `init_priority`. -/
def taskRestart (tcb : TaskId) (initPriority : Nat) : Option Kernel :=
  (nxsemRecover k tcb).map fun k =>
    let s := (dropTask k.sched tcb).setPriority tcb initPriority
    let s := { s with lockcount := update s.lockcount tcb 0 }
    let s := s.setList .inactivetasks (tcb :: s.list .inactivetasks)
    { k with sched := s.setState tcb .inactive }

/-! ## The structural invariant -/

/-- The lists are well placed, and exactly the tasks that wait for a semaphore name one. -/
structure KernelOk (idle : TaskId) (k : Kernel) : Prop where
  placed : WellPlaced k.sched
  idle : IdleOk idle k.sched
  waiting : ∀ t, k.sched.taskState t = .waitSem ↔ (k.waitsem t).isSome = true

theorem view_eq_waitSem {st : TState} : st.view = .waitSem ↔ st = .waitSem := by
  cases st <;> simp [TState.view]

/-- The states of the other tasks, as far as waiting for a semaphore goes. -/
theorem waitSem_of_kept {t u : TaskId} {s s' : SchedState} (h : Kept t s s') (hu : u ≠ t) :
    s'.taskState u = .waitSem ↔ s.taskState u = .waitSem := by
  rw [← view_eq_waitSem, h.others u hu, view_eq_waitSem]

section Spec

variable {idle t : TaskId} {k : Kernel} {sem : SemId}

section

variable (hk : KernelOk idle k)
include hk

theorem KernelOk.mem_waiting :
    t ∈ k.sched.list .waitingforsemaphore ↔ (k.waitsem t).isSome = true := by
  rw [hk.placed.mem, ← hk.waiting]
  cases k.sched.taskState t <;> simp [TState.tlist]

theorem KernelOk.state_ne (hw : k.waitsem t = none) : k.sched.taskState t ≠ .waitSem := by
  rw [Ne, hk.waiting, hw]
  exact Bool.false_ne_true

theorem KernelOk.not_mem_waiting (hw : k.waitsem t = none) :
    t ∉ k.sched.list .waitingforsemaphore := by
  rw [hk.mem_waiting, hw]
  exact Bool.false_ne_true

theorem KernelOk.ready_waitsem (ht : t ∈ k.sched.list .readytorun) : k.waitsem t = none := by
  rcases hk.placed.state_of_mem_readytorun ht with hst | hst
  all_goals
    have h := hst ▸ hk.waiting t
    cases hw : k.waitsem t with
    | none => rfl
    | some sem => simp [hw] at h

end

/-- What a step of the semaphore functions that moves `t` leaves alone. -/
structure SemKept (t : TaskId) (k k' : Kernel) : Prop where
  priority : k'.sched.schedPriority = k.sched.schedPriority
  kept : Kept t k.sched k'.sched

section

variable (hk : KernelOk idle k)
include hk

theorem block_spec (ht : t ∈ k.sched.list .readytorun) (hti : t ≠ idle)
    (sem : SemId) : ∃ s', upBlockTask k.sched t .waitSem = some s' ∧
      s'.list .waitingforsemaphore =
        insertPrioritized k.sched.schedPriority t (k.sched.list .waitingforsemaphore) ∧
      ∀ k' : Kernel, k'.sched = s' → k'.waitsem = update k.waitsem t (some sem) →
        KernelOk idle k' ∧ SemKept t k k' := by
  obtain ⟨s', hs', hout, hprio, hstate, hlist, -⟩ := upBlockTask_spec hk.placed hk.idle ht hti
    (show TState.isBlocked .waitSem = true from rfl)
    (show TState.tlist .waitSem = some .waitingforsemaphore from rfl)
  refine ⟨s', hs', hlist, ?_⟩
  intro k' hsched hwait
  refine ⟨⟨hsched ▸ hout.placed, hsched ▸ hout.idle, ?_⟩, by rw [hsched, hprio],
    hsched ▸ hout.kept⟩
  intro u
  rw [hsched, hwait]
  by_cases hu : u = t
  · subst hu
    simp [hstate]
  · rw [update_of_ne hu, waitSem_of_kept hout.kept hu, hk.waiting]

theorem unblock_spec (hw : k.waitsem t = some sem) :
    ∃ s', upUnblockTask k.sched t = some s' ∧ (s'.taskState t).view = .readytorun ∧
      s'.list .waitingforsemaphore = (k.sched.list .waitingforsemaphore).erase t ∧
      ∀ k' : Kernel, k'.sched = s' → k'.waitsem = update k.waitsem t none →
        KernelOk idle k' ∧ SemKept t k k' := by
  have hst : k.sched.taskState t = .waitSem := (hk.waiting t).2 (by simp [hw])
  obtain ⟨s', hs', hout, hprio, hview, hlist, -⟩ := upUnblockTask_spec hk.placed hk.idle
    (t := t) (by rw [hst]; rfl) (l := .waitingforsemaphore) (by rw [hst]; rfl)
  refine ⟨s', hs', hview, hlist, ?_⟩
  intro k' hsched hwait
  refine ⟨⟨hsched ▸ hout.placed, hsched ▸ hout.idle, ?_⟩, by rw [hsched, hprio],
    hsched ▸ hout.kept⟩
  intro u
  rw [hsched, hwait]
  by_cases hu : u = t
  · subst hu
    have hne : s'.taskState u ≠ .waitSem := by
      intro hc
      rw [hc] at hview
      cases hview
    simp [hne]
  · rw [update_of_ne hu, waitSem_of_kept hout.kept hu, hk.waiting]

/-- Only the count of a semaphore and the errno of a task change. -/
theorem KernelOk.congr {k' : Kernel} (hs : k'.sched = k.sched)
    (hw : k'.waitsem = k.waitsem) : KernelOk idle k' :=
  ⟨hs ▸ hk.placed, hs ▸ hk.idle, by rw [hs, hw]; exact hk.waiting⟩

/-- `nxsem_wait` takes a count that is there. -/
theorem nxsemWait_available (ht : t ∈ k.sched.list .readytorun) (hpos : 0 < k.semcount sem) :
    nxsemWait k t (some sem) = some (.returned OK, k.setCount sem (k.semcount sem - 1)) := by
  have hw := hk.ready_waitsem ht
  have hupd : update k.waitsem t none = k.waitsem := by
    rw [← hw, update_eq_self]
  simp [nxsemWait, hpos, Kernel.setWaitsem, Kernel.setCount, hupd]

theorem nxsemWait_blocks (ht : t ∈ k.sched.list .readytorun)
    (hti : t ≠ idle) (hno : ¬ 0 < k.semcount sem) :
    ∃ k', nxsemWait k t (some sem) = some (.blocked (k.pterrno t), k') ∧ KernelOk idle k' ∧
      SemKept t k k' ∧
      k'.sched.list .waitingforsemaphore =
        insertPrioritized k.sched.schedPriority t (k.sched.list .waitingforsemaphore) ∧
      k'.waitsem = update k.waitsem t (some sem) ∧
      k'.semcount = update k.semcount sem (i16 (k.semcount sem - 1)) ∧
      k'.pterrno = update k.pterrno t OK := by
  obtain ⟨s', hs', hlist, hok⟩ := block_spec hk ht hti sem
  refine ⟨{ sched := s', semcount := update k.semcount sem (i16 (k.semcount sem - 1)),
            waitsem := update k.waitsem t (some sem),
            pterrno := update k.pterrno t OK },
    ?_, (hok _ rfl rfl).1, (hok _ rfl rfl).2, hlist, rfl, rfl, rfl⟩
  simp [nxsemWait, hno, Kernel.onSched, Kernel.setCount, Kernel.setWaitsem, Kernel.setErrno, hs']

end

theorem nextWaiter_spec (h : nextWaiter k sem = some t) :
    k.waitsem t = some sem ∧ ∃ pre post, k.sched.list .waitingforsemaphore = pre ++ t :: post ∧
      ∀ u ∈ pre, k.waitsem u ≠ some sem := by
  obtain ⟨hw, pre, post, hl, hpre⟩ := List.find?_eq_some_iff_append.1 h
  refine ⟨of_decide_eq_true hw, pre, post, hl, ?_⟩
  intro u hu
  have := hpre u hu
  simpa using this

theorem nextWaiter_none (hk : KernelOk idle k) (h : nextWaiter k sem = none) (t : TaskId) :
    k.waitsem t ≠ some sem := by
  intro hw
  have hm := hk.mem_waiting.2 (by rw [hw]; rfl)
  have := List.find?_eq_none.1 h t hm
  simp [hw] at this

theorem nxsemPost_adds (hpos : 0 < i16 (k.semcount sem + 1)) :
    nxsemPost k (some sem) = some (OK, k.setCount sem (k.semcount sem + 1)) := by
  have hneg : ¬ i16 (k.semcount sem + 1) ≤ 0 := by omega
  simp [nxsemPost, Kernel.setCount, hneg]

/-- Task `t` stops waiting for `sem`, gives its count back and is ready. -/
structure Woken (idle t : TaskId) (sem : SemId) (k k' : Kernel) : Prop where
  ok : KernelOk idle k'
  kept : SemKept t k k'
  view : (k'.sched.taskState t).view = .readytorun
  list : k'.sched.list .waitingforsemaphore = (k.sched.list .waitingforsemaphore).erase t
  waitsem : k'.waitsem = update k.waitsem t none
  count : k'.semcount = update k.semcount sem (i16 (k.semcount sem + 1))

/-- The kernel after the task is made ready, whatever its errno is then. -/
theorem unblock_woken (hk : KernelOk idle k) (hw : k.waitsem t = some sem) :
    ∃ s', upUnblockTask k.sched t = some s' ∧ ∀ errno, Woken idle t sem k
      { sched := s', semcount := update k.semcount sem (i16 (k.semcount sem + 1)),
        waitsem := update k.waitsem t none, pterrno := errno } := by
  obtain ⟨s', hs', hview, hlist, hok⟩ := unblock_spec hk hw
  exact ⟨s', hs', fun _ => ⟨(hok _ rfl rfl).1, (hok _ rfl rfl).2, hview, hlist, rfl, rfl⟩⟩

theorem nxsemPost_wakes (hk : KernelOk idle k) (hneg : i16 (k.semcount sem + 1) ≤ 0)
    (hnext : nextWaiter k sem = some t) :
    ∃ k', nxsemPost k (some sem) = some (OK, k') ∧ Woken idle t sem k k' ∧
      k'.pterrno = k.pterrno := by
  obtain ⟨s', hs', hwoken⟩ := unblock_woken hk (nextWaiter_spec hnext).1
  refine ⟨_, ?_, hwoken k.pterrno, rfl⟩
  have hnext' : nextWaiter (k.setCount sem (k.semcount sem + 1)) sem = some t := hnext
  simp only [nxsemPost, hnext']
  simp [Kernel.onSched, Kernel.setCount, Kernel.setWaitsem, hneg, hs']

theorem nxsemWaitIrq_wakes (hk : KernelOk idle k) (hw : k.waitsem t = some sem) (e : Int) :
    ∃ k', nxsemWaitIrq k t e = some k' ∧ Woken idle t sem k k' ∧
      k'.pterrno = update k.pterrno t e := by
  have hst : k.sched.taskState t = .waitSem := (hk.waiting t).2 (by simp [hw])
  obtain ⟨s', hs', hwoken⟩ := unblock_woken hk hw
  refine ⟨_, ?_, hwoken (update k.pterrno t e), rfl⟩
  simp [nxsemWaitIrq, hst, hw, Kernel.onSched, Kernel.setCount, Kernel.setWaitsem, Kernel.setErrno,
    hs']

/-! ## Deletion -/

theorem dropTask_spec {s : SchedState} (h : WellPlaced s) (hidle : IdleOk idle s) (hti : t ≠ idle)
    (hrun : s.thisTask ≠ some t) :
    WellPlaced (dropTask s t) ∧ IdleOk idle (dropTask s t) ∧
      (dropTask s t).taskState = update s.taskState t .invalid ∧
      (∀ m, (dropTask s t).list m = (s.list m).erase t) ∧
      (dropTask s t).schedPriority = s.schedPriority ∧ (dropTask s t).lockcount = s.lockcount := by
  have hstate : (dropTask s t).taskState = update s.taskState t .invalid := by
    unfold dropTask
    split <;> rfl
  have hlist : ∀ m, (dropTask s t).list m = (s.list m).erase t := by
    intro m
    unfold dropTask
    cases hl : (s.taskState t).tlist with
    | none =>
      have hno : t ∉ s.list m := by rw [h.mem, hl]; exact nofun
      simp [List.erase_of_not_mem hno]
    | some l =>
      by_cases hm : m = l
      · simp [hm]
      · have hno : t ∉ s.list m := by
          rw [h.mem, hl]
          exact fun heq => hm (Option.some.inj heq).symm
        simp [hm, List.erase_of_not_mem hno]
  have hprio : (dropTask s t).schedPriority = s.schedPriority := by
    unfold dropTask
    split <;> rfl
  have hlock : (dropTask s t).lockcount = s.lockcount := by
    unfold dropTask
    split <;> rfl
  have hidle' : IdleOk idle (dropTask s t) := by
    refine ⟨?_, by rw [hprio]; exact hidle.lowest, by rw [hprio]; exact hidle.others⟩
    rw [hlist]
    exact (List.mem_erase_of_ne (Ne.symm hti)).2 hidle.ready
  have hthis : (dropTask s t).thisTask = s.thisTask := by
    rw [SchedState.thisTask, hlist, SchedState.thisTask]
    rw [SchedState.thisTask] at hrun
    cases hl : s.list .readytorun with
    | nil => rfl
    | cons r rest =>
      have hne : r ≠ t := by
        rintro rfl
        simp [hl] at hrun
      rw [List.erase_cons_tail (by simpa using hne)]
      rfl
  refine ⟨⟨fun m => ?_, fun m u => ?_, fun u => ?_⟩, hidle', hstate, hlist, hprio, hlock⟩
  · rw [hlist]
    exact (h.nodup m).erase t
  · rw [hlist, hstate, (h.nodup m).mem_erase_iff]
    by_cases hu : u = t
    · simp [hu, TState.tlist]
    · simp [hu, h.mem]
  · rw [hthis, hstate]
    by_cases hu : u = t
    · simp [hu, hrun]
    · rw [update_of_ne hu, h.running]

theorem taskTerminate_ok (hk : KernelOk idle k) (hti : t ≠ idle)
    (hrun : k.sched.thisTask ≠ some t) (hw : k.waitsem t = none) :
    KernelOk idle (taskTerminate k t) ∧
      (taskTerminate k t).sched.list .waitingforsemaphore = k.sched.list .waitingforsemaphore := by
  obtain ⟨hpl, hid, hstate, hlist, -, -⟩ := dropTask_spec hk.placed hk.idle hti hrun
  refine ⟨⟨hpl, hid, ?_⟩, ?_⟩
  · intro u
    show (dropTask k.sched t).taskState u = .waitSem ↔ (k.waitsem u).isSome = true
    rw [hstate]
    by_cases hu : u = t
    · simp [hu, hw]
    · rw [update_of_ne hu, hk.waiting]
  · show (dropTask k.sched t).list .waitingforsemaphore = _
    rw [hlist, List.erase_of_not_mem (hk.not_mem_waiting hw)]

theorem nxsemRecover_waiting (hk : KernelOk idle k) (hw : k.waitsem t = some sem) :
    nxsemRecover k t = some ((k.setCount sem (k.semcount sem + 1)).setWaitsem t none) := by
  have hst : k.sched.taskState t = .waitSem := (hk.waiting t).2 (by simp [hw])
  simp [nxsemRecover, hst, hw]

theorem nxsemRecover_other (hst : k.sched.taskState t ≠ .waitSem) : nxsemRecover k t = some k := by
  simp [nxsemRecover, hst]

/-- What `task_restart` does to the scheduler, once the wait of the task is taken back. -/
def restartSched (s : SchedState) (t : TaskId) (p : Nat) : SchedState :=
  let s := (dropTask s t).setPriority t p
  let s := { s with lockcount := update s.lockcount t 0 }
  (s.setList .inactivetasks (t :: s.list .inactivetasks)).setState t .inactive

theorem restartSched_spec {s : SchedState} (h : WellPlaced s) (hidle : IdleOk idle s)
    (hti : t ≠ idle) (hrun : s.thisTask ≠ some t) {p : Nat} (hp : 1 ≤ p) :
    WellPlaced (restartSched s t p) ∧ IdleOk idle (restartSched s t p) ∧
      (restartSched s t p).taskState = update s.taskState t .inactive ∧
      (restartSched s t p).list .waitingforsemaphore =
        (s.list .waitingforsemaphore).erase t ∧
      (∀ u, u ≠ t → (restartSched s t p).schedPriority u = s.schedPriority u) ∧
      (restartSched s t p).lockcount = update s.lockcount t 0 := by
  obtain ⟨hpl, hid, hstate, hlist, hprio, hlock⟩ := dropTask_spec h hidle hti hrun
  have hinv : (dropTask s t).taskState t = .invalid := by rw [hstate]; simp
  have hst : (restartSched s t p).taskState = update s.taskState t .inactive := by
    funext u
    by_cases hu : u = t <;> simp [restartSched, hu, hstate]
  have hthis : (restartSched s t p).thisTask = (dropTask s t).thisTask := by
    simp [SchedState.thisTask, restartSched]
  refine ⟨?_, ⟨?_, ?_, ?_⟩, hst, ?_, ?_, ?_⟩
  · refine hpl.add (l := .inactivetasks) (t := t) hinv (by simp [restartSched])
      (fun m hm => by simp [restartSched, hm]) (by simp [hst, TState.tlist]) ?_ ?_
    · intro u hu
      rw [hst, hstate, update_of_ne hu, update_of_ne hu]
    · intro u
      rw [hthis, ← hpl.running, hst, hstate]
      by_cases hu : u = t <;> simp [hu]
  · simpa [restartSched] using hid.ready
  · have := hid.lowest
    simpa [restartSched, Ne.symm hti] using this
  · intro u hu
    by_cases hut : u = t
    · simpa [restartSched, hut] using hp
    · simpa [restartSched, hut] using hid.others u hu
  · simp [restartSched, hlist]
  · intro u hu
    simp [restartSched, hu, hprio]
  · simp [restartSched, hlock]

theorem taskRestart_eq (p : Nat) : taskRestart k t p =
    (nxsemRecover k t).map fun k => { k with sched := restartSched k.sched t p } := rfl

end Spec

end BaseNx.Semaphore
