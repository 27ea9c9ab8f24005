import BaseNx.Semaphore.Operations

/-!
# The semaphore count law

Runs of any number of tasks and interrupt handlers that wait, try, post, interrupt waits, change
priorities, delete and restart tasks. `Run` adds to the kernel state what an observer counts: posts,
counts obtained, and for each waiting task the time since which it has its place in the waiting
list.

`terminate_loses_count` is a run on which the law breaks: `task_terminate` takes a waiting task out
of its list and marks it invalid before the exit hook calls `nxsem_recover`, which therefore does
not give the count back. `semaphore_count_law` is the law for all runs without that step.
-/

namespace BaseNx.Semaphore

open Lib List
open Sched
open Function (update update_eq_self update_of_ne update_self)

/-! ## Runs -/

/-- The kernel state with the calls in progress and the observer's counts. -/
structure Run where
  k : Kernel
  /-- the stack frame of a task inside a blocking `nxsem_wait`: the semaphore and the saved errno -/
  frame : TaskId → Option (SemId × Int)
  /-- the posts of each semaphore so far -/
  posts : SemId → Nat
  /-- the waits and trywaits of each semaphore that have obtained a count so far -/
  obtained : SemId → Nat
  /-- whether a post has given its count to the wait in progress -/
  granted : TaskId → Bool
  /-- when the task began to wait, or last changed its priority while waiting -/
  since : TaskId → Nat
  clock : Nat

/-- Add one to a count. -/
def bump (f : SemId → Nat) (sem : SemId) : SemId → Nat := update f sem (f sem + 1)

/-- The steps, each one critical section. -/
inductive Act
  | wait (t : TaskId) (sem : SemId)
  | resume (t : TaskId)
  | trywait (t : TaskId) (sem : SemId)
  | post (sem : SemId)
  | waitIrq (t : TaskId) (errcode : Int)
  | setpriority (t : TaskId) (p : Int)
  | terminate (t : TaskId)
  | exithook (t : TaskId)
  | restart (t : TaskId) (initPriority : Nat)
  | sched (op : Op)
  deriving DecidableEq

/-- The waiter to which a post gives its count. -/
def receiver (k : Kernel) (sem : SemId) : Option TaskId :=
  if i16 (k.semcount sem + 1) ≤ 0 then nextWaiter k sem else none

/-- The post is counted, and its count as obtained if a waiter receives it. -/
def Run.recordPost (r : Run) (sem : SemId) (k : Kernel) : Run :=
  match receiver r.k sem with
  | none => { r with k, posts := bump r.posts sem }
  | some t =>
    { r with k, posts := bump r.posts sem, obtained := bump r.obtained sem,
             granted := update r.granted t true }

/-- A step, before the clock advances. -/
def Act.run (r : Run) : Act → Option Run
  | .wait t sem =>
    match nxsemWait r.k t (some sem) with
    | none => none
    | some (.returned ret, k) =>
      some { r with k, obtained := if ret = OK then bump r.obtained sem else r.obtained }
    | some (.blocked e, k) =>
      some { r with k, frame := update r.frame t (some (sem, e)),
                    granted := update r.granted t false,
                    since := update r.since t r.clock }
  | .resume t =>
    match r.frame t with
    | none => none
    | some (_, e) =>
      some { r with k := (nxsemWaitResume r.k t e).2, frame := update r.frame t none }
  | .trywait t sem =>
    match nxsemTrywait r.k t (some sem) with
    | (ret, k) =>
        some { r with k, obtained := if ret = OK then bump r.obtained sem else r.obtained }
  | .post sem => (nxsemPost r.k (some sem)).map fun x => r.recordPost sem x.2
  | .waitIrq t e => (nxsemWaitIrq r.k t e).map fun k => { r with k }
  | .setpriority t p =>
    (nxschedSetpriority r.k.sched t p).map fun x =>
      { r with k := { r.k with sched := x.2 },
               since := if x.1 = OK ∧ r.k.sched.taskState t = .waitSem then
                 update r.since t r.clock else r.since }
  | .terminate t => some { r with k := taskTerminate r.k t, frame := update r.frame t none }
  | .exithook t => (nxsemRecover r.k t).map fun k => { r with k }
  | .restart t p =>
    (taskRestart r.k t p).map fun k => { r with k, frame := update r.frame t none }
  | .sched op => (r.k.onSched fun s => op.apply s).map fun k => { r with k }

/-- A step and the passing of time. -/
def Act.apply (r : Run) (a : Act) : Option Run :=
  (a.run r).map fun r' => { r' with clock := r.clock + 1 }

/-- Who may take which step: a call is made by a task that is ready to run and in no other call; a
task deleted or restarted is not the running one; the exit hook runs for a task that is no longer in
a waiting list; and the other scheduler operations do not touch tasks that wait for a semaphore. -/
def Act.Callable (idle : TaskId) (r : Run) : Act → Prop
  | .wait t _ => t ∈ r.k.sched.list .readytorun ∧ t ≠ idle ∧ r.frame t = none
  | .resume t => t ∈ r.k.sched.list .readytorun ∧ (r.frame t).isSome = true
  | .trywait t _ => t ∈ r.k.sched.list .readytorun ∧ r.frame t = none
  | .post _ => True
  | .waitIrq _ e => e ≠ OK
  | .setpriority t _ => t ≠ idle
  | .terminate t => t ≠ idle ∧ r.k.sched.thisTask ≠ some t
  | .exithook t => r.k.sched.taskState t ≠ .waitSem
  | .restart t p => t ≠ idle ∧ r.k.sched.thisTask ≠ some t ∧ 1 ≤ p
  | .sched (.block t st) => (Op.block t st).Callable idle r.k.sched ∧ st ≠ .waitSem
  | .sched (.unblock t) =>
    (Op.unblock t).Callable idle r.k.sched ∧ r.k.sched.taskState t ≠ .waitSem
  | .sched .lock => ∀ t, r.k.sched.thisTask = some t → r.k.sched.lockcount t < int16Max
  | .sched .unlock => True
  | .sched (.setpriority _ _) => False

/-- The condition under which the law holds: no waiting task is deleted by `task_terminate`, and the
counts stay in the range of `int16_t`. -/
def Act.Preserves (r : Run) : Act → Prop
  | .wait _ sem => -32768 < r.k.semcount sem
  | .post sem => r.k.semcount sem < semValueMax
  | .terminate t => r.k.sched.taskState t ≠ .waitSem
  | _ => True

/-- Semaphores initialised with the values `v`, and no task waits. -/
structure Start (idle : TaskId) (v : SemId → Nat) (r : Run) : Prop where
  boot : Boot idle r.k.sched
  count : ∀ sem, r.k.semcount sem = v sem ∧ (v sem : Int) ≤ semValueMax
  waitsem : ∀ t, r.k.waitsem t = none
  frame : ∀ t, r.frame t = none
  posts : ∀ sem, r.posts sem = 0
  obtained : ∀ sem, r.obtained sem = 0
  since : ∀ t, r.since t < r.clock

/-! ## The invariant -/

/-- The number of tasks that wait for a semaphore. -/
def waitCount (k : Kernel) (sem : SemId) : Nat :=
  (k.sched.list .waitingforsemaphore).countP fun t => decide (k.waitsem t = some sem)

/-- The counts that were put in and not yet obtained. -/
def available (v : SemId → Nat) (r : Run) (sem : SemId) : Int :=
  v sem + r.posts sem - r.obtained sem

/-- `a` is served before `b`: it has a higher priority, or the same and was there first. -/
def ServedBefore (prio since : TaskId → Nat) (a b : TaskId) : Prop :=
  prio b < prio a ∨ prio b = prio a ∧ since a < since b

theorem ServedBefore.trans {prio since : TaskId → Nat} {a b c : TaskId}
    (hab : ServedBefore prio since a b) (hbc : ServedBefore prio since b c) :
    ServedBefore prio since a c := by
  unfold ServedBefore at *
  omega

variable {t : TaskId}

theorem servedBefore_insertPrioritized {prio prio' since : TaskId → Nat} {now : Nat}
    {xs : List TaskId} (h : xs.Pairwise (ServedBefore prio since)) (ht : t ∉ xs)
    (hprio : ∀ u ∈ xs, prio' u = prio u) (hpast : ∀ u ∈ xs, since u < now) :
    (insertPrioritized prio' t xs).Pairwise (ServedBefore prio' (update since t now)) := by
  have hne : ∀ u ∈ xs, u ≠ t := fun u hu heq => ht (heq ▸ hu)
  refine insertWhere_pairwise (fun _ _ => ServedBefore.trans) ?_ ?_ ?_
  · refine List.Pairwise.imp_of_mem ?_ h
    intro a b ha hb hab
    rwa [ServedBefore, update_of_ne (hne a ha), update_of_ne (hne b hb),
      hprio a ha, hprio b hb]
  · intro u hu hle
    have hle := of_decide_eq_true hle
    have hlt := hpast u hu
    rw [ServedBefore, update_self, update_of_ne (hne u hu)]
    omega
  · intro u _ hlt
    have hlt := of_decide_eq_false hlt
    left
    omega

/-- The law for one semaphore: the count is what is available less the number of waiters, at most
one of the two is positive, and the count is in range. -/
def Balanced (count avail : Int) (waits : Nat) : Prop :=
  count = avail - waits ∧ 0 ≤ avail ∧ (0 < avail → waits = 0) ∧ -32768 ≤ count ∧
    count ≤ semValueMax

/-- A task that waits is inside the call and has been given nothing. Otherwise, if it is still
inside, the call returns `OK` if a count was given to it. -/
def CallOk (waitsem : Option SemId) (frame : Option (SemId × Int)) (granted : Bool) (errno : Int) :
    Prop :=
  match waitsem with
  | some sem => (∃ e, frame = some (sem, e)) ∧ granted = false ∧ errno = OK
  | none => frame.isSome = true → (errno = OK ↔ granted = true)

/-- The invariant of the runs on which the law holds. -/
structure Lawful (idle : TaskId) (v : SemId → Nat) (r : Run) : Prop where
  ok : KernelOk idle r.k
  locks : ∀ t, 0 ≤ r.k.sched.lockcount t ∧ r.k.sched.lockcount t ≤ int16Max
  order : (r.k.sched.list .waitingforsemaphore).Pairwise
    (ServedBefore r.k.sched.schedPriority r.since)
  past : ∀ t, r.since t < r.clock
  balanced : ∀ sem, Balanced (r.k.semcount sem) (available v r sem) (waitCount r.k sem)
  calls : ∀ t, CallOk (r.k.waitsem t) (r.frame t) (r.granted t) (r.k.pterrno t)

/-! ## Counting waiters -/

variable {sem : SemId}

theorem waitCount_insert {k k' : Kernel}
    (hl : (k'.sched.list .waitingforsemaphore).Perm (t :: k.sched.list .waitingforsemaphore))
    (ht : t ∉ k.sched.list .waitingforsemaphore)
    (hw : k'.waitsem = update k.waitsem t (some sem)) (s : SemId) :
    waitCount k' s = waitCount k s + if s = sem then 1 else 0 := by
  have hold : (k.sched.list .waitingforsemaphore).countP
      (fun u => decide (k'.waitsem u = some s)) = waitCount k s := by
    refine countP_congr fun u hu => ?_
    have hut : u ≠ t := fun h => ht (h ▸ hu)
    rw [hw, update_of_ne hut]
  rw [waitCount, hl.countP_eq, countP_cons, hold, hw, update_self]
  by_cases hs : s = sem
  · simp [hs]
  · simp [hs, Ne.symm hs]

theorem waitCount_erase {k k' : Kernel} (hn : (k.sched.list .waitingforsemaphore).Nodup)
    (hl : k'.sched.list .waitingforsemaphore = (k.sched.list .waitingforsemaphore).erase t)
    (ht : t ∈ k.sched.list .waitingforsemaphore) (hwt : k.waitsem t = some sem)
    (hw : k'.waitsem = update k.waitsem t none) (s : SemId) :
    waitCount k s = waitCount k' s + if s = sem then 1 else 0 := by
  -- `k` is what inserting the task into `k'` gives
  refine waitCount_insert (t := t) (hl ▸ perm_cons_erase ht) (hl ▸ hn.not_mem_erase) ?_ s
  rw [hw, Function.update_idem, ← hwt, update_eq_self]

theorem waitCount_perm {k k' : Kernel}
    (hl : (k'.sched.list .waitingforsemaphore).Perm (k.sched.list .waitingforsemaphore))
    (hw : k'.waitsem = k.waitsem) (s : SemId) : waitCount k' s = waitCount k s := by
  rw [waitCount, hl.countP_eq, hw]
  rfl

theorem bump_apply (f : SemId → Nat) (sem s : SemId) :
    bump f sem s = f s + if s = sem then 1 else 0 := by
  unfold bump
  by_cases hs : s = sem
  · subst hs
    simp
  · simp [hs]

/-! ## The steps -/

section Steps

variable {idle : TaskId} {v : SemId → Nat} {r : Run}

theorem Start.lawful (h : Start idle v r) : Lawful idle v r := by
  have hc := h.boot.consistent
  have hempty : r.k.sched.list .waitingforsemaphore = [] :=
    h.boot.empty _ (by decide) (by decide)
  have hzero : ∀ sem, waitCount r.k sem = 0 := fun sem => by simp [waitCount, hempty]
  have hav : ∀ sem, available v r sem = v sem := fun sem => by
    simp [available, h.posts, h.obtained]
  refine ⟨⟨hc.placed, hc.idle, ?_⟩, hc.counts, by rw [hempty]; exact .nil, h.since, ?_, ?_⟩
  · intro t
    rw [h.boot.states, h.waitsem]
    by_cases ht : t = idle
    · simp [ht]
    · by_cases hm : t ∈ r.k.sched.list .inactivetasks <;> simp [ht, hm]
  · intro sem
    obtain ⟨hv, hmax⟩ := h.count sem
    rw [hv, hav, hzero]
    unfold Balanced
    omega
  · intro t
    rw [h.waitsem, h.frame]
    exact nofun

section

variable (h : Lawful idle v r)
include h

/-- The waiters that are left keep their order. -/
theorem Lawful.order_sublist {l : List TaskId} {prio : TaskId → Nat}
    (hl : l <+ r.k.sched.list .waitingforsemaphore)
    (hprio : ∀ t ∈ l, prio t = r.k.sched.schedPriority t) :
    l.Pairwise (ServedBefore prio r.since) := by
  refine List.Pairwise.imp_of_mem ?_ (h.order.sublist hl)
  intro a b ha hb hab
  rwa [ServedBefore, hprio a ha, hprio b hb]

theorem Lawful.calls_update {w : TaskId → Option SemId} {f : TaskId → Option (SemId × Int)}
    {g : TaskId → Bool} {e : TaskId → Int}
    (hothers : ∀ u, u ≠ t → w u = r.k.waitsem u ∧ f u = r.frame u ∧ g u = r.granted u ∧
      e u = r.k.pterrno u)
    (ht : CallOk (w t) (f t) (g t) (e t)) (u : TaskId) : CallOk (w u) (f u) (g u) (e u) := by
  by_cases hu : u = t
  · rw [hu]
    exact ht
  · obtain ⟨hw, hf, hg, he⟩ := hothers u hu
    rw [hw, hf, hg, he]
    exact h.calls u

/-- Steps that neither move a waiting task nor touch a count. -/
theorem Lawful.quiet {k' : Kernel} {frame : TaskId → Option (SemId × Int)} (hok : KernelOk idle k')
    (hlocks : ∀ t, 0 ≤ k'.sched.lockcount t ∧ k'.sched.lockcount t ≤ int16Max)
    (hlist : k'.sched.list .waitingforsemaphore = r.k.sched.list .waitingforsemaphore)
    (hprio : ∀ t ∈ r.k.sched.list .waitingforsemaphore,
      k'.sched.schedPriority t = r.k.sched.schedPriority t)
    (hcount : k'.semcount = r.k.semcount) (hwait : k'.waitsem = r.k.waitsem)
    (hcalls : ∀ t, CallOk (k'.waitsem t) (frame t) (r.granted t) (k'.pterrno t)) :
    Lawful idle v { r with k := k', frame := frame, clock := r.clock + 1 } where
  ok := hok
  locks := hlocks
  order := by
    rw [hlist]
    exact h.order_sublist (.refl _) hprio
  past t := Nat.lt_succ_of_lt (h.past t)
  balanced s := by
    have hb := h.balanced s
    rwa [← hcount, ← waitCount_perm (hlist ▸ .refl _) hwait s] at hb
  calls := hcalls

theorem Lawful.tick : Lawful idle v { r with clock := r.clock + 1 } :=
  h.quiet h.ok h.locks rfl (fun _ _ => rfl) rfl rfl h.calls

theorem Lawful.locks_of_kept {k' : Kernel} (hk : SemKept t r.k k') :
    ∀ u, 0 ≤ k'.sched.lockcount u ∧ k'.sched.lockcount u ≤ int16Max := by
  rw [hk.kept.lockcount]
  exact h.locks

/-- The times of arrival are past once the clock advances, the one of the task that arrives too. -/
theorem Lawful.past_update (t u : TaskId) : update r.since t r.clock u < r.clock + 1 := by
  by_cases hu : u = t
  · simp [hu]
  · rw [update_of_ne hu]
    exact Nat.lt_succ_of_lt (h.past u)

end

/-- The balance of all semaphores after a step that changes the books of one. -/
theorem balanced_update {r r' : Run} {n : Int}
    (h : ∀ s, Balanced (r.k.semcount s) (available v r s) (waitCount r.k s))
    (hcount : r'.k.semcount = update r.k.semcount sem (i16 n))
    (hothers : ∀ s, s ≠ sem → available v r' s = available v r s ∧
      waitCount r'.k s = waitCount r.k s)
    (hsem : Balanced n (available v r' sem) (waitCount r'.k sem)) :
    ∀ s, Balanced (r'.k.semcount s) (available v r' s) (waitCount r'.k s) := by
  intro s
  by_cases hs : s = sem
  · subst hs
    have hi : i16 n = n := by
      unfold Balanced semValueMax at hsem
      exact i16_eq_self (by omega) (by omega)
    rw [hcount, update_self, hi]
    exact hsem
  · rw [hcount, update_of_ne hs, (hothers s hs).1, (hothers s hs).2]
    exact h s

section

variable (h : Lawful idle v r)
include h

/-- A step that changes the count of a semaphore and what is available of it. -/
theorem Lawful.account {n : Int} {posts obtained : SemId → Nat}
    (hothers : ∀ s, s ≠ sem → posts s = r.posts s ∧ obtained s = r.obtained s)
    (hsem : Balanced n (v sem + posts sem - obtained sem) (waitCount r.k sem)) :
    Lawful idle v { r with k := r.k.setCount sem n, posts := posts, obtained := obtained,
                           clock := r.clock + 1 } where
  ok := h.ok.congr rfl rfl
  locks := h.locks
  order := h.order
  past t := Nat.lt_succ_of_lt (h.past t)
  balanced := balanced_update h.balanced rfl
    (fun s hs => ⟨by simp [available, hothers s hs], rfl⟩) hsem
  calls := h.calls

/-- A wait or trywait takes a count that is there. -/
theorem Lawful.take (hpos : 0 < r.k.semcount sem) :
    Lawful idle v { r with k := r.k.setCount sem (r.k.semcount sem - 1),
                           obtained := bump r.obtained sem, clock := r.clock + 1 } := by
  refine h.account (fun s hs => ⟨rfl, by simp [bump_apply, hs]⟩) ?_
  have hb := h.balanced sem
  rw [bump_apply, if_pos rfl]
  unfold Balanced available at *
  omega

theorem Lawful.block (ht : t ∈ r.k.sched.list .readytorun) (hti : t ≠ idle)
    (hno : ¬ 0 < r.k.semcount sem) (hmin : -32768 < r.k.semcount sem) :
    ∃ k', nxsemWait r.k t (some sem) = some (.blocked (r.k.pterrno t), k') ∧
      Lawful idle v { r with k := k', frame := update r.frame t (some (sem, r.k.pterrno t)),
                             granted := update r.granted t false,
                             since := update r.since t r.clock, clock := r.clock + 1 } := by
  obtain ⟨k', hk', hok, hkept, hlist, hwait, hcount, herr⟩ := nxsemWait_blocks h.ok ht hti hno
  have hnot := h.ok.not_mem_waiting (h.ok.ready_waitsem ht)
  have hwc := waitCount_insert (hlist ▸ insertPrioritized_perm _ _ _) hnot hwait
  refine ⟨k', hk', hok, h.locks_of_kept hkept, ?_, h.past_update t, ?_,
    h.calls_update (t := t) ?_ ?_⟩
  · -- the caller stands behind all waiters of its priority, and came last
    show (k'.sched.list .waitingforsemaphore).Pairwise
      (ServedBefore k'.sched.schedPriority (update r.since t r.clock))
    rw [hlist, hkept.priority]
    exact servedBefore_insertPrioritized h.order hnot (fun _ _ => rfl) fun u _ => h.past u
  · refine balanced_update h.balanced hcount ?_ ?_
    · intro s hs
      exact ⟨rfl, by rw [hwc s, if_neg hs]; rfl⟩
    · have hb := h.balanced sem
      show Balanced _ (available v r sem) (waitCount k' sem)
      rw [hwc sem, if_pos rfl]
      unfold Balanced semValueMax at *
      omega
  · intro u hu
    simp [hwait, herr, hu]
  · simp [CallOk, hwait, herr]

/-- A waiting task leaves the list and its count is given back; how it leaves is said by `ht`. -/
theorem Lawful.leave (hw : r.k.waitsem t = some sem) {r' : Run} (hok : KernelOk idle r'.k)
    (hlocks : ∀ u, 0 ≤ r'.k.sched.lockcount u ∧ r'.k.sched.lockcount u ≤ int16Max)
    (hlist : r'.k.sched.list .waitingforsemaphore =
      (r.k.sched.list .waitingforsemaphore).erase t)
    (hprio : ∀ u, u ≠ t → r'.k.sched.schedPriority u = r.k.sched.schedPriority u)
    (hwait : r'.k.waitsem = update r.k.waitsem t none)
    (hcount : r'.k.semcount = update r.k.semcount sem (i16 (r.k.semcount sem + 1)))
    (hav : ∀ s, available v r' s = available v r s) (hsince : r'.since = r.since)
    (hclock : r'.clock = r.clock + 1)
    (hothers : ∀ u, u ≠ t → r'.frame u = r.frame u ∧ r'.granted u = r.granted u ∧
      r'.k.pterrno u = r.k.pterrno u)
    (ht : CallOk none (r'.frame t) (r'.granted t) (r'.k.pterrno t)) : Lawful idle v r' := by
  have hmem : t ∈ r.k.sched.list .waitingforsemaphore := h.ok.mem_waiting.2 (by rw [hw]; rfl)
  have hnd := h.ok.placed.nodup .waitingforsemaphore
  have hwc := waitCount_erase hnd hlist hmem hw hwait
  refine ⟨hok, hlocks, ?_, ?_, ?_, h.calls_update (t := t) ?_ ?_⟩
  · rw [hlist, hsince]
    exact h.order_sublist erase_sublist fun u hu => hprio u fun heq => hnd.not_mem_erase (heq ▸ hu)
  · intro u
    rw [hsince, hclock]
    exact Nat.lt_succ_of_lt (h.past u)
  · refine balanced_update h.balanced hcount ?_ ?_
    · intro s hs
      have := hwc s
      rw [if_neg hs] at this
      exact ⟨hav s, this.symm⟩
    · have hb := h.balanced sem
      have hc := hwc sem
      rw [if_pos rfl] at hc
      rw [hav]
      unfold Balanced semValueMax at *
      omega
  · intro u hu
    rw [hwait, update_of_ne hu]
    exact ⟨rfl, hothers u hu⟩
  · rw [hwait, update_self]
    exact ht

theorem Lawful.inside (hw : r.k.waitsem t = some sem) :
    (∃ e, r.frame t = some (sem, e)) ∧ r.granted t = false ∧ r.k.pterrno t = OK := by
  have hcall := h.calls t
  rwa [hw] at hcall

theorem Lawful.wait (ht : t ∈ r.k.sched.list .readytorun) (hti : t ≠ idle)
    (hmin : -32768 < r.k.semcount sem) :
    ∃ r', (Act.wait t sem).apply r = some r' ∧ Lawful idle v r' := by
  by_cases hpos : 0 < r.k.semcount sem
  · refine ⟨_, ?_, h.take hpos⟩
    simp [Act.apply, Act.run, nxsemWait_available h.ok ht hpos]
  · obtain ⟨k', hk', hl⟩ := h.block ht hti hpos hmin
    exact ⟨_, by simp [Act.apply, Act.run, hk'], hl⟩

theorem Lawful.trywait (ht : t ∈ r.k.sched.list .readytorun) :
    ∃ r', (Act.trywait t sem).apply r = some r' ∧ Lawful idle v r' := by
  by_cases hpos : 0 < r.k.semcount sem
  · refine ⟨_, ?_, h.take hpos⟩
    have hupd : update r.k.waitsem t none = r.k.waitsem := by
      rw [← h.ok.ready_waitsem ht, update_eq_self]
    simp [Act.apply, Act.run, nxsemTrywait, hpos, Kernel.setWaitsem, Kernel.setCount, hupd]
  · refine ⟨_, ?_, h.tick⟩
    simp [Act.apply, Act.run, nxsemTrywait, hpos, OK, EAGAIN]

theorem Lawful.nextWaiter_isSome (hneg : r.k.semcount sem < 0) :
    ∃ t, nextWaiter r.k sem = some t := by
  cases hnext : nextWaiter r.k sem with
  | some t => exact ⟨t, rfl⟩
  | none =>
    have hzero : waitCount r.k sem = 0 := by
      refine countP_eq_zero.2 fun u _ => ?_
      simpa using nextWaiter_none h.ok hnext u
    have hb := h.balanced sem
    unfold Balanced at hb
    omega

theorem Lawful.post (hmax : r.k.semcount sem < semValueMax) :
    ∃ r', (Act.post sem).apply r = some r' ∧ Lawful idle v r' := by
  have hb := h.balanced sem
  have hi : i16 (r.k.semcount sem + 1) = r.k.semcount sem + 1 := by
    unfold Balanced semValueMax at *
    exact i16_eq_self (by omega) (by omega)
  by_cases hpos : 0 < r.k.semcount sem + 1
  · refine ⟨{ r with k := r.k.setCount sem (r.k.semcount sem + 1), posts := bump r.posts sem,
                     clock := r.clock + 1 }, ?_, h.account (fun s hs => ?_) ?_⟩
    rotate_left
    · exact ⟨by simp [bump_apply, hs], rfl⟩
    · rw [bump_apply, if_pos rfl]
      unfold Balanced available at *
      omega
    have hrec : receiver r.k sem = none := by
      rw [receiver, hi, if_neg (by omega)]
    simp [Act.apply, Act.run, nxsemPost_adds (hi.symm ▸ hpos), Run.recordPost, hrec]
  · obtain ⟨t, hnext⟩ := h.nextWaiter_isSome (show r.k.semcount sem < 0 by omega)
    have hw := (nextWaiter_spec hnext).1
    obtain ⟨k', hk', hwoken, herr⟩ := nxsemPost_wakes h.ok (by rw [hi]; omega) hnext
    have hrec : receiver r.k sem = some t := by
      rw [receiver, hi, if_pos (by omega), hnext]
    refine ⟨_, by simp [Act.apply, Act.run, hk', Run.recordPost, hrec]; rfl, ?_⟩
    refine h.leave hw hwoken.ok (h.locks_of_kept hwoken.kept) hwoken.list ?_ hwoken.waitsem
      hwoken.count ?_ rfl rfl ?_ ?_
    · intro u _
      rw [hwoken.kept.priority]
    · intro s
      simp only [available, bump_apply]
      split <;> push_cast <;> omega
    · intro u hu
      refine ⟨rfl, ?_, by rw [herr]⟩
      exact update_of_ne hu _ _
    · have hin := h.inside hw
      simp [CallOk, herr, hin.2.2]

theorem Lawful.waitIrq (t : TaskId) {e : Int} (he : e ≠ OK) :
    ∃ r', (Act.waitIrq t e).apply r = some r' ∧ Lawful idle v r' := by
  cases hw : r.k.waitsem t with
  | none =>
    exact ⟨_, by simp [Act.apply, Act.run, nxsemWaitIrq, h.ok.state_ne hw], h.tick⟩
  | some sem =>
    obtain ⟨k', hk', hwoken, herr⟩ := nxsemWaitIrq_wakes h.ok hw e
    refine ⟨{ r with k := k', clock := r.clock + 1 }, by simp [Act.apply, Act.run, hk'], ?_⟩
    refine h.leave hw hwoken.ok (h.locks_of_kept hwoken.kept) hwoken.list ?_ hwoken.waitsem
      hwoken.count (fun _ => rfl) rfl rfl ?_ ?_
    · intro u _
      rw [hwoken.kept.priority]
    · intro u hu
      refine ⟨rfl, rfl, ?_⟩
      rw [herr, update_of_ne hu]
    · have hin := h.inside hw
      simp [CallOk, herr, he, hin.2.1]

theorem Lawful.resume (ht : t ∈ r.k.sched.list .readytorun) (hf : (r.frame t).isSome = true) :
    ∃ r', (Act.resume t).apply r = some r' ∧ Lawful idle v r' := by
  obtain ⟨⟨sem, e⟩, hfr⟩ := Option.isSome_iff_exists.1 hf
  refine ⟨_, by simp [Act.apply, Act.run, hfr]; rfl, ?_⟩
  refine h.quiet (h.ok.congr rfl rfl) h.locks rfl (fun _ _ => rfl) rfl rfl
    (h.calls_update (t := t) (fun u hu => ?_) ?_)
  · exact ⟨rfl, update_of_ne hu _ _, rfl, update_of_ne hu _ _⟩
  · simp [CallOk, nxsemWaitResume, Kernel.setErrno, h.ok.ready_waitsem ht]

/-- A change of priority moves a waiting task behind the waiters of its new priority. -/
theorem Lawful.setpriority (hti : t ≠ idle) (p : Int) :
    ∃ r', (Act.setpriority t p).apply r = some r' ∧ Lawful idle v r' := by
  by_cases hrange : schedPriorityMin ≤ p ∧ p ≤ schedPriorityMax
  · obtain ⟨s', hs', hrep, -⟩ := nxschedSetpriority_spec h.ok.placed h.ok.idle hti hrange.1 hrange.2
    have hwc : ∀ u, s'.taskState u = .waitSem ↔ r.k.sched.taskState u = .waitSem := by
      intro u
      by_cases hu : u = t
      · rw [hu, ← view_eq_waitSem, hrep.view, view_eq_waitSem]
      · exact waitSem_of_kept hrep.kept hu
    have hok : KernelOk idle { r.k with sched := s' } :=
      ⟨hrep.placed, hrep.idle, fun u => (hwc u).trans (h.ok.waiting u)⟩
    have hlocks : ∀ u, 0 ≤ s'.lockcount u ∧ s'.lockcount u ≤ int16Max := by
      rw [hrep.kept.lockcount]
      exact h.locks
    have hlist := hrep.blocked .waitingforsemaphore (by decide) (by decide)
    unfold reposition at hlist
    by_cases hst : r.k.sched.taskState t = .waitSem
    · rw [hst, if_pos ⟨rfl, rfl⟩] at hlist
      have hnd := h.ok.placed.nodup .waitingforsemaphore
      have hmem : t ∈ r.k.sched.list .waitingforsemaphore :=
        (h.ok.placed.mem _ _).2 (by rw [hst]; rfl)
      have hne : ∀ u ∈ (r.k.sched.list .waitingforsemaphore).erase t, u ≠ t :=
        fun u hu heq => hnd.not_mem_erase (heq ▸ hu)
      have hperm : (s'.list .waitingforsemaphore).Perm (r.k.sched.list .waitingforsemaphore) := by
        rw [hlist]
        exact (insertPrioritized_perm _ _ _).trans (perm_cons_erase hmem).symm
      have hprio : (r.k.sched.setPriority t p.toNat).schedPriority = s'.schedPriority := by
        funext u
        by_cases hu : u = t
        · rw [hu, hrep.priority]
          simp
        · rw [hrep.kept.priority u hu]
          simp [hu]
      refine ⟨{ r with k := { r.k with sched := s' }, since := update r.since t r.clock,
                       clock := r.clock + 1 }, by simp [Act.apply, Act.run, hs', hst],
        hok, hlocks, ?_, h.past_update t, ?_, h.calls⟩
      · show (s'.list .waitingforsemaphore).Pairwise
          (ServedBefore s'.schedPriority (update r.since t r.clock))
        rw [hlist, hprio]
        exact servedBefore_insertPrioritized (h.order.sublist erase_sublist)
          hnd.not_mem_erase (fun u hu => hrep.kept.priority u (hne u hu)) fun u _ => h.past u
      · intro s
        have : waitCount { r.k with sched := s' } s = waitCount r.k s :=
          @waitCount_perm r.k { r.k with sched := s' } hperm rfl s
        rw [this]
        exact h.balanced s
    · have hno : ¬ ((r.k.sched.taskState t).tlist = some .waitingforsemaphore ∧
          TaskList.waitingforsemaphore.isPrioritized = true) := by
        rintro ⟨hc, -⟩
        exact hst ((h.ok.waiting t).2 (h.ok.mem_waiting.1 ((h.ok.placed.mem _ _).2 hc)))
      rw [if_neg hno] at hlist
      refine ⟨{ r with k := { r.k with sched := s' }, clock := r.clock + 1 },
        by simp [Act.apply, Act.run, hs', hst], ?_⟩
      refine h.quiet hok hlocks hlist (fun u hu => hrep.kept.priority u ?_) rfl rfl h.calls
      rintro rfl
      exact hst ((h.ok.waiting u).2 (h.ok.mem_waiting.1 hu))
  · have hbad : p < schedPriorityMin ∨ schedPriorityMax < p := by omega
    refine ⟨_, ?_, h.tick⟩
    simp [Act.apply, Act.run, nxschedSetpriority, hbad, OK, EINVAL]

theorem Lawful.calls_drop (hw : r.k.waitsem t = none) (u : TaskId) :
    CallOk (r.k.waitsem u) (update r.frame t none u) (r.granted u) (r.k.pterrno u) :=
  h.calls_update
    (fun _ hu => ⟨rfl, update_of_ne hu _ _, rfl, rfl⟩) (by simp [CallOk, hw]) u

theorem Lawful.terminate (hti : t ≠ idle)
    (hrun : r.k.sched.thisTask ≠ some t) (hst : r.k.sched.taskState t ≠ .waitSem) :
    ∃ r', (Act.terminate t).apply r = some r' ∧ Lawful idle v r' := by
  have hw : r.k.waitsem t = none := by
    rw [Ne, h.ok.waiting] at hst
    cases hw : r.k.waitsem t with
    | none => rfl
    | some sem => simp [hw] at hst
  obtain ⟨hok, hlist⟩ := taskTerminate_ok h.ok hti hrun hw
  obtain ⟨-, -, -, -, hprio, hlock⟩ := dropTask_spec h.ok.placed h.ok.idle hti hrun
  refine ⟨_, rfl, ?_⟩
  refine h.quiet hok ?_ hlist ?_ rfl rfl (h.calls_drop hw)
  · intro u
    show 0 ≤ (dropTask r.k.sched t).lockcount u ∧ (dropTask r.k.sched t).lockcount u ≤ int16Max
    rw [hlock]
    exact h.locks u
  · intro u _
    show (dropTask r.k.sched t).schedPriority u = _
    rw [hprio]

/-- `task_restart` takes the wait of the task back before it leaves the waiting list. -/
theorem Lawful.restart (hti : t ≠ idle) (hrun : r.k.sched.thisTask ≠ some t)
    {p : Nat} (hp : 1 ≤ p) : ∃ r', (Act.restart t p).apply r = some r' ∧ Lawful idle v r' := by
  obtain ⟨hpl, hid, hstate, hlist, hprio, hlock⟩ :=
    restartSched_spec h.ok.placed h.ok.idle hti hrun hp
  have hlocks : ∀ u, 0 ≤ (restartSched r.k.sched t p).lockcount u ∧
      (restartSched r.k.sched t p).lockcount u ≤ int16Max := by
    intro u
    rw [hlock]
    by_cases hu : u = t
    · simp [hu, int16Max]
    · rw [update_of_ne hu]
      exact h.locks u
  have hok : ∀ k' : Kernel, k'.sched = restartSched r.k.sched t p →
      k'.waitsem = update r.k.waitsem t none → KernelOk idle k' := by
    intro k' hs hw
    refine ⟨hs ▸ hpl, hs ▸ hid, fun u => ?_⟩
    rw [hs, hw, hstate]
    by_cases hu : u = t
    · simp [hu]
    · rw [update_of_ne hu, update_of_ne hu, h.ok.waiting]
  cases hw : r.k.waitsem t with
  | none =>
    have hno := h.ok.not_mem_waiting hw
    rw [erase_of_not_mem hno] at hlist
    have hupd : r.k.waitsem = update r.k.waitsem t none := by
      rw [← hw, update_eq_self]
    refine ⟨_, by simp [Act.apply, Act.run, taskRestart_eq,
      nxsemRecover_other (h.ok.state_ne hw)]; rfl, ?_⟩
    exact h.quiet (hok _ rfl hupd) hlocks hlist (fun u hu => hprio u fun heq => hno (heq ▸ hu)) rfl
      rfl (h.calls_drop hw)
  | some sem =>
    refine ⟨_, by simp [Act.apply, Act.run, taskRestart_eq, nxsemRecover_waiting h.ok hw]; rfl, ?_⟩
    refine h.leave hw (hok _ rfl rfl) hlocks hlist hprio rfl rfl (fun _ => rfl) rfl rfl ?_ ?_
    · intro u hu
      exact ⟨update_of_ne hu _ _, rfl, rfl⟩
    · simp [CallOk]

theorem Lawful.schedStep {s' : SchedState} {op : Op}
    (hop : op.apply r.k.sched = some s') (hpl : WellPlaced s') (hid : IdleOk idle s')
    (hlocks : ∀ u, 0 ≤ s'.lockcount u ∧ s'.lockcount u ≤ int16Max)
    (hstate : ∀ u, s'.taskState u = .waitSem ↔ r.k.sched.taskState u = .waitSem)
    (hprio : s'.schedPriority = r.k.sched.schedPriority)
    (hlist : s'.list .waitingforsemaphore = r.k.sched.list .waitingforsemaphore) :
    ∃ r', (Act.sched op).apply r = some r' ∧ Lawful idle v r' := by
  refine ⟨{ r with k := { r.k with sched := s' }, clock := r.clock + 1 },
    by simp [Act.apply, Act.run, Kernel.onSched, hop], ?_⟩
  exact h.quiet ⟨hpl, hid, fun u => (hstate u).trans (h.ok.waiting u)⟩ hlocks hlist
    (fun u _ => by rw [hprio]) rfl rfl h.calls

/-- A task that waits for no semaphore before and after is moved between the other lists. -/
theorem Lawful.schedMove {s' : SchedState} {op : Op} (hop : op.apply r.k.sched = some s')
    (hout : Outcome idle t r.k.sched s') (hprio : s'.schedPriority = r.k.sched.schedPriority)
    (hold : r.k.sched.taskState t ≠ .waitSem) (hnew : s'.taskState t ≠ .waitSem)
    (hlist : s'.list .waitingforsemaphore = r.k.sched.list .waitingforsemaphore) :
    ∃ r', (Act.sched op).apply r = some r' ∧ Lawful idle v r' := by
  refine h.schedStep hop hout.placed hout.idle (by rw [hout.kept.lockcount]; exact h.locks)
    (fun u => ?_) hprio hlist
  by_cases hu : u = t
  · simp [hu, hold, hnew]
  · exact waitSem_of_kept hout.kept hu

theorem Lawful.sched {op : Op} (hc : (Act.sched op).Callable idle r) :
    ∃ r', (Act.sched op).apply r = some r' ∧ Lawful idle v r' := by
  cases op with
  | block t st =>
    obtain ⟨⟨ht, hti, hst⟩, hne⟩ := hc
    obtain ⟨l, hl, -⟩ := TState.tlist_of_isBlocked hst
    obtain ⟨s', hs', hout, hprio, hstate, -, hothers⟩ :=
      upBlockTask_spec h.ok.placed h.ok.idle ht hti hst hl
    have hlw : TaskList.waitingforsemaphore ≠ l := by
      rintro rfl
      cases st <;> simp_all [TState.tlist]
    refine h.schedMove hs' hout hprio ?_ (by rwa [hstate]) (hothers _ hlw (by decide) (by decide))
    rcases h.ok.placed.state_of_mem_readytorun ht with hc | hc <;> rw [hc] <;> decide
  | unblock t =>
    obtain ⟨hb, hne⟩ := hc
    obtain ⟨l, hl, -⟩ := TState.tlist_of_isBlocked hb
    obtain ⟨s', hs', hout, hprio, hview, -, hothers⟩ :=
      upUnblockTask_spec h.ok.placed h.ok.idle hb hl
    have hlw : TaskList.waitingforsemaphore ≠ l := by
      rintro rfl
      cases hst : r.k.sched.taskState t <;> simp_all [TState.tlist]
    refine h.schedMove hs' hout hprio hne (fun hc => ?_) (hothers _ hlw (by decide) (by decide))
    rw [hc] at hview
    cases hview
  | lock =>
    obtain ⟨t, ht⟩ := h.ok.idle.thisTask_isSome
    have hmax := hc t ht
    obtain ⟨hs', -⟩ := schedLock_spec ht (h.locks t).1 hmax
    refine h.schedStep hs' (h.ok.placed.setLockcount _)
      ⟨h.ok.idle.ready, h.ok.idle.lowest, h.ok.idle.others⟩ ?_ (fun _ => Iff.rfl) rfl rfl
    intro u
    have hu := h.locks u
    by_cases hut : u = t
    · subst hut
      simp only [update_self]
      omega
    · simp only [update_of_ne hut]
      exact hu
  | unlock =>
    obtain ⟨t, ht⟩ := h.ok.idle.thisTask_isSome
    obtain ⟨s', hs', hpl, hid, -, -, hprio, hview, hothers, hcnt⟩ :=
      schedUnlock_spec h.ok.placed h.ok.idle ht h.locks
    refine h.schedStep hs' hpl hid (fun u => ⟨(hcnt u).1, (hcnt u).2.trans (h.locks u).2⟩) ?_
      hprio (hothers _ (by decide) (by decide))
    intro u
    rw [← view_eq_waitSem, hview, view_eq_waitSem]
  | setpriority t p => exact absurd hc id

/-- Every step of which the rules are observed succeeds, and keeps the law under the condition. -/
theorem Lawful.apply {a : Act} (hc : a.Callable idle r)
    (hp : a.Preserves r) : ∃ r', a.apply r = some r' ∧ Lawful idle v r' := by
  cases a with
  | wait t sem => exact h.wait hc.1 hc.2.1 hp
  | resume t => exact h.resume hc.1 hc.2
  | trywait t sem => exact h.trywait hc.1
  | post sem => exact h.post hp
  | waitIrq t e => exact h.waitIrq t hc
  | setpriority t p => exact h.setpriority hc p
  | terminate t => exact h.terminate hc.1 hc.2 hp
  | exithook t => exact ⟨_, by simp [Act.apply, Act.run, nxsemRecover_other hc], h.tick⟩
  | restart t p => exact h.restart hc.1 hc.2.1 hc.2.2
  | sched op => exact h.sched hc

end

end Steps

/-! ## The law -/

/-- A step of a run that satisfies `ok`. -/
def ActStep (ok : Run → Act → Prop) (idle : TaskId) : Run → Run → Prop :=
  LabelledStep (fun r a => a.Callable idle r ∧ ok r a) Act.apply

variable {v : SemId → Nat} {idle : TaskId}

theorem reach_lawful {r : Run}
    (h : Reach (Start idle v) (ActStep (fun r a => a.Preserves r) idle) r) : Lawful idle v r :=
  Reach.labelled (P := Lawful idle v) (fun _ => Start.lawful)
    (fun _ _ hr ha => hr.apply ha.1 ha.2) h

theorem Lawful.receiver_first {r : Run} (h : Lawful idle v r) (ht : nextWaiter r.k sem = some t)
    {u : TaskId} (hu : r.k.waitsem u = some sem) (hne : u ≠ t) :
    ServedBefore r.k.sched.schedPriority r.since t u := by
  obtain ⟨-, pre, post, hl, hpre⟩ := nextWaiter_spec ht
  have hmem : u ∈ r.k.sched.list .waitingforsemaphore := h.ok.mem_waiting.2 (by rw [hu]; rfl)
  have horder := h.order
  rw [hl] at hmem horder
  rcases mem_append.1 hmem with hm | hm
  · exact absurd hu (hpre u hm)
  · rcases mem_cons.1 hm with heq | hm
    · exact absurd heq hne
    · exact rel_of_pairwise_cons (pairwise_append.1 horder).2.1 hm

/-- On every run on which no waiting task is deleted by `task_terminate` and the counts stay in
range, in every state: the negative part of a count is the number of tasks waiting for the
semaphore; the initial value plus the posts less the counts obtained is the positive part; a post
that finds waiters gives its count to the waiter of highest priority that has had this priority's
place longest, and a wait that ends returns `OK` exactly if a post gave it its count. No step
fails. -/
theorem semaphore_count_law {idle : TaskId} {r : Run}
    (h : Reach (Start idle v) (ActStep (fun r a => a.Preserves r) idle) r) :
    (∀ t sem, t ∈ (r.k.sched.list .waitingforsemaphore).filter
        (fun t => decide (r.k.waitsem t = some sem)) ↔
      r.k.sched.taskState t = .waitSem ∧ r.k.waitsem t = some sem) ∧
    (r.k.sched.list .waitingforsemaphore).Nodup ∧
    (∀ sem, max 0 (-(r.k.semcount sem)) = ((r.k.sched.list .waitingforsemaphore).filter
      (fun t => decide (r.k.waitsem t = some sem))).length) ∧
    (∀ sem, (v sem : Int) + r.posts sem - r.obtained sem = max 0 (r.k.semcount sem)) ∧
    (∀ sem r', r.k.semcount sem < 0 → (Act.post sem).apply r = some r' →
      ∃ t, r.k.waitsem t = some sem ∧ r'.k.waitsem t = none ∧ r'.granted t = true ∧
        (r'.k.sched.taskState t).view = .readytorun ∧
        ∀ u, u ≠ t → r.k.waitsem u = some sem → r'.k.waitsem u = some sem ∧
          ServedBefore r.k.sched.schedPriority r.since t u) ∧
    (∀ t sem e, r.frame t = some (sem, e) → t ∈ r.k.sched.list .readytorun →
      ((nxsemWaitResume r.k t e).1 = OK ↔ r.granted t = true)) ∧
    ∀ a : Act, a.Callable idle r → a.Preserves r → (a.apply r).isSome = true := by
  have hl := reach_lawful h
  refine ⟨?_, hl.ok.placed.nodup _, ?_, ?_, ?_, ?_, ?_⟩
  · intro t sem
    rw [mem_filter, hl.ok.mem_waiting, ← hl.ok.waiting, decide_eq_true_iff]
  · intro sem
    have hb := hl.balanced sem
    rw [← countP_eq_length_filter]
    show max 0 (-(r.k.semcount sem)) = (waitCount r.k sem : Int)
    unfold Balanced at hb
    omega
  · intro sem
    have hb := hl.balanced sem
    unfold Balanced available at hb
    omega
  · intro sem r' hneg happ
    obtain ⟨t, hnext⟩ := hl.nextWaiter_isSome hneg
    have hb := hl.balanced sem
    have hi : i16 (r.k.semcount sem + 1) = r.k.semcount sem + 1 := by
      unfold Balanced semValueMax at hb
      exact i16_eq_self (by omega) (by omega)
    obtain ⟨k', hk', hwoken, -⟩ := nxsemPost_wakes hl.ok (by rw [hi]; omega) hnext
    have hwait := hwoken.waitsem
    have hrec : receiver r.k sem = some t := by
      rw [receiver, hi, if_pos (by omega), hnext]
    simp only [Act.apply, Act.run, hk', Option.map_some, Run.recordPost, hrec,
      Option.some.injEq] at happ
    subst happ
    refine ⟨t, (nextWaiter_spec hnext).1, by simp [hwait], by simp, hwoken.view, ?_⟩
    intro u hne hu
    refine ⟨?_, hl.receiver_first hnext hu hne⟩
    simp [hwait, hne, hu]
  · intro t sem e hf ht
    have hres := hl.calls t
    rw [hl.ok.ready_waitsem ht, hf] at hres
    replace hres := hres rfl
    rw [← hres]
    unfold nxsemWaitResume
    by_cases he : r.k.pterrno t = OK
    · simp [he]
    · simp only [ne_eq, he, not_false_eq_true, if_true, iff_false]
      intro hc
      unfold OK at *
      omega
  · intro a hc hp
    obtain ⟨r', hr', -⟩ := hl.apply hc hp
    rw [hr']
    rfl

/-! ## Sample runs -/

/-- The tasks of `sampleBoot` and semaphores with the value 0. -/
def sampleStart : Run where
  k := { sched := sampleBoot, semcount := fun _ => 0, waitsem := fun _ => none,
         pterrno := fun _ => 0 }
  frame _ := none
  posts _ := 0
  obtained _ := 0
  granted _ := false
  since _ := 0
  clock := 1

theorem sampleStart_start : Start 0 (fun _ => 0) sampleStart :=
  ⟨sampleBoot_boot, fun _ => ⟨rfl, by decide⟩, fun _ => rfl, fun _ => rfl, fun _ => rfl,
    fun _ => rfl, fun _ => zero_lt_one⟩

/-- Task 1 waits for a semaphore, is deleted, and its exit hook runs; then the semaphore is posted.
The count still shows a waiter that does not exist, and the post is lost on it. -/
theorem terminate_loses_count :
    (∃ r, Reach (Start 0 fun _ => 0) (ActStep (fun _ _ => True) 0) r ∧ r.k.semcount 7 = -1 ∧
      (r.k.sched.list .waitingforsemaphore).filter
        (fun t => decide (r.k.waitsem t = some 7)) = []) ∧
    ∃ r, Reach (Start 0 fun _ => 0) (ActStep (fun _ _ => True) 0) r ∧
      r.posts 7 = 1 ∧ r.obtained 7 = 0 ∧ r.k.semcount 7 = 0 := by
  refine ⟨⟨after Act.apply sampleStart
    [.sched (.unblock 1), .wait 1 7, .terminate 1, .exithook 1], ?_, rfl, rfl⟩,
    after Act.apply sampleStart
      [.sched (.unblock 1), .wait 1 7, .terminate 1, .exithook 1, .post 7], ?_, rfl, rfl, rfl⟩
  · refine Reach.after _ (.start sampleStart_start) ?_
    exact ⟨⟨⟨by decide, by decide⟩, trivial⟩, rfl, ⟨⟨by decide, by decide, rfl⟩, trivial⟩, rfl,
      ⟨⟨by decide, by decide⟩, trivial⟩, rfl,
      ⟨(by decide : TState.invalid ≠ .waitSem), trivial⟩, rfl, trivial⟩
  · refine Reach.after _ (.start sampleStart_start) ?_
    exact ⟨⟨⟨by decide, by decide⟩, trivial⟩, rfl, ⟨⟨by decide, by decide, rfl⟩, trivial⟩, rfl,
      ⟨⟨by decide, by decide⟩, trivial⟩, rfl, ⟨(by decide : TState.invalid ≠ .waitSem), trivial⟩,
      rfl, ⟨trivial, trivial⟩, rfl, trivial⟩

/-- Tasks 2 and 1 wait, in this order, and a restart takes the wait of task 1 back. -/
theorem semaphore_count_law_sample :
    ∃ r, Reach (Start 0 fun _ => 0) (ActStep (fun r a => a.Preserves r) 0) r ∧
      r.k.semcount 7 = -1 ∧
      max 0 (-(r.k.semcount 7)) = ((r.k.sched.list .waitingforsemaphore).filter
        (fun t => decide (r.k.waitsem t = some 7))).length := by
  have hreach : Reach (Start 0 fun _ => 0) (ActStep (fun r a => a.Preserves r) 0)
      (after Act.apply sampleStart
        [.sched (.unblock 2), .wait 2 7, .sched (.unblock 1), .wait 1 7, .restart 1 100]) := by
    refine Reach.after _ (.start sampleStart_start) ?_
    exact ⟨⟨⟨by decide, by decide⟩, trivial⟩, rfl,
      ⟨⟨by decide, by decide, rfl⟩, (by decide : (-32768 : Int) < 0)⟩, rfl,
      ⟨⟨by decide, by decide⟩, trivial⟩, rfl,
      ⟨⟨by decide, by decide, rfl⟩, (by decide : (-32768 : Int) < -1)⟩, rfl,
      ⟨⟨by decide, by decide, by decide⟩, trivial⟩, rfl, trivial⟩
  exact ⟨_, hreach, rfl, (semaphore_count_law hreach).2.2.1 7⟩

end BaseNx.Semaphore
