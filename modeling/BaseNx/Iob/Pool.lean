import BaseNx.Lib.Reach
import Mathlib.Tactic

/-!
# The pools of I/O buffers

`mm/iob`: `iob_alloc` and `iob_free` over the free list and the committed list, with the semaphore
that counts the buffers and the one that holds back throttled callers. The containers of the buffer
queues have a pool of the same form without the second semaphore.

`iob_free` picks the list by the first semaphore and posts both. A task that waits on the throttle
semaphore is therefore woken without a committed buffer, and a buffer that is handed to a waiting
task is counted in the throttle semaphore although it is not free. `iob_pool_conserved` gives what
holds on every run and what holds while no buffer is freed in front of a throttled waiter;
`throttle_breaks_pool` shows both failures.

A call of `iob_allocwait` is cut where `nxsem_wait` and `nxsem_post` may let other tasks run.
-/

namespace BaseNx.Iob

open Lib List

/-! ## The pool -/

/-- `g_iob_sem` and `g_throttle_sem` -/
inductive Sem
  | iob
  | throttle
  deriving DecidableEq

/-- A task inside `iob_allocwait`, with the argument of the call. -/
structure Waiter where
  task : Nat
  throttled : Bool
  deriving DecidableEq

/-- A pool and the tasks inside `iob_allocwait`: those that `nxsem_wait` blocks, those to which it
is about to return `OK` and those to which it is about to return `-EINTR`, and those that have given
their count back and are about to try again. `posting` counts the calls of `iob_free` between their
two posts, and `served` the buffers that were freed to the committed list. -/
structure Pool where
  free : List Nat
  committed : List Nat
  used : List Nat
  count : Int
  throttle : Int
  waiting : List Waiter
  woken : List Waiter
  interrupted : List Waiter
  reposted : List Waiter
  posting : Nat
  served : Nat
  deriving DecidableEq

/-- `iob_initialize`: every buffer is pushed on the free list. -/
def Pool.start (nbuffers ioThrottle : Nat) : Pool where
  free := (range nbuffers).reverse
  committed := []
  used := []
  count := nbuffers
  throttle := (nbuffers : Int) - ioThrottle
  waiting := []
  woken := []
  interrupted := []
  reposted := []
  posting := 0
  served := 0

/-- The semaphore of a call; without `CONFIG_IOB_THROTTLE` there is only one. -/
def semOf (ioThrottle : Nat) (throttled : Bool) : Sem :=
  if 0 < ioThrottle ∧ throttled = true then .throttle else .iob

namespace Pool

variable (T : Nat)

def semcount (p : Pool) : Sem → Int
  | .iob => p.count
  | .throttle => p.throttle

def addCount (p : Pool) (d : Int) : Sem → Pool
  | .iob => { p with count := p.count + d }
  | .throttle => { p with throttle := p.throttle + d }

/-- The tasks that are blocked on a semaphore. -/
def waitersOn (p : Pool) (sem : Sem) : List Waiter :=
  p.waiting.filter fun w => semOf T w.throttled = sem

/-- `nxsem_wait`: it returns at once or blocks. -/
def nxsemWait (p : Pool) (w : Waiter) : Pool :=
  let sem := semOf T w.throttled
  let q := p.addCount (-1) sem
  if 0 < p.semcount sem then { q with woken := q.woken ++ [w] }
  else { q with waiting := q.waiting ++ [w] }

/-- A blocked task is made ready. -/
def wake (p : Pool) (w : Waiter) : Pool :=
  { p with waiting := p.waiting.erase w, woken := p.woken ++ [w] }

/-- `nxsem_post`: the first task in the list of the waiting ones is woken. -/
def nxsemPost (p : Pool) (sem : Sem) : Pool :=
  let q := p.addCount 1 sem
  if q.semcount sem ≤ 0 then
    match q.waitersOn T sem with
    | w :: _ => q.wake w
    | [] => q
  else q

/-- The first buffer of the free list is taken and counted. -/
def take (p : Pool) (b : Nat) (rest : List Nat) : Pool :=
  { p with
    free := rest
    used := b :: p.used
    count := p.count - 1
    throttle := if 0 < T then p.throttle - 1 else p.throttle }

/-- `iob_tryalloc`; without the throttle it is `iob_tryalloc_qentry` and looks at the free list
only. -/
def tryalloc (p : Pool) (throttled : Bool) : Option Nat × Pool :=
  if T = 0 ∨ 0 < p.semcount (semOf T throttled) then
    match p.free with
    | b :: rest => (some b, p.take T b rest)
    | [] => (none, p)
  else (none, p)

/-- `iob_alloc_committed` and `iob_alloc_qcommitted` -/
def allocCommitted (p : Pool) : Option Nat × Pool :=
  match p.committed with
  | b :: rest => (some b, { p with committed := rest, used := b :: p.used })
  | [] => (none, p)

/-- `iob_allocwait` and `iob_allocwait_qentry` up to the return of `nxsem_wait`, also on their later
turns. -/
def tryOrWait (p : Pool) (w : Waiter) : Pool :=
  match p.tryalloc T w.throttled with
  | (some _, q) => q
  | (none, q) => q.nxsemWait T w

/-- The two functions after `nxsem_wait` has returned `OK`: without a committed buffer the count is
given back. -/
def onWake (p : Pool) (w : Waiter) : Pool :=
  match p.allocCommitted with
  | (some _, q) => q
  | (none, q) =>
    let r := q.nxsemPost T (semOf T w.throttled)
    { r with reposted := r.reposted ++ [w] }

/-- The buffer goes to the list that `commit` names. -/
def put (p : Pool) (commit : Bool) (b : Nat) : Pool :=
  if commit = true then
    { p with used := p.used.erase b, committed := b :: p.committed, served := p.served + 1 }
  else { p with used := p.used.erase b, free := b :: p.free }

/-- A free routine up to its first post. -/
def release (p : Pool) (commit : Bool) (b : Nat) : Pool :=
  let q := (p.put commit b).nxsemPost T .iob
  { q with posting := if 0 < T then q.posting + 1 else q.posting }

end Pool

/-- `iob_free`, up to the post of `g_iob_sem`. -/
def iobFree (ioThrottle : Nat) (p : Pool) (b : Nat) : Pool :=
  p.release ioThrottle (decide (p.count < 0)) b

/-- `iob_free_qentry`, with the count of `g_iob_sem`: it is this count that it looks at. -/
def iobFreeQentry (iobSem : Int) (p : Pool) (b : Nat) : Pool := p.release 0 (decide (iobSem < 0)) b

/-! ## Steps -/

/-- The steps of the tasks and of the interrupt handlers. -/
inductive Op
  | tryalloc (throttled : Bool)
  | alloc (w : Waiter)
  | resume (w : Waiter)
  | again (w : Waiter)
  | signal (w : Waiter)
  | cancel (w : Waiter)
  | retry (w : Waiter)
  | free (b : Nat)
  | postThrottle
  | reorder (waiting : List Waiter)
  deriving DecidableEq

namespace Pool

variable (T : Nat)

/-- A waiting task is taken out of `nxsem_wait`, which gives the count back. -/
def unblock (p : Pool) (w : Waiter) : Pool :=
  let q := p.addCount 1 (semOf T w.throttled)
  { q with waiting := q.waiting.erase w }

/-- One step, with the free routine of the pool. -/
def apply (freeRoutine : Pool → Nat → Pool) (p : Pool) : Op → Pool
  | .tryalloc throttled => (p.tryalloc T throttled).2
  | .alloc w => p.tryOrWait T w
  | .resume w => { p with woken := p.woken.erase w }.onWake T w
  | .again w => { p with reposted := p.reposted.erase w }.tryOrWait T w
  | .signal w =>
    let q := p.unblock T w
    { q with interrupted := q.interrupted ++ [w] }
  | .cancel w => p.unblock T w
  | .retry w => { p with interrupted := p.interrupted.erase w }.nxsemWait T w
  | .free b => freeRoutine p b
  | .postThrottle => { p with posting := p.posting - 1 }.nxsemPost T .throttle
  | .reorder waiting => { p with waiting := waiting }

/-- When a step can be taken: a buffer that is freed is in use, and the order of the waiting tasks
changes with their priorities only. -/
def Enabled (p : Pool) : Op → Prop
  | .tryalloc _ | .alloc _ => True
  | .resume w => w ∈ p.woken
  | .again w => w ∈ p.reposted
  | .signal w | .cancel w => w ∈ p.waiting
  | .retry w => w ∈ p.interrupted
  | .free b => b ∈ p.used
  | .postThrottle => 0 < T ∧ 0 < p.posting
  | .reorder waiting => waiting.Perm p.waiting

/-- The steps on which the pool keeps its accounts: no post in front of a throttled waiter, no
second wait of an interrupted task while the count is positive, and no throttled call while the
throttle semaphore is positive without a free buffer. -/
def Orderly (p : Pool) : Op → Prop
  | .alloc w => semOf T w.throttled = .throttle → 0 < p.throttle → p.free ≠ []
  | .retry w => p.semcount (semOf T w.throttled) ≤ 0
  | .postThrottle => p.waitersOn T .throttle = []
  | _ => True

instance (p : Pool) (op : Op) : Decidable (p.Enabled T op) := by
  cases op <;> unfold Enabled <;> infer_instance

instance (p : Pool) (op : Op) : Decidable (p.Orderly T op) := by
  cases op <;> unfold Orderly <;> infer_instance

end Pool

/-! ## Every buffer is in one list -/

variable {freeRoutine : Pool → Nat → Pool} {b : Nat} {op : Op}

namespace Pool

variable {T : Nat} {p : Pool}

/-- The buffers of all lists. -/
def lists (p : Pool) : List Nat := p.free ++ (p.committed ++ p.used)

section

variable (p : Pool)

@[simp] theorem lists_addCount (d : Int) (sem : Sem) : (p.addCount d sem).lists = p.lists := by
  cases sem <;> rfl

@[simp] theorem lists_nxsemWait (w : Waiter) : (p.nxsemWait T w).lists = p.lists := by
  rw [← lists_addCount p (-1) (semOf T w.throttled)]
  unfold nxsemWait
  dsimp only
  split_ifs <;> rfl

@[simp] theorem lists_nxsemPost (sem : Sem) : (p.nxsemPost T sem).lists = p.lists := by
  rw [← lists_addCount p 1 sem]
  unfold nxsemPost
  dsimp only
  split_ifs
  · split <;> rfl
  · rfl

theorem lists_tryalloc (throttled : Bool) : (p.tryalloc T throttled).2.lists.Perm p.lists := by
  unfold tryalloc
  split_ifs
  · cases hfree : p.free with
    | nil => exact List.Perm.refl _
    | cons b rest =>
      simp only [lists, take, hfree, cons_append]
      rw [← append_assoc, ← append_assoc]
      exact perm_middle
  · exact List.Perm.refl _

theorem lists_tryOrWait (w : Waiter) : (p.tryOrWait T w).lists.Perm p.lists := by
  have htry := lists_tryalloc (T := T) p w.throttled
  unfold tryOrWait
  split
  · next heq =>
    rw [heq] at htry
    exact htry
  · next heq =>
    rw [heq] at htry
    rw [lists_nxsemWait]
    exact htry

theorem lists_onWake (w : Waiter) : (p.onWake T w).lists.Perm p.lists := by
  unfold onWake allocCommitted
  cases hcom : p.committed with
  | nil =>
    show (p.nxsemPost T _).lists.Perm p.lists
    rw [lists_nxsemPost]
  | cons b rest =>
    simp only [lists, hcom, cons_append]
    exact List.Perm.append_left _ perm_middle

end

theorem lists_put (commit : Bool) (hb : b ∈ p.used) : (p.put commit b).lists.Perm p.lists := by
  have hused : p.used.Perm (b :: p.used.erase b) := perm_cons_erase hb
  unfold put
  split_ifs
  · refine List.Perm.append_left _ ?_
    exact perm_middle.symm.trans (List.Perm.append_left _ hused.symm)
  · simp only [lists, cons_append]
    rw [← append_assoc, ← append_assoc]
    exact perm_middle.symm.trans (List.Perm.append_left _ hused.symm)

theorem lists_release (commit : Bool) (hb : b ∈ p.used) :
    (p.release T commit b).lists.Perm p.lists := by
  show ((p.put commit b).nxsemPost T .iob).lists.Perm _
  rw [lists_nxsemPost]
  exact lists_put commit hb

/-- No step loses or copies a buffer. -/
theorem lists_apply (hen : p.Enabled T op)
    (hfree : ∀ b, op = .free b → (freeRoutine p b).lists.Perm p.lists) :
    (p.apply T freeRoutine op).lists.Perm p.lists := by
  cases op with
  | tryalloc throttled => exact lists_tryalloc p throttled
  | alloc w => exact lists_tryOrWait p w
  | resume w => exact lists_onWake { p with woken := p.woken.erase w } w
  | again w => exact lists_tryOrWait { p with reposted := p.reposted.erase w } w
  | signal w =>
    show (p.addCount 1 (semOf T w.throttled)).lists.Perm _
    rw [lists_addCount]
  | cancel w =>
    show (p.addCount 1 (semOf T w.throttled)).lists.Perm _
    rw [lists_addCount]
  | retry w =>
    show (nxsemWait T { p with interrupted := p.interrupted.erase w } w).lists.Perm _
    rw [lists_nxsemWait]
    exact List.Perm.refl _
  | free b => exact hfree b rfl
  | postThrottle =>
    show (nxsemPost T { p with posting := p.posting - 1 } .throttle).lists.Perm _
    rw [lists_nxsemPost]
    exact List.Perm.refl _
  | reorder waiting => exact List.Perm.refl _

end Pool

/-! ## The accounts -/

variable {w : Waiter} {sem : Sem}

namespace Pool

variable {T : Nat} {p : Pool}

/-- What a semaphore has to count: the free buffers, and for the throttle semaphore the served ones
too. -/
def supply (T : Nat) (p : Pool) : Sem → Int
  | .iob => p.free.length
  | .throttle => p.free.length - T + p.served - p.posting

/-- The accounts of a pool: a semaphore counts its supply less the tasks that wait on it, a task
waits for a buffer only while none is free, and each woken task has a committed buffer. -/
structure Ok (T : Nat) (p : Pool) : Prop where
  balance : ∀ sem, (sem = .throttle → 0 < T) →
    p.semcount sem + (p.waitersOn T sem).length = p.supply T sem
  idle : 0 < (p.waitersOn T .iob).length → p.free = []
  committed : p.committed.length = p.woken.length
  reposted : p.reposted = []

theorem ok_start (N : Nat) : (start N T).Ok T where
  balance := by
    intro sem _
    cases sem <;> simp [start, waitersOn, semcount, supply]
  idle := by simp [start, waitersOn]
  committed := rfl
  reposted := rfl

section

variable (p : Pool) (d : Int)

@[simp] theorem semcount_addCount (sem sem' : Sem) :
    (p.addCount d sem).semcount sem' = p.semcount sem' + if sem = sem' then d else 0 := by
  cases sem <;> cases sem' <;> simp [addCount, semcount]

@[simp] theorem supply_addCount (sem sem' : Sem) :
    (p.addCount d sem).supply T sem' = p.supply T sem' := by
  cases sem <;> cases sem' <;> rfl

section

variable (sem : Sem)

@[simp] theorem free_addCount : (p.addCount d sem).free = p.free := by
  cases sem <;> rfl

@[simp] theorem waiting_addCount : (p.addCount d sem).waiting = p.waiting := by
  cases sem <;> rfl

@[simp] theorem woken_addCount : (p.addCount d sem).woken = p.woken := by
  cases sem <;> rfl

@[simp] theorem committed_addCount : (p.addCount d sem).committed = p.committed := by
  cases sem <;> rfl

@[simp] theorem reposted_addCount : (p.addCount d sem).reposted = p.reposted := by
  cases sem <;> rfl

end

end

/-- The waiting tasks of a semaphore when a task joins or leaves. -/
theorem length_waiters_append (l : List Waiter) (w : Waiter) (sem : Sem) :
    ((l ++ [w]).filter fun v => semOf T v.throttled = sem).length
      = (l.filter fun v => semOf T v.throttled = sem).length
        + if semOf T w.throttled = sem then 1 else 0 := by
  rw [filter_append, length_append]
  by_cases h : semOf T w.throttled = sem
  · simp [h]
  · simp [h]

theorem length_waiters_erase {l : List Waiter} (hw : w ∈ l) (sem : Sem) :
    ((l.erase w).filter fun v => semOf T v.throttled = sem).length
        + (if semOf T w.throttled = sem then 1 else 0)
      = (l.filter fun v => semOf T v.throttled = sem).length := by
  rw [((perm_cons_erase hw).filter fun v => semOf T v.throttled = sem).length_eq]
  by_cases h : semOf T w.throttled = sem
  · simp [h]
  · simp [h]

section

variable (h : p.Ok T)
include h

theorem Ok.count_eq : p.count + (p.waitersOn T .iob).length = p.free.length :=
  h.balance .iob nofun

theorem Ok.count_neg_iff : p.count < 0 ↔ 0 < (p.waitersOn T .iob).length := by
  have hcount := h.count_eq
  constructor
  · intro hneg
    omega
  · intro hpos
    rw [h.idle hpos, length_nil] at hcount
    omega

theorem Ok.tryalloc (throttled : Bool) : (p.tryalloc T throttled).2.Ok T := by
  unfold Pool.tryalloc
  split_ifs
  · cases hfree : p.free with
    | nil => exact h
    | cons b rest =>
      refine ⟨fun sem hT => ?_, fun hw => ?_, h.committed, h.reposted⟩
      · have hbal := h.balance sem hT
        cases sem with
        | iob =>
          simp only [semcount, supply, take, hfree, length_cons] at hbal ⊢
          show p.count - 1 + ((p.waitersOn T .iob).length : Int) = _
          omega
        | throttle =>
          simp only [semcount, supply, take, hfree, length_cons, if_pos (hT rfl)] at hbal ⊢
          show p.throttle - 1 + ((p.waitersOn T .throttle).length : Int) = _
          omega
      · -- nobody waits while a buffer is free
        rw [h.idle hw] at hfree
        exact nomatch hfree
  · exact h

/-- A task blocks: nothing is free if it waits for a buffer. -/
theorem Ok.nxsemWait (hle : p.semcount (semOf T w.throttled) ≤ 0) : (p.nxsemWait T w).Ok T := by
  unfold Pool.nxsemWait
  rw [if_neg (by omega)]
  refine ⟨fun sem hT => ?_, fun hw => ?_, by simp [h.committed], by simp [h.reposted]⟩
  · have hbal := h.balance sem hT
    show (p.addCount (-1) _).semcount sem + (((_ ++ [w]).filter _).length : Int)
      = (p.addCount (-1) _).supply T sem
    rw [semcount_addCount, supply_addCount, length_waiters_append, waiting_addCount, ← hbal,
      waitersOn]
    split_ifs <;> push_cast <;> ring
  · have hcount := h.count_eq
    rw [free_addCount]
    by_contra hne
    have hpos := length_pos_of_ne_nil hne
    have hnone : (p.waitersOn T .iob).length = 0 := by
      by_contra h0
      exact hne (h.idle (pos_of_ne_zero h0))
    -- the only task that waits for a buffer is the new one, so the count was not positive
    change 0 < ((_ ++ [w]).filter _).length at hw
    rw [length_waiters_append, waiting_addCount] at hw
    unfold waitersOn at hnone hcount
    split_ifs at hw with hsem
    · rw [hsem] at hle
      change p.count ≤ 0 at hle
      omega
    · omega

theorem Ok.unblock (hw : w ∈ p.waiting) : (p.unblock T w).Ok T := by
  unfold Pool.unblock
  refine ⟨fun sem hT => ?_, fun hpos => ?_, by simp [h.committed], by simp [h.reposted]⟩
  · have hbal := h.balance sem hT
    have hlen := length_waiters_erase (T := T) hw sem
    show (p.addCount 1 _).semcount sem + (((List.erase _ w).filter _).length : Int)
      = (p.addCount 1 _).supply T sem
    rw [semcount_addCount, supply_addCount, waiting_addCount, ← hbal, waitersOn, ← hlen]
    split_ifs <;> push_cast <;> ring
  · have hlen := length_waiters_erase (T := T) hw .iob
    change 0 < ((List.erase _ w).filter _).length at hpos
    rw [waiting_addCount] at hpos
    rw [free_addCount]
    refine h.idle ?_
    unfold waitersOn
    omega

theorem Ok.resume (hw : w ∈ p.woken) :
    (({ p with woken := p.woken.erase w } : Pool).onWake T w).Ok T := by
  have hlen := h.committed
  have herase := length_erase_of_mem hw
  have hpos := length_pos_of_mem hw
  cases hcom : p.committed with
  | nil =>
    rw [hcom, length_nil] at hlen
    omega
  | cons b rest =>
    rw [hcom, length_cons] at hlen
    refine ⟨h.balance, h.idle, ?_, h.reposted⟩
    show rest.length = (p.woken.erase w).length
    omega

end

theorem waitersOn_addCount (p : Pool) (d : Int) (sem sem' : Sem) :
    (p.addCount d sem).waitersOn T sem' = p.waitersOn T sem' := by
  rw [waitersOn, waiting_addCount, waitersOn]

theorem nxsemPost_wakes {rest : List Waiter} (hneg : p.semcount sem < 0)
    (hhead : p.waitersOn T sem = w :: rest) : p.nxsemPost T sem = (p.addCount 1 sem).wake w := by
  unfold nxsemPost
  dsimp only
  rw [semcount_addCount, if_pos rfl, if_pos (by omega), waitersOn_addCount, hhead]

theorem nxsemPost_quiet (h : 0 ≤ p.semcount sem ∨ p.waitersOn T sem = []) :
    p.nxsemPost T sem = p.addCount 1 sem := by
  unfold nxsemPost
  dsimp only
  rw [semcount_addCount, if_pos rfl, waitersOn_addCount]
  rcases h with hpos | hnone
  · rw [if_neg (by omega)]
  · rw [hnone]
    split_ifs <;> rfl

section

variable (h : p.Ok T)
include h

/-- A buffer is freed to the first waiting task. -/
theorem Ok.release_committed (hneg : p.count < 0) (b : Nat) : (p.release T true b).Ok T := by
  have hwait := h.count_neg_iff.mp hneg
  obtain ⟨w, rest, hhead⟩ : ∃ w rest, p.waitersOn T .iob = w :: rest :=
    exists_cons_of_length_pos hwait
  have hmem : w ∈ p.waitersOn T .iob := hhead ▸ mem_cons_self
  obtain ⟨hw, hsem⟩ := mem_filter.mp hmem
  have hsem : semOf T w.throttled = .iob := of_decide_eq_true hsem
  have hpost : (p.put true b).nxsemPost T .iob = ((p.put true b).addCount 1 .iob).wake w :=
    nxsemPost_wakes hneg hhead
  unfold Pool.release
  rw [hpost]
  refine ⟨fun sem hT => ?_, fun _ => h.idle hwait, ?_, h.reposted⟩
  · have hbal := h.balance sem hT
    have hlen := hsem ▸ length_waiters_erase (T := T) hw sem
    cases sem with
    | iob =>
      rw [if_pos rfl] at hlen
      show p.count + 1 + (((p.waiting.erase w).filter _).length : Int) = p.free.length
      change p.count + ((p.waiting.filter _).length : Int) = p.free.length at hbal
      omega
    | throttle =>
      rw [if_neg (by decide)] at hlen
      show p.throttle + (((p.waiting.erase w).filter _).length : Int)
        = p.free.length - T + ((p.served + 1 : Nat) : Int)
          - ((if 0 < T then p.posting + 1 else p.posting : Nat) : Int)
      change p.throttle + ((p.waiting.filter _).length : Int)
        = p.free.length - T + p.served - p.posting at hbal
      rw [if_pos (hT rfl)]
      omega
  · show (b :: p.committed).length = (p.woken ++ [w]).length
    rw [length_cons, length_append, h.committed, length_singleton]

/-- A buffer is freed to the free list: nobody waits for it. -/
theorem Ok.release_free (hneg : ¬ p.count < 0) (b : Nat) : (p.release T false b).Ok T := by
  have hnone : ¬ 0 < (p.waitersOn T .iob).length := fun hw => hneg (h.count_neg_iff.mpr hw)
  have hpost : (p.put false b).nxsemPost T .iob = (p.put false b).addCount 1 .iob :=
    nxsemPost_quiet (Or.inl (by
      show 0 ≤ p.count
      omega))
  unfold Pool.release
  rw [hpost]
  refine ⟨fun sem hT => ?_, fun hw => absurd hw hnone, h.committed, h.reposted⟩
  have hbal := h.balance sem hT
  cases sem with
  | iob =>
    show p.count + 1 + ((p.waitersOn T .iob).length : Int) = ((p.free.length + 1 : Nat) : Int)
    change p.count + ((p.waitersOn T .iob).length : Int) = p.free.length at hbal
    omega
  | throttle =>
    show p.throttle + ((p.waitersOn T .throttle).length : Int)
      = ((p.free.length + 1 : Nat) : Int) - T + p.served
        - ((if 0 < T then p.posting + 1 else p.posting : Nat) : Int)
    change p.throttle + ((p.waitersOn T .throttle).length : Int)
      = p.free.length - T + p.served - p.posting at hbal
    rw [if_pos (hT rfl)]
    omega

theorem Ok.postThrottle (hpos : 0 < p.posting) (hnone : p.waitersOn T .throttle = []) :
    (({ p with posting := p.posting - 1 } : Pool).nxsemPost T .throttle).Ok T := by
  have hpost : ({ p with posting := p.posting - 1 } : Pool).nxsemPost T .throttle
      = ({ p with posting := p.posting - 1 } : Pool).addCount 1 .throttle :=
    nxsemPost_quiet (Or.inr hnone)
  rw [hpost]
  refine ⟨fun sem hT => ?_, h.idle, h.committed, h.reposted⟩
  have hbal := h.balance sem hT
  cases sem with
  | iob => exact hbal
  | throttle =>
    show p.throttle + 1 + ((p.waitersOn T .throttle).length : Int)
      = p.free.length - T + p.served - ((p.posting - 1 : Nat) : Int)
    change p.throttle + ((p.waitersOn T .throttle).length : Int)
      = p.free.length - T + p.served - p.posting at hbal
    omega

theorem Ok.reorder {waiting : List Waiter} (hperm : waiting.Perm p.waiting) :
    ({ p with waiting := waiting } : Pool).Ok T := by
  have hlen : ∀ sem, (waitersOn T { p with waiting := waiting } sem).length
      = (p.waitersOn T sem).length := fun sem => (hperm.filter _).length_eq
  refine ⟨fun sem hT => ?_, fun hw => h.idle (hlen .iob ▸ hw), h.committed, h.reposted⟩
  rw [hlen sem]
  exact h.balance sem hT

/-- The first part of a call, when a positive count means a free buffer. -/
theorem Ok.tryOrWait (hfree : 0 < p.semcount (semOf T w.throttled) → p.free ≠ []) :
    (p.tryOrWait T w).Ok T := by
  have htry := h.tryalloc w.throttled
  unfold Pool.tryOrWait
  split
  · next heq =>
    rw [heq] at htry
    exact htry
  · next q heq =>
    have hq : q = p ∧ p.semcount (semOf T w.throttled) ≤ 0 := by
      unfold Pool.tryalloc at heq
      split_ifs at heq with hcond
      · cases hlist : p.free with
        | nil =>
          rw [hlist] at heq
          refine ⟨(congrArg Prod.snd heq).symm, ?_⟩
          by_contra hpos
          exact hfree (by omega) hlist
        | cons b rest =>
          rw [hlist] at heq
          exact nomatch congrArg Prod.fst heq
      · exact ⟨(congrArg Prod.snd heq).symm, by omega⟩
    obtain ⟨rfl, hle⟩ := hq
    exact h.nxsemWait hle

/-- A free routine keeps the accounts if it chooses by the semaphore of the pool. -/
theorem Ok.release {commit : Bool} (hcommit : commit = true ↔ p.count < 0) (b : Nat) :
    (p.release T commit b).Ok T := by
  cases commit with
  | true => exact h.release_committed (hcommit.mp rfl) b
  | false => exact h.release_free (fun hneg => nomatch hcommit.mpr hneg) b

/-- Every orderly step keeps the accounts. -/
theorem Ok.apply (hen : p.Enabled T op) (hord : p.Orderly T op)
    (hfree : ∀ b, op = .free b → (freeRoutine p b).Ok T) : (p.apply T freeRoutine op).Ok T := by
  cases op with
  | tryalloc throttled => exact h.tryalloc throttled
  | alloc w =>
    refine h.tryOrWait fun hpos => ?_
    cases hsem : semOf T w.throttled with
    | iob =>
      rw [hsem] at hpos
      change 0 < p.count at hpos
      have hcount := h.count_eq
      exact ne_nil_of_length_pos (by omega)
    | throttle =>
      rw [hsem] at hpos
      exact hord hsem hpos
  | resume w => exact h.resume hen
  | again w =>
    have hnil := h.reposted
    change w ∈ p.reposted at hen
    rw [hnil] at hen
    exact nomatch hen
  | signal w =>
    have hq := h.unblock hen
    exact { hq with }
  | cancel w => exact h.unblock hen
  | retry w =>
    have hq : ({ p with interrupted := p.interrupted.erase w } : Pool).Ok T :=
      { h with }
    exact hq.nxsemWait hord
  | free b => exact hfree b rfl
  | postThrottle => exact h.postThrottle hen.2 hord
  | reorder waiting => exact h.reorder hen

end

end Pool

/-! ## Runs of the buffer pool -/

namespace Pool

variable {T : Nat} {p : Pool}

theorem Ok.finds (h : p.Ok T) (hw : w ∈ p.woken) : ∃ b, p.allocCommitted.1 = some b := by
  have hpos := length_pos_of_mem hw
  rw [← h.committed] at hpos
  obtain ⟨b, rest, hcom⟩ := exists_cons_of_length_pos hpos
  exact ⟨b, by rw [allocCommitted, hcom]⟩

theorem Ok.balance_of_no_waiter (h : p.Ok T) (hnone : p.waiting = []) (sem : Sem)
    (hT : sem = .throttle → 0 < T) : p.semcount sem = p.supply T sem := by
  have hbal := h.balance sem hT
  rw [waitersOn, hnone] at hbal
  simpa using hbal

theorem Ok.count_of_no_waiter (h : p.Ok T) (hnone : p.waiting = []) : p.count = p.free.length :=
  h.balance_of_no_waiter hnone .iob nofun

end Pool

def Pool.iobApply (T : Nat) (p : Pool) (op : Op) : Option Pool :=
  some (p.apply T (iobFree T) op)

def Pool.Run (nbuffers T : Nat) : Pool → Prop :=
  Reach (fun p => p = .start nbuffers T) (LabelledStep (Pool.Enabled T) (Pool.iobApply T))

def Pool.OrderlyRun (nbuffers T : Nat) : Pool → Prop :=
  Reach (fun p => p = .start nbuffers T)
    (LabelledStep (fun p op => p.Enabled T op ∧ p.Orderly T op) (Pool.iobApply T))

variable {p : Pool}

theorem Pool.Run.lists {N T : Nat} (h : Pool.Run N T p) : p.lists.Perm (range N) := by
  refine Reach.labelled (P := fun p => p.lists.Perm (range N)) ?_ ?_ h
  · rintro p rfl
    simp [Pool.lists, Pool.start]
  · intro p op hp hen
    refine ⟨_, rfl, (Pool.lists_apply hen ?_).trans hp⟩
    rintro b rfl
    exact Pool.lists_release _ hen

theorem Pool.OrderlyRun.ok {N T : Nat} (h : Pool.OrderlyRun N T p) : p.Ok T := by
  refine Reach.labelled ?_ ?_ h
  · rintro p rfl
    exact Pool.ok_start N
  · intro p op hp hop
    exact ⟨_, rfl, hp.apply hop.1 hop.2 fun b _ => hp.release decide_eq_true_iff b⟩

/-- On every run each buffer is in exactly one of the lists. On the orderly runs each woken task has
a buffer in the committed list, and while no task waits the semaphores count the free buffers, the
throttle semaphore up to the buffers that were handed to waiting tasks. -/
theorem iob_pool_conserved (N T : Nat) :
    (∀ p, Pool.Run N T p → p.lists.Nodup ∧ ∀ b, b ∈ p.lists ↔ b < N) ∧
    ∀ p, Pool.OrderlyRun N T p →
      (p.woken.length = p.committed.length ∧
        ∀ w ∈ p.woken, ∃ b, p.allocCommitted.1 = some b) ∧
      (p.waiting = [] → p.count = p.free.length ∧
        (0 < T → p.posting = 0 → p.throttle = p.count - T + p.served)) := by
  refine ⟨fun p h => ?_, fun p h => ?_⟩
  · have hperm := h.lists
    refine ⟨hperm.nodup_iff.mpr nodup_range, fun b => ?_⟩
    rw [hperm.mem_iff, mem_range]
  · have hok := h.ok
    refine ⟨⟨hok.committed.symm, fun w hw => hok.finds hw⟩, fun hnone => ?_⟩
    have hcount := hok.count_of_no_waiter hnone
    refine ⟨hcount, fun hT hpost => ?_⟩
    have hthr : p.throttle = p.free.length - T + p.served - p.posting :=
      hok.balance_of_no_waiter hnone .throttle fun _ => hT
    rw [hthr, hcount, hpost]
    ring

/-- Two tasks take the buffers of a pool, a third one waits and gets one of them. -/
theorem iob_pool_conserved_sample :
    ∃ p, Pool.OrderlyRun 2 1 p ∧ p.used = [0] ∧ p.woken = [⟨3, false⟩] ∧
      ∀ w ∈ p.woken, ∃ b, p.allocCommitted.1 = some b := by
  have hrun : Pool.OrderlyRun 2 1 (after (Pool.iobApply 1) (.start 2 1)
      [.alloc ⟨1, false⟩, .alloc ⟨2, false⟩, .alloc ⟨3, false⟩, .free 1]) :=
    Reach.after _ (.start rfl) (by decide)
  exact ⟨_, hrun, by decide, by decide, ((iob_pool_conserved 2 1).2 _ hrun).1.2⟩

/-- A throttled task is woken when another one frees its buffer, and finds no committed buffer. And
after a buffer was handed to a waiting task, the throttle semaphore counts one buffer too many. -/
theorem throttle_breaks_pool :
    (∃ p, Pool.Run 2 1 p ∧ p.woken = [⟨2, true⟩] ∧ p.allocCommitted.1 = none) ∧
    ∃ p, Pool.Run 2 1 p ∧ p.waiting = [] ∧ p.woken = [] ∧ p.posting = 0 ∧
      p.count = p.free.length ∧ p.throttle ≠ p.count - 1 := by
  have hwoken : Pool.Run 2 1 (after (Pool.iobApply 1) (.start 2 1)
      [.alloc ⟨1, true⟩, .alloc ⟨2, true⟩, .free 1, .postThrottle]) :=
    Reach.after _ (.start rfl) (by decide)
  have hserved : Pool.Run 2 1 (after (Pool.iobApply 1) (.start 2 1)
      [.alloc ⟨1, false⟩, .alloc ⟨2, false⟩, .alloc ⟨3, false⟩, .free 1, .postThrottle,
        .resume ⟨3, false⟩]) :=
    Reach.after _ (.start rfl) (by decide)
  exact ⟨⟨_, hwoken, by decide⟩, _, hserved, by decide⟩

end BaseNx.Iob
