import BaseNx.Iob.Pool

/-!
# The pool of queue containers

`iob_alloc_qentry`, `iob_tryalloc_qentry` and `iob_free_qentry` beside the buffer pool.
`iob_free_qentry` decides by `g_iob_sem`, the semaphore of the buffers, whether a container goes to
the free list or to the committed list. Only when the tasks that wait for buffers and for containers
are there or absent together is this the right choice (`qentry_pool_conserved`); otherwise a woken
task finds no container, or a container is committed to nobody (`qentry_choice_is_wrong`).
-/

namespace BaseNx.Iob

open Lib

structure Pools where
  buffers : Pool
  containers : Pool
  deriving DecidableEq

inductive PoolsOp
  | buffer (op : Op)
  | container (op : Op)
  deriving DecidableEq

namespace Pools

variable (T : Nat)

variable (nbuffers nchains : Nat)

/-- `iob_initialize` -/
def start : Pools := ⟨.start nbuffers T, .start nchains 0⟩

def apply (s : Pools) : PoolsOp → Option Pools
  | .buffer op => some { s with buffers := s.buffers.apply T (iobFree T) op }
  | .container op =>
    some { s with containers := s.containers.apply 0 (iobFreeQentry s.buffers.count) op }

def Enabled (s : Pools) : PoolsOp → Prop
  | .buffer op => s.buffers.Enabled T op
  | .container op => s.containers.Enabled 0 op

/-- The conditions on the steps of the containers: one is freed only while tasks wait for both kinds
or for none, and an interrupted task waits again only while the count is not positive. -/
def Orderly (s : Pools) : PoolsOp → Prop
  | .container (.free _) => s.buffers.count < 0 ↔ s.containers.count < 0
  | .container (.retry _) => s.containers.count ≤ 0
  | _ => True

instance (s : Pools) (op : PoolsOp) : Decidable (s.Enabled T op) := by
  cases op <;> unfold Enabled <;> infer_instance

instance (s : Pools) (op : PoolsOp) : Decidable (s.Orderly op) := by
  unfold Orderly
  split <;> infer_instance

def Run : Pools → Prop :=
  Reach (fun s => s = .start T nbuffers nchains) (LabelledStep (Enabled T) (apply T))

def OrderlyRun : Pools → Prop :=
  Reach (fun s => s = .start T nbuffers nchains)
    (LabelledStep (fun s op => s.Enabled T op ∧ s.Orderly op) (apply T))

variable {T} {s : Pools}

theorem Run.lists {N M : Nat} (h : Run T N M s) : s.containers.lists.Perm (List.range M) := by
  refine Reach.labelled (P := fun s => s.containers.lists.Perm (List.range M)) ?_ ?_ h
  · rintro s rfl
    simp [start, Pool.lists, Pool.start]
  · intro s op hs hen
    cases op with
    | buffer op => exact ⟨_, rfl, hs⟩
    | container op =>
      refine ⟨_, rfl, (Pool.lists_apply hen ?_).trans hs⟩
      rintro b rfl
      exact Pool.lists_release _ hen

/-- Without the throttle a step of the containers is orderly if an interrupted task blocks again. -/
theorem Orderly.container {op : Op} (h : s.Orderly (.container op))
    (hen : s.containers.Enabled 0 op) : s.containers.Orderly 0 op := by
  cases op with
  | alloc w => exact fun hsem => nomatch hsem
  | retry w => exact h
  | postThrottle => exact absurd hen.1 (lt_irrefl 0)
  | _ => trivial

theorem OrderlyRun.ok {N M : Nat} (h : OrderlyRun T N M s) : s.containers.Ok 0 := by
  refine Reach.labelled (P := fun s => s.containers.Ok 0) ?_ ?_ h
  · rintro s rfl
    exact Pool.ok_start M
  · rintro s op hs ⟨hen, hord⟩
    cases op with
    | buffer op => exact ⟨_, rfl, hs⟩
    | container op =>
      refine ⟨_, rfl, hs.apply hen (hord.container hen) ?_⟩
      rintro b rfl
      exact hs.release (decide_eq_true_iff.trans hord) b

end Pools

/-- On every run each container is in exactly one of the lists. On the orderly runs each woken task
has a container in the committed list, which holds no others, and while no task waits the semaphore
counts the free containers. -/
theorem qentry_pool_conserved (T N M : Nat) :
    (∀ s, Pools.Run T N M s →
      s.containers.lists.Nodup ∧ ∀ b, b ∈ s.containers.lists ↔ b < M) ∧
    ∀ s, Pools.OrderlyRun T N M s →
      (∀ w ∈ s.containers.woken, ∃ b, s.containers.allocCommitted.1 = some b) ∧
      s.containers.committed.length = s.containers.woken.length ∧
      (s.containers.waiting = [] → s.containers.count = s.containers.free.length) := by
  refine ⟨fun s h => ?_, fun s h => ?_⟩
  · have hperm := h.lists
    refine ⟨hperm.nodup_iff.mpr List.nodup_range, fun b => ?_⟩
    rw [hperm.mem_iff, List.mem_range]
  · exact ⟨fun w hw => h.ok.finds hw, h.ok.committed, h.ok.count_of_no_waiter⟩

/-- A container is freed while one task waits for a buffer and another one for a container. -/
theorem qentry_pool_conserved_sample :
    ∃ s, Pools.OrderlyRun 0 1 1 s ∧ s.containers.woken = [⟨4, false⟩] ∧
      ∀ w ∈ s.containers.woken, ∃ b, s.containers.allocCommitted.1 = some b := by
  have hrun : Pools.OrderlyRun 0 1 1 (after (Pools.apply 0) (.start 0 1 1)
      [.buffer (.alloc ⟨1, false⟩), .buffer (.alloc ⟨2, false⟩), .container (.alloc ⟨3, false⟩),
        .container (.alloc ⟨4, false⟩), .container (.free 0)]) :=
    Reach.after _ (.start rfl) (by decide)
  exact ⟨_, hrun, by decide, ((qentry_pool_conserved 0 1 1).2 _ hrun).1⟩

/-- A task waits for a container while buffers are left: the freed container goes to the free list
and the woken task finds none. A task waits for a buffer while containers are left: the freed
container is committed although no task waits for it. -/
theorem qentry_choice_is_wrong :
    (∃ s, Pools.Run 0 1 1 s ∧ s.containers.woken = [⟨2, false⟩] ∧
      s.containers.allocCommitted.1 = none) ∧
    ∃ s, Pools.Run 0 1 1 s ∧ s.containers.waiting = [] ∧ s.containers.woken = [] ∧
      s.containers.committed = [0] ∧ s.containers.count ≠ s.containers.free.length := by
  have hfound : Pools.Run 0 1 1 (after (Pools.apply 0) (.start 0 1 1)
      [.container (.alloc ⟨1, false⟩), .container (.alloc ⟨2, false⟩), .container (.free 0)]) :=
    Reach.after _ (.start rfl) (by decide)
  have hstray : Pools.Run 0 1 1 (after (Pools.apply 0) (.start 0 1 1)
      [.buffer (.alloc ⟨1, false⟩), .buffer (.alloc ⟨2, false⟩), .container (.alloc ⟨3, false⟩),
        .container (.free 0)]) :=
    Reach.after _ (.start rfl) (by decide)
  exact ⟨⟨_, hfound, by decide⟩, _, hstray, by decide⟩

end BaseNx.Iob
