import BaseNx.Semaphore.Inheritance

/-!
# Runs with priority inheritance

The tasks of a run take mutexes with `nxsem_wait`, post the ones they own, and give up waiting when
a signal or a timeout comes. Each theorem is about every state of every run that keeps to the rules
written in its `Allowed`; the last line of each rule is what the source needs on top of the rules of
the mutexes.

Without a nesting list, `nxsem_restoreholderprio` returns to the base priority whenever a wait is
cancelled, whoever still waits (`cancel_drops_boost`). With a nesting list it drops one saved
priority per post, although all waiters of the mutex leave the poster (`post_keeps_boost`).
-/

namespace BaseNx.PrioInherit

open Lib
open Function (update update_of_ne update_self)
open Sched (TaskId)
open Semaphore (SemId)

/-! ## Runs -/

/-- The kernel with the owners of the mutexes. -/
structure Mutexes where
  kernel : Kernel
  owner : Owner

/-- The operations of a run; `cancel` is the end of a wait by a signal or a timeout. -/
inductive MutexOp
  | wait (t : TaskId) (m : SemId)
  | post (t : TaskId) (m : SemId)
  | cancel (w : TaskId)

/-- One operation, with the mutexes that change hands. -/
def Mutexes.apply (nnest : Nat) (s : Mutexes) : MutexOp → Option Mutexes
  | .wait t m =>
    some ⟨(nxsemWait nnest s.kernel t (some m)).2,
      if 0 < (s.kernel.sem m).semcount then update s.owner m (some t) else s.owner⟩
  | .post t m =>
    some ⟨(nxsemPost nnest false s.kernel t (some m)).2,
      update s.owner m (handedTo s.kernel m)⟩
  | .cancel w => some ⟨nxsemWaitIrq nnest s.kernel w, s.owner⟩

/-- All mutexes are free and every task has its base priority. -/
structure Mutexes.Start (s : Mutexes) : Prop where
  live : AllLive s.kernel
  sem : ∀ m, s.kernel.sem m = ⟨1, false, []⟩
  waiting : s.kernel.waiting = []
  waitsem : ∀ t, (s.kernel.tcb t).waitsem = none
  valid : ∀ t, Valid (s.kernel.tcb t).basePriority
  prio : ∀ t, (s.kernel.tcb t).schedPriority = (s.kernel.tcb t).basePriority
  pend : ∀ t, (s.kernel.tcb t).pendReprios = []
  owner : ∀ m, s.owner m = none

/-- The tasks that wait for a mutex of `t`. -/
def clients (k : Kernel) (owner : Owner) (t : TaskId) : List TaskId :=
  k.waiting.filter fun w => decide (blockedBy k owner w = some t)

/-- Each task owns at most one mutex and takes one only while it owns none. When a wait is
cancelled, the owner is not boosted or none of the others is above its base priority. -/
def Mutexes.AllowedPlain (s : Mutexes) : MutexOp → Prop
  | .wait t m =>
    (s.kernel.tcb t).waitsem = none ∧ (∀ n, s.owner n ≠ some t) ∧
      (s.owner m = none → 0 < s.kernel.freeholders)
  | .post t m => s.owner m = some t ∧ (∀ w ∈ handedTo s.kernel m, 0 < s.kernel.freeholders)
  | .cancel w =>
    ∀ m ∈ (s.kernel.tcb w).waitsem, ∀ h ∈ s.owner m,
      s.kernel.prio h = (s.kernel.tcb h).basePriority ∨
        ∀ u ∈ waitersOf s.kernel m, u ≠ w → s.kernel.prio u ≤ (s.kernel.tcb h).basePriority

/-- The entry of the waiter `w` is in the books of `h`, or nothing is booked that could be dropped
in its place. -/
def EntryFound (k : Kernel) (h w : TaskId) : Prop :=
  (k.tcb h).basePriority < k.prio w ∨ k.prio h = (k.tcb h).basePriority ∨
    (k.tcb h).pendReprios ≠ []

instance (k : Kernel) (h w : TaskId) : Decidable (EntryFound k h w) :=
  inferInstanceAs (Decidable ((k.tcb h).basePriority < k.prio w ∨
    k.prio h = (k.tcb h).basePriority ∨ (k.tcb h).pendReprios ≠ []))

/-- A task may own several mutexes, does not block while it owns one, and has at most `nnest`
waiters. When a mutex is handed over, the other waiters for it are not above the base priority of
the poster; when an entry is dropped, it is there. -/
def Mutexes.AllowedNested (nnest : Nat) (s : Mutexes) : MutexOp → Prop
  | .wait t m =>
    (s.kernel.tcb t).waitsem = none ∧ (s.owner m ≠ none → ∀ n, s.owner n ≠ some t) ∧
      (s.owner m = none → 0 < s.kernel.freeholders) ∧
      ∀ h ∈ s.owner m, (clients s.kernel s.owner h).length < nnest
  | .post t m =>
    s.owner m = some t ∧
      ∀ w ∈ handedTo s.kernel m, 0 < s.kernel.freeholders ∧ EntryFound s.kernel t w ∧
        ∀ u ∈ waitersOf s.kernel m, u ≠ w → s.kernel.prio u ≤ (s.kernel.tcb t).basePriority
  | .cancel w =>
    ∀ m ∈ (s.kernel.tcb w).waitsem, ∀ h ∈ s.owner m, EntryFound s.kernel h w

variable {owner : Owner} {k : Kernel}

section Steps

variable {nnest : Nat} {s : Mutexes} {t w h : TaskId} {m : SemId}

theorem Mutexes.Start.ok (hs : s.Start) : MutexOk nnest s.kernel s.owner := by
  have hcharges : ∀ t, charges s.kernel s.owner t = 0 := fun t =>
    charges_eq_zero fun m => by rw [hs.owner m]; exact nofun
  refine ⟨hs.live, fun m => by rw [hs.sem m, hs.owner m]; rfl,
    fun w m hw => absurd hw (by rw [hs.waitsem w]; exact nofun),
    by rw [hs.waiting]; exact List.nodup_nil,
    fun t => ?_, by rw [hs.waiting]; exact List.Pairwise.nil, fun m t _ => hs.waitsem t, hs.valid,
    fun t => ?_⟩
  · rw [hs.waiting, hs.waitsem t]
    simp
  · rw [hcharges t]
    exact booked_of_le (hs.prio t) (hs.pend t) fun p hp => absurd hp (Multiset.notMem_zero p)

theorem card_charges (k : Kernel) (owner : Owner) (t : TaskId) :
    (charges k owner t).card = (clients k owner t).length := by
  rw [charges, Multiset.card_map, clients, ← Multiset.coe_card, ← Multiset.filter_coe]

theorem wait_ok (hk : MutexOk nnest s.kernel s.owner) (ht : (s.kernel.tcb t).waitsem = none)
    (hidle : s.owner m ≠ none → ∀ n, s.owner n ≠ some t)
    (hfree : s.owner m = none → 0 < s.kernel.freeholders)
    (hroom : ∀ h ∈ s.owner m, 0 < nnest → (clients s.kernel s.owner h).length < nnest) :
    MutexOk nnest (nxsemWait nnest s.kernel t (some m)).2
      (if 0 < (s.kernel.sem m).semcount then update s.owner m (some t) else s.owner) := by
  cases hm : s.owner m with
  | none =>
    have hpos : 0 < (s.kernel.sem m).semcount := by
      rw [hk.sem_of_free hm]
      exact one_pos
    rw [if_pos hpos, wait_free hk hm ht (hfree hm)]
    exact hk.reown (hk.nobody hm) (fun u hu => Option.some.inj hu ▸ ht) _
  | some h =>
    have hown := hidle (hm.trans_ne nofun)
    have hth : t ≠ h := fun heq => hown m (heq ▸ hm)
    rw [if_neg (not_lt.2 (hk.count_le hm))]
    refine hk.block (wait_taken hk hm hth hown) hm ht hown fun hn => ?_
    rw [card_charges]
    exact hroom h hm hn

/-- The tasks that wait for the mutex of a task with one mutex only. -/
theorem elsewhere_eq_zero (hone : ∀ n, owner n = some t → n = m) : elsewhere k owner t m = 0 := by
  rw [elsewhere, Multiset.filter_eq_nil.2, Multiset.map_zero]
  rintro u - ⟨hu, hne⟩
  obtain ⟨n, hn, hnt⟩ := Option.bind_eq_some_iff.1 hu
  exact hne (by rw [hn, hone n hnt])

theorem post_ok (hk : MutexOk nnest s.kernel s.owner) (hm : s.owner m = some t)
    (hhand : ∀ w ∈ handedTo s.kernel m, 0 < s.kernel.freeholders ∧
      Booked nnest ((s.kernel.tcb t).restore nnest (s.kernel.prio w))
        (elsewhere s.kernel s.owner t m)) :
    MutexOk nnest (nxsemPost nnest false s.kernel t (some m)).2
      (update s.owner m (handedTo s.kernel m)) := by
  cases hw : handedTo s.kernel m with
  | none =>
    rw [post_none hk hm hw]
    exact hk.release hm hw _
  | some w =>
    obtain ⟨hfree, hbooked⟩ := hhand w hw
    exact hk.hand (post_hand hk hm hw (hk.handedTo_some hw).1 hfree) hw hm hbooked

theorem cancel_ok (hk : MutexOk nnest s.kernel s.owner)
    (hbooked : ∀ m, (s.kernel.tcb w).waitsem = some m → ∀ h, s.owner m = some h →
      ∀ C, charges s.kernel s.owner h = s.kernel.prio w ::ₘ C →
        Booked nnest ((s.kernel.tcb h).restore nnest (s.kernel.prio w)) C) :
    MutexOk nnest (nxsemWaitIrq nnest s.kernel w) s.owner := by
  cases hw : (s.kernel.tcb w).waitsem with
  | none =>
    have hsame : nxsemWaitIrq nnest s.kernel w = s.kernel := by simp only [nxsemWaitIrq, hw]
    rw [hsame]
    exact hk
  | some m =>
    cases hm : s.owner m with
    | none => exact absurd hw (hk.nobody hm w)
    | some h => exact hk.cancel (cancel_waiting hk hw hm) hw hm (hbooked m hw h hm)

theorem mem_otherWaiters (hnodup : k.waiting.Nodup) {p : Nat} (hp : p ∈ otherWaiters k m w) :
    ∃ u ∈ waitersOf k m, u ≠ w ∧ k.prio u = p := by
  obtain ⟨u, hu, rfl⟩ := Multiset.mem_map.1 hp
  obtain ⟨humem, hum⟩ := Multiset.mem_filter.1 hu
  obtain ⟨huw, humem⟩ := hnodup.mem_erase_iff.1 humem
  exact ⟨u, List.mem_filter.2 ⟨humem, by simpa using hum⟩, huw, rfl⟩

end Steps

/-! ## Without a nesting list -/

/-- Each task owns at most one mutex. -/
def OneEach (owner : Owner) : Prop := ∀ n n' t, owner n = some t → owner n' = some t → n = n'

theorem OneEach.update (h : OneEach owner) {m : SemId} {o : Option TaskId}
    (ho : ∀ t, o = some t → ∀ n, owner n ≠ some t) : OneEach (update owner m o) := by
  intro n n' t hn hn'
  by_cases hnm : n = m
  · by_cases hnm' : n' = m
    · rw [hnm, hnm']
    · rw [hnm, update_self] at hn
      rw [update_of_ne hnm'] at hn'
      exact absurd hn' (ho t hn n')
  · rw [update_of_ne hnm] at hn
    by_cases hnm' : n' = m
    · rw [hnm', update_self] at hn'
      exact absurd hn (ho t hn' n)
    · rw [update_of_ne hnm'] at hn'
      exact h n n' t hn hn'

/-- What holds in every state of the runs without a nesting list. -/
structure PlainOk (s : Mutexes) : Prop where
  ok : MutexOk 0 s.kernel s.owner
  one : OneEach s.owner

variable {s : Mutexes} {op : MutexOp}

theorem PlainOk.step (hs : PlainOk s) (hop : s.AllowedPlain op) :
    ∃ s', s.apply 0 op = some s' ∧ PlainOk s' := by
  obtain ⟨hk, hone⟩ := hs
  cases op with
  | wait t m =>
    obtain ⟨ht, hown, hfree⟩ := hop
    refine ⟨_, rfl, wait_ok hk ht (fun _ => hown) hfree fun _ _ hn => absurd hn (lt_irrefl 0),
      ?_⟩
    simp only
    split
    · exact hone.update fun u hu => Option.some.inj hu ▸ hown
    · exact hone
  | post t m =>
    obtain ⟨hm, hfree⟩ := hop
    refine ⟨_, rfl, post_ok hk hm fun w hw => ⟨hfree w hw, ?_⟩, hone.update fun w hw => ?_⟩
    · rw [elsewhere_eq_zero fun n hn => hone n m t hn hm]
      exact (hk.booked t).restore_zero (fun q hq => absurd hq (Multiset.notMem_zero q))
        (.inr fun q hq => absurd hq (Multiset.notMem_zero q))
    · have hww := (hk.handedTo_some hw).1
      exact hk.waiting_owns_nothing ((hk.mem w).2 (by rw [hww]; rfl))
  | cancel w =>
    refine ⟨_, rfl, cancel_ok hk fun m hw h hm C hC => ?_, hone⟩
    have hsplit := hk.charges_split hw hm
    rw [elsewhere_eq_zero fun n hn => hone n m h hn hm, Multiset.add_zero, hC,
      Multiset.cons_inj_right] at hsplit
    refine (hk.booked h).restore_zero (fun q hq => hC ▸ Multiset.mem_cons_of_mem hq) ?_
    refine (hop m hw h hm).imp_right fun hle q hq => ?_
    obtain ⟨u, hu, huw, rfl⟩ := mem_otherWaiters hk.nodup (hsplit ▸ hq)
    exact hle u hu huw

/-- The priorities of the tasks that wait for a mutex of `t`. -/
def waiterPriorities (s : Mutexes) (t : TaskId) : Set Nat :=
  {p | ∃ w m, s.owner m = some t ∧ (s.kernel.tcb w).waitsem = some m ∧ s.kernel.prio w = p}

variable {nnest : Nat}

theorem MutexOk.isGreatest (hk : MutexOk nnest s.kernel s.owner) (t : TaskId) :
    IsGreatest ({(s.kernel.tcb t).basePriority} ∪ waiterPriorities s t)
      (s.kernel.tcb t).schedPriority := by
  have hset : {(s.kernel.tcb t).basePriority} ∪ waiterPriorities s t =
      {p | p = (s.kernel.tcb t).basePriority ∨ p ∈ charges s.kernel s.owner t} := by
    ext p
    refine or_congr Iff.rfl ⟨?_, fun hp => ?_⟩
    · rintro ⟨w, m, hm, hw, rfl⟩
      refine Multiset.mem_map_of_mem _ (Multiset.mem_filter.2 ⟨(hk.mem w).2 (by rw [hw]; rfl), ?_⟩)
      rw [blockedBy, hw]
      exact hm
    · obtain ⟨w, hw, rfl⟩ := Multiset.mem_map.1 hp
      obtain ⟨m, hm, hmt⟩ := Option.bind_eq_some_iff.1 (Multiset.mem_filter.1 hw).2
      exact ⟨w, m, hmt, hm, rfl⟩
  rw [hset]
  exact (hk.booked t).inherits

/-- The states of the runs without a nesting list. -/
abbrev Mutexes.ReachablePlain : Mutexes → Prop :=
  Reach Mutexes.Start (LabelledStep Mutexes.AllowedPlain (Mutexes.apply 0))

/-- `CONFIG_SEM_NNESTPRIO = 0`: in every run in which a wait is only cancelled when the owner may
return to its base priority, the priority of each task is the largest of its base priority and the
priorities of the tasks that wait for its mutex. -/
theorem boosted_without_nesting (s : Mutexes) (h : s.ReachablePlain) (t : TaskId) :
    IsGreatest ({(s.kernel.tcb t).basePriority} ∪ waiterPriorities s t)
      (s.kernel.tcb t).schedPriority := by
  have hok : PlainOk s := h.labelled
    (fun s hs => ⟨hs.ok, fun n n' t hn => by rw [hs.owner n] at hn; cases hn⟩)
    fun s op hs hop => hs.step hop
  exact hok.ok.isGreatest t

/-! ## With a nesting list -/

theorem nested_step (hn : 0 < nnest) (hk : MutexOk nnest s.kernel s.owner)
    (hop : s.AllowedNested nnest op) :
    ∃ s', s.apply nnest op = some s' ∧ MutexOk nnest s'.kernel s'.owner := by
  cases op with
  | wait t m =>
    obtain ⟨ht, hown, hfree, hroom⟩ := hop
    exact ⟨_, rfl, wait_ok hk ht hown hfree fun h hh _ => hroom h hh⟩
  | post t m =>
    obtain ⟨hm, hhand⟩ := hop
    refine ⟨_, rfl, post_ok hk hm fun w hw => ?_⟩
    obtain ⟨hfree, hentry, hothers⟩ := hhand w hw
    refine ⟨hfree, ?_⟩
    have hbooked := hk.booked t
    rw [hk.charges_split (hk.handedTo_some hw).1 hm] at hbooked
    refine hbooked.restore_pos hn (fun q hq => ?_) hentry
    obtain ⟨u, hu, huw, rfl⟩ := mem_otherWaiters hk.nodup hq
    exact hothers u hu huw
  | cancel w =>
    refine ⟨_, rfl, cancel_ok hk fun m hw h hm C hC => ?_⟩
    have hbooked := hk.booked h
    rw [hC, ← Multiset.zero_add C] at hbooked
    exact hbooked.restore_pos hn (fun q hq => absurd hq (Multiset.notMem_zero q)) (hop m hw h hm)

/-- The states of the runs with a nesting list. -/
abbrev Mutexes.ReachableNested (nnest : Nat) : Mutexes → Prop :=
  Reach Mutexes.Start (LabelledStep (Mutexes.AllowedNested nnest) (Mutexes.apply nnest))

/-- `CONFIG_SEM_NNESTPRIO > 0`: in every run in which a mutex is handed over only when its other
waiters are not above the base priority of the poster, and an entry is only dropped when it is
there, the priority of each task is the largest of its base priority and the priorities of the tasks
that wait for its mutexes; a task without a mutex has its base priority and no saved ones. -/
theorem boosted_with_nesting (nnest : Nat) (hn : 0 < nnest) (s : Mutexes)
    (h : s.ReachableNested nnest) (t : TaskId) :
    IsGreatest ({(s.kernel.tcb t).basePriority} ∪ waiterPriorities s t)
        (s.kernel.tcb t).schedPriority ∧
      ((∀ m, s.owner m ≠ some t) → (s.kernel.tcb t).schedPriority = (s.kernel.tcb t).basePriority ∧
        (s.kernel.tcb t).pendReprios.length = 0) := by
  have hok : MutexOk nnest s.kernel s.owner :=
    h.labelled (P := fun s => MutexOk nnest s.kernel s.owner)
    (fun s hs => hs.ok) fun s op hs hop => nested_step hn hs hop
  refine ⟨hok.isGreatest t, fun hidle => ?_⟩
  obtain ⟨hbase, hpend⟩ := hok.fields_of_idle hidle
  exact ⟨hbase, by rw [hpend]; rfl⟩

/-! ## Concrete runs -/

/-- Tasks 0, 1 and all others have the priorities 100, 150 and 200; all mutexes are free. -/
def sampleMutexes : Mutexes where
  kernel :=
    { tcb := fun t => ⟨100 + 50 * min t 2, 100 + 50 * min t 2, [], none, true⟩
      sem := fun _ => ⟨1, false, []⟩
      freeholders := 8
      waiting := [] }
  owner := fun _ => none

theorem sampleMutexes_start : sampleMutexes.Start := by
  refine ⟨fun _ => rfl, fun _ => rfl, rfl, fun _ => rfl, fun t => ?_, fun _ => rfl, fun _ => rfl,
    fun _ => rfl⟩
  have heq : (sampleMutexes.kernel.tcb t).basePriority = 100 + 50 * min t 2 := rfl
  rw [Valid, heq, Sched.schedPriorityMin, Sched.schedPriorityMax]
  push_cast
  omega

/-- All mutexes belong to task 0 or are free. -/
def OnlyZero (owner : Owner) : Prop := ∀ n, owner n = none ∨ owner n = some 0

theorem OnlyZero.update (h : OnlyZero owner) (m : SemId) : OnlyZero (update owner m (some 0)) := by
  intro n
  by_cases hn : n = m
  · rw [hn, update_self]
    exact .inr rfl
  · rw [update_of_ne hn]
    exact h n

theorem OnlyZero.ne (h : OnlyZero owner) {t : TaskId} (ht : t ≠ 0) : ∀ n, owner n ≠ some t := by
  intro n hn
  rcases h n with h | h
  · rw [h] at hn
    cases hn
  · rw [h] at hn
    exact ht (Option.some.inj hn).symm

theorem onlyZero_none : OnlyZero fun _ => none := fun _ => .inl rfl

/-- Two tasks wait for the mutex of task 0. -/
def twoWaiters : List MutexOp := [.wait 0 0, .wait 1 0, .wait 2 0]

theorem twoWaiters_plain :
    Mutexes.ReachablePlain (after (Mutexes.apply 0) sampleMutexes twoWaiters) :=
  Reach.after twoWaiters (.start sampleMutexes_start)
    ⟨⟨rfl, fun _ => nofun, fun _ => by decide⟩, rfl,
      ⟨rfl, (onlyZero_none.update 0).ne (by decide), nofun⟩, rfl,
      ⟨rfl, (onlyZero_none.update 0).ne (by decide), nofun⟩, rfl, trivial⟩

/-- The wait of task 2 for the mutex of task 0 is cancelled, and task 1 waits for it. -/
theorem boosted_without_nesting_sample :
    let s := after (Mutexes.apply 0) sampleMutexes [.wait 0 0, .wait 2 0, .cancel 2, .wait 1 0]
    s.ReachablePlain ∧ IsGreatest ({100} ∪ waiterPriorities s 0) 150 := by
  intro s
  have hrun : s.ReachablePlain := by
    refine Reach.after _ (.start sampleMutexes_start)
      ⟨⟨rfl, fun _ => nofun, fun _ => by decide⟩, rfl,
        ⟨rfl, (onlyZero_none.update 0).ne (by decide), nofun⟩, rfl, ?_, rfl,
        ⟨rfl, (onlyZero_none.update 0).ne (by decide), nofun⟩, rfl, trivial⟩
    rintro m ⟨⟩ h ⟨⟩
    exact .inr (by decide)
  exact ⟨hrun, boosted_without_nesting _ hrun 0⟩

/-- The wait of task 2 ends with a timeout: task 0 returns to its base priority 100, although task 1
with the priority 150 waits for its mutex. -/
theorem cancel_drops_boost :
    Mutexes.ReachablePlain (after (Mutexes.apply 0) sampleMutexes twoWaiters) ∧
      let s := after (Mutexes.apply 0) sampleMutexes (twoWaiters ++ [.cancel 2])
      s.owner 0 = some 0 ∧ (s.kernel.tcb 1).waitsem = some 0 ∧ s.kernel.prio 1 = 150 ∧
        (s.kernel.tcb 0).basePriority = 100 ∧ (s.kernel.tcb 0).schedPriority = 100 :=
  ⟨twoWaiters_plain, by decide⟩

/-- Task 0 owns two mutexes, one task waits for each, and task 0 posts the second mutex. -/
def twoMutexes : List MutexOp := [.wait 0 0, .wait 0 1, .wait 1 0, .wait 2 1, .post 0 1]

theorem twoMutexes_nested :
    Mutexes.ReachableNested 8 (after (Mutexes.apply 8) sampleMutexes twoMutexes) :=
  Reach.after twoMutexes (.start sampleMutexes_start)
    ⟨⟨rfl, fun h => absurd rfl h, fun _ => by decide, nofun⟩, rfl,
      ⟨rfl, fun h => absurd rfl h, fun _ => by decide, nofun⟩, rfl,
      ⟨rfl, fun _ => ((onlyZero_none.update 0).update 1).ne (by decide), nofun, by decide⟩, rfl,
      ⟨rfl, fun _ => ((onlyZero_none.update 0).update 1).ne (by decide), nofun, by decide⟩, rfl,
      ⟨rfl, by decide⟩, rfl, trivial⟩

theorem boosted_with_nesting_sample :
    Mutexes.ReachableNested 8 (after (Mutexes.apply 8) sampleMutexes twoMutexes) ∧
      IsGreatest ({100} ∪ waiterPriorities (after (Mutexes.apply 8) sampleMutexes twoMutexes) 0)
      150 :=
  ⟨twoMutexes_nested, (boosted_with_nesting 8 (by decide) _ twoMutexes_nested 0).1⟩

theorem twoWaiters_nested :
    Mutexes.ReachableNested 8 (after (Mutexes.apply 8) sampleMutexes twoWaiters) :=
  Reach.after twoWaiters (.start sampleMutexes_start)
    ⟨⟨rfl, fun h => absurd rfl h, fun _ => by decide, nofun⟩, rfl,
      ⟨rfl, fun _ => (onlyZero_none.update 0).ne (by decide), nofun, by decide⟩, rfl,
      ⟨rfl, fun _ => (onlyZero_none.update 0).ne (by decide), nofun, by decide⟩, rfl, trivial⟩

/-- Two tasks wait for the only mutex of task 0, which posts it: task 0 keeps the priority of the
second one, although it owns nothing any more. -/
theorem post_keeps_boost :
    Mutexes.ReachableNested 8 (after (Mutexes.apply 8) sampleMutexes twoWaiters) ∧
      let s := after (Mutexes.apply 8) sampleMutexes (twoWaiters ++ [.post 0 0])
      (∀ m, s.owner m ≠ some 0) ∧ s.owner 0 = some 2 ∧ (s.kernel.tcb 0).basePriority = 100 ∧
        (s.kernel.tcb 0).schedPriority = 150 ∧ (s.kernel.tcb 0).pendReprios = [] := by
  refine ⟨twoWaiters_nested, fun m => ?_, by decide⟩
  by_cases hm : m = 0
  · subst hm
    decide
  · have hnone : (after (Mutexes.apply 8) sampleMutexes (twoWaiters ++ [.post 0 0])).owner =
        update (update (fun _ => none) 0 (some 0)) 0 (some 2) := rfl
    rw [hnone, update_of_ne hm, update_of_ne hm]
    exact nofun

end BaseNx.PrioInherit
