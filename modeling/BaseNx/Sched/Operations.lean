import BaseNx.Sched.ListInvariant

/-!
# What the scheduler operations do

One specification for each of `up_block_task`, `up_unblock_task`, `up_reprioritize_rtr`,
`nxsched_setpriority`, `sched_lock` and `sched_unlock`: the operation does not fail, keeps
`WellPlaced`, and its effect on the lists of blocked tasks is stated exactly. Blocking, unblocking
and repositioning a task also keep the order of all prioritized lists (`Ordered`) and leave no
pending task behind while the running task does not hold the scheduler lock (`LockOk`).
-/

namespace BaseNx.Sched

open Lib List
open Function (update update_of_ne update_self)

/-! ## The invariants of the operations -/

/-- The idle task is ready, and all other tasks have a higher priority. -/
structure IdleOk (idle : TaskId) (s : SchedState) : Prop where
  ready : idle ∈ s.list .readytorun
  lowest : s.schedPriority idle = 0
  others : ∀ t, t ≠ idle → 1 ≤ s.schedPriority t

/-- Tasks are pending only while the running task holds the scheduler lock. -/
def LockOk (s : SchedState) : Prop :=
  s.list .pendingtasks ≠ [] → ∃ r, s.thisTask = some r ∧ 0 < s.lockcount r

/-- The prioritized lists are in descending order of priority. -/
def Ordered (s : SchedState) : Prop :=
  ∀ l : TaskList, l.isPrioritized = true → SortedBy s.schedPriority (s.list l)

variable {xs : List TaskId} {prio : TaskId → Nat} {st : TState}

section Invariants

variable {s s' : SchedState} {t idle : TaskId} {l : TaskList}

theorem sortedBy_congr {prio' : TaskId → Nat} (h : ∀ u ∈ xs, prio' u = prio u)
    (hs : SortedBy prio xs) : SortedBy prio' xs := by
  refine List.Pairwise.imp_of_mem ?_ hs
  intro a b ha hb hab
  rw [h a ha, h b hb]
  exact hab

theorem Removed.schedPriority (h : Removed t l s s') : s'.schedPriority = s.schedPriority := by
  funext u
  by_cases hu : u = t
  · rw [hu, h.priority]
  · exact h.kept.priority u hu

theorem Removed.ordered (h : Removed t l s s') (hs : Ordered s) : Ordered s' := by
  intro m hm
  rw [h.schedPriority]
  by_cases hml : m = l
  · rw [hml, h.list]
    exact (hs l (hml ▸ hm)).sublist erase_sublist
  · rw [h.others m hml]
    exact hs m hm

theorem Added.ordered (h : Added t l s s') (hs : Ordered s) : Ordered s' := by
  intro m hm
  rw [h.priority]
  by_cases hml : m = l
  · rw [hml, h.list, if_pos (hml ▸ hm)]
    exact sortedBy_insertPrioritized (hs l (hml ▸ hm)) t
  · rw [h.others m hml]
    exact hs m hm

theorem WellPlaced.setPriority (h : WellPlaced s) (p : Nat) : WellPlaced (s.setPriority t p) :=
  ⟨h.nodup, h.mem, h.running⟩

theorem Ordered.setPriority (hs : Ordered s) (ht : ∀ m, t ∉ s.list m) (p : Nat) :
    Ordered (s.setPriority t p) := by
  intro m hm
  refine sortedBy_congr ?_ (hs m hm)
  intro u hu
  have hne : u ≠ t := fun hut => ht m (hut ▸ hu)
  simp [hne]

theorem TState.eq_of_view_eq {st' : TState} (hb : st'.isBlocked = true) (h : st.view = st'.view) :
    st = st' := by
  cases st <;> cases st' <;> simp_all [TState.view, TState.isBlocked]

end Invariants

/-! ## Merging the pending tasks -/

/-- What a merge that depends on the lock leaves behind. -/
structure Settled (s s' : SchedState) : Prop where
  placed : WellPlaced s'
  kept : KeptAll s s'
  ready : ∀ u ∈ s.list .readytorun, u ∈ s'.list .readytorun
  others : ∀ m, m ≠ .readytorun → m ≠ .pendingtasks → s'.list m = s.list m
  lock : LockOk s'
  ordered : Ordered s → Ordered s'

variable {p : Nat} {s' : SchedState} {l : TaskList} {r : TaskId} {post : List TaskId}

section Operations

variable {s : SchedState} {t idle : TaskId}

theorem schedMergepending_spec (h : WellPlaced s) (hidle : IdleOk idle s) :
    ∃ s', schedMergepending s = some s' ∧ Settled s s' ∧ s'.list .pendingtasks = [] := by
  have hv : mergeView s [] (s.list .readytorun) (s.list .pendingtasks) = s := by
    have hl : update (update s.list .readytorun (s.list .readytorun))
        .pendingtasks (s.list .pendingtasks) = s.list := by
      simp
    simp only [mergeView, SchedState.setList, nil_append]
    rw [hl]
  have hlow : ∀ p ∈ s.list .pendingtasks, s.schedPriority idle < s.schedPriority p := by
    intro p hp
    have hne : p ≠ idle := by
      rintro rfl
      exact TaskList.noConfusion (h.unique hp hidle.ready)
    have := hidle.others p hne
    have := hidle.lowest
    omega
  obtain ⟨s', hs', hm, hsorted⟩ := mergeLoop_spec (s.list .pendingtasks) s [] (s.list .readytorun)
    (hv.symm ▸ h) ⟨idle, hidle.ready, hlow⟩
  rw [hv] at hm
  refine ⟨s', hs', ⟨hm.placed, hm.kept, fun u hu => (hm.ready u).2 (Or.inl hu), hm.others, ?_, ?_⟩,
    hm.pending⟩
  · intro hne
    exact absurd hm.pending hne
  · intro ho m hpm
    rw [hm.kept.priority]
    by_cases hr : m = .readytorun
    · subst hr
      exact hsorted (ho .readytorun rfl) (ho .pendingtasks rfl) (by simp)
    · by_cases hp : m = .pendingtasks
      · subst hp
        rw [hm.pending]
        exact List.Pairwise.nil
      · rw [hm.others m hr hp]
        exact ho m hpm

theorem mergeUnlessLocked_spec (h : WellPlaced s) (hidle : IdleOk idle s)
    (hr : s.thisTask = some r) : ∃ s', mergeUnlessLocked s = some s' ∧ Settled s s' := by
  unfold mergeUnlessLocked
  rw [hr]
  by_cases hlock : 0 < s.lockcount r
  · refine ⟨s, by simp [hlock], ⟨h, ⟨rfl, rfl, fun _ => rfl⟩, fun _ hu => hu, fun _ _ _ => rfl, ?_,
      fun ho => ho⟩⟩
    exact fun _ => ⟨r, hr, hlock⟩
  · obtain ⟨s', hs', hset, -⟩ := schedMergepending_spec h hidle
    exact ⟨s', by simp [hlock, hs'], hset⟩

theorem Settled.idleOk (h : Settled s s') (hidle : IdleOk idle s) : IdleOk idle s' :=
  ⟨h.ready idle hidle.ready, by rw [h.kept.priority]; exact hidle.lowest,
    by rw [h.kept.priority]; exact hidle.others⟩

/-! ## Blocking and unblocking -/

/-- What every operation that moves the task `t` guarantees. -/
structure Outcome (idle t : TaskId) (s s' : SchedState) : Prop where
  placed : WellPlaced s'
  kept : Kept t s s'
  idle : IdleOk idle s'
  lock : LockOk s'
  ordered : Ordered s → Ordered s'

/-- The idle task stays where it is when another task leaves the ready-to-run list. -/
theorem Removed.idleOk (h : Removed t l s s') (hidle : IdleOk idle s) (hti : t ≠ idle) :
    IdleOk idle s' := by
  refine ⟨?_, ?_, ?_⟩
  · by_cases hl : TaskList.readytorun = l
    · rw [hl, h.list]
      exact (mem_erase_of_ne (Ne.symm hti)).2 (hl ▸ hidle.ready)
    · rw [h.others _ hl]
      exact hidle.ready
  · rw [h.kept.priority idle (Ne.symm hti)]
    exact hidle.lowest
  · intro u hu
    by_cases hut : u = t
    · rw [hut, h.priority]
      exact hidle.others t hti
    · rw [h.kept.priority u hut]
      exact hidle.others u hu

theorem Added.idleOk (h : Added t l s s') (hidle : IdleOk idle s) : IdleOk idle s' := by
  refine ⟨?_, by rw [h.priority]; exact hidle.lowest, by rw [h.priority]; exact hidle.others⟩
  by_cases hl : TaskList.readytorun = l
  · subst hl
    rw [h.list]
    simp [TaskList.isPrioritized, hidle.ready]
  · rw [h.others _ hl]
    exact hidle.ready

theorem IdleOk.setPriority (h : IdleOk idle s) (hti : t ≠ idle) (hp : 1 ≤ p) :
    IdleOk idle (s.setPriority t p) := by
  refine ⟨h.ready, ?_, ?_⟩
  · simpa [Ne.symm hti] using h.lowest
  · intro u hu
    by_cases hut : u = t
    · simpa [hut] using hp
    · simpa [hut] using h.others u hu

theorem IdleOk.thisTask_isSome (hidle : IdleOk idle s) : ∃ r, s.thisTask = some r := by
  cases hl : s.list .readytorun with
  | nil =>
    have := hidle.ready
    rw [hl] at this
    exact absurd this not_mem_nil
  | cons r rest => exact ⟨r, by simp [SchedState.thisTask, hl]⟩

section

variable (h : WellPlaced s) (hidle : IdleOk idle s)
include h hidle

theorem upBlockTask_spec (ht : t ∈ s.list .readytorun) (hti : t ≠ idle)
    (hst : st.isBlocked = true) (hl : st.tlist = some l) :
    ∃ s', upBlockTask s t st = some s' ∧ Outcome idle t s s' ∧
      s'.schedPriority = s.schedPriority ∧ s'.taskState t = st ∧
      s'.list l = (if l.isPrioritized then insertPrioritized s.schedPriority t (s.list l)
        else s.list l ++ [t]) ∧
      ∀ m, m ≠ l → m ≠ .readytorun → m ≠ .pendingtasks → s'.list m = s.list m := by
  obtain ⟨k, hk, hlr, hlp, hview, -⟩ := TState.tlist_of_isBlocked hst
  obtain rfl : k = l := Option.some.inj (hk.symm.trans hl)
  obtain ⟨b, s₁, hs₁, hrem⟩ := schedRemovereadytorun_spec h ht hidle.ready (Ne.symm hti)
  obtain ⟨hadd, hstate, hthis⟩ := schedAddblocked_spec hrem.placed hrem.state hst hl
  have hidle₁ := hrem.idleOk hidle hti
  have hidle₂ := hadd.idleOk hidle₁
  obtain ⟨r, hr⟩ := hidle₂.thisTask_isSome
  obtain ⟨s', hs', hset⟩ := mergeUnlessLocked_spec hadd.placed hidle₂ hr
  have hlists : ∀ m, m ≠ TaskList.readytorun → s₁.list m = s.list m := hrem.others
  refine ⟨s', ?_, ⟨hset.placed, (hrem.kept.trans hadd.kept).trans (hset.kept.kept t),
    hset.idleOk hidle₂, hset.lock, fun ho => hset.ordered (hadd.ordered (hrem.ordered ho))⟩,
    ?_, ?_, ?_, ?_⟩
  · simp [upBlockTask, hs₁, hs']
  · rw [hset.kept.priority, hadd.priority, hrem.schedPriority]
  · refine TState.eq_of_view_eq hst ?_
    rw [hset.kept.others, hstate]
  · rw [hset.others k hlr hlp, hadd.list, hrem.schedPriority, hlists k hlr]
  · intro m hml hmr hmp
    rw [hset.others m hmr hmp, hadd.others m hml, hlists m hmr]

/-- A task that is in no list is made ready, and pending tasks are merged. -/
theorem addreadytorun_merge_spec (ht : s.taskState t = .invalid) :
    ∃ b s₁ s', schedAddreadytorun s t = some (b, s₁) ∧ mergeUnlessLocked s₁ = some s' ∧
      Outcome idle t s s' ∧ s'.schedPriority = s.schedPriority ∧
      (s'.taskState t).view = .readytorun ∧
      ∀ m, m ≠ .readytorun → m ≠ .pendingtasks → s'.list m = s.list m := by
  obtain ⟨rtcb, hrtcb⟩ := hidle.thisTask_isSome
  obtain ⟨b, l, s₁, hs₁, hadd, hl⟩ := schedAddreadytorun_spec h ht hrtcb
  have hidle₁ := hadd.idleOk hidle
  obtain ⟨r, hr⟩ := hidle₁.thisTask_isSome
  obtain ⟨s', hs', hset⟩ := mergeUnlessLocked_spec hadd.placed hidle₁ hr
  refine ⟨b, s₁, s', hs₁, hs', ⟨hset.placed, hadd.kept.trans (hset.kept.kept t),
    hset.idleOk hidle₁, hset.lock, fun ho => hset.ordered (hadd.ordered ho)⟩, ?_, ?_, ?_⟩
  · rw [hset.kept.priority, hadd.priority]
  · rw [hset.kept.others]
    have hstate := hadd.state
    rcases hl with ⟨rfl, -, -⟩ | ⟨rfl, -⟩ <;>
      cases hst : s₁.taskState t <;> simp_all [TState.tlist, TState.view]
  · intro m hmr hmp
    have hml : m ≠ l := by
      rcases hl with ⟨rfl, -, -⟩ | ⟨rfl, -⟩
      · exact hmp
      · exact hmr
    rw [hset.others m hmr hmp, hadd.others m hml]

theorem upUnblockTask_spec (hst : (s.taskState t).isBlocked = true)
    (hl : (s.taskState t).tlist = some l) :
    ∃ s', upUnblockTask s t = some s' ∧ Outcome idle t s s' ∧
      s'.schedPriority = s.schedPriority ∧ (s'.taskState t).view = .readytorun ∧
      s'.list l = (s.list l).erase t ∧
      ∀ m, m ≠ l → m ≠ .readytorun → m ≠ .pendingtasks → s'.list m = s.list m := by
  obtain ⟨k, hk, hlr, hlp, -, -⟩ := TState.tlist_of_isBlocked hst
  obtain rfl : k = l := Option.some.inj (hk.symm.trans hl)
  have hti : t ≠ idle := by
    rintro rfl
    exact hlr (h.unique hidle.ready ((h.mem k t).2 hk))
  obtain ⟨hrem, -⟩ := schedRemoveblocked_spec h hst hl
  obtain ⟨b, s₁, s', hs₁, hs', hout, hprio, hview, hothers⟩ :=
    addreadytorun_merge_spec hrem.placed (hrem.idleOk hidle hti) hrem.state
  refine ⟨s', ?_, ⟨hout.placed, hrem.kept.trans hout.kept, hout.idle, hout.lock,
    fun ho => hout.ordered (hrem.ordered ho)⟩, hprio.trans hrem.schedPriority, hview, ?_, ?_⟩
  · simp [upUnblockTask, hs₁, hs']
  · rw [hothers k hlr hlp, hrem.list]
  · intro m hml hmr hmp
    rw [hothers m hmr hmp, hrem.others m hml]

theorem upReprioritizeRtr_spec (ht : t ∈ s.list .readytorun) (hti : t ≠ idle) (hp : 1 ≤ p) :
    ∃ s', upReprioritizeRtr s t p = some s' ∧ Outcome idle t s s' ∧ s'.schedPriority t = p ∧
      (s'.taskState t).view = .readytorun ∧
      ∀ m, m ≠ .readytorun → m ≠ .pendingtasks → s'.list m = s.list m := by
  obtain ⟨b, s₁, hs₁, hrem⟩ := schedRemovereadytorun_spec h ht hidle.ready (Ne.symm hti)
  have hidle₁ := hrem.idleOk hidle hti
  obtain ⟨b', s₂, s', hs₂, hs', hout, hprio, hview, hothers⟩ :=
    addreadytorun_merge_spec (hrem.placed.setPriority (t := t) p) (hidle₁.setPriority hti hp)
      hrem.state
  have hkept : Kept t s₁ (s₁.setPriority t p) :=
    ⟨fun u hu => by simp [hu], rfl, fun _ _ => rfl⟩
  refine ⟨s', ?_, ⟨hout.placed, (hrem.kept.trans hkept).trans hout.kept, hout.idle, hout.lock, ?_⟩,
    ?_, hview, ?_⟩
  · simp [upReprioritizeRtr, hs₁, hs₂, hs']
  · intro ho
    refine hout.ordered ((hrem.ordered ho).setPriority ?_ p)
    exact hrem.placed.not_mem_of_invalid hrem.state
  · rw [hprio]
    simp
  · intro m hmr hmp
    rw [hothers m hmr hmp]
    exact hrem.others m hmr

end

/-! ## nxsched_setpriority -/

/-- The task in front of `t` in a list, `t->blink`. -/
def blink (t : TaskId) : List TaskId → Option TaskId
  | [] => none
  | [_] => none
  | a :: b :: rest => if b = t then some a else blink t (b :: rest)

/-- Writing the priority of a ready task without moving it is harmless if the new priority lies
between those of its neighbours in the ready-to-run list. -/
def FitsInPlace (s : SchedState) (t : TaskId) (p : Nat) : Prop :=
  (∀ a, blink t (s.list .readytorun) = some a → p ≤ s.schedPriority a) ∧
    ∀ b, flink t (s.list .readytorun) = some b → s.schedPriority b ≤ p

theorem flink_split : ∀ pre : List TaskId, t ∉ pre →
    flink t (pre ++ t :: post) = post.head?
  | [], _ => by simp [flink]
  | a :: pre, h => by
    have hat : a ≠ t := fun hat => h (hat ▸ mem_cons_self)
    simp only [cons_append, flink, if_neg hat]
    exact flink_split pre fun hm => h (mem_cons_of_mem _ hm)

theorem blink_eq_none : ∀ (a : TaskId) (xs : List TaskId), t ∉ xs → blink t (a :: xs) = none
  | _, [], _ => rfl
  | a, b :: xs, h => by
    have hbt : b ≠ t := fun hbt => h (hbt ▸ mem_cons_self)
    rw [blink, if_neg hbt]
    exact blink_eq_none b xs fun hm => h (mem_cons_of_mem _ hm)

theorem blink_split (hpost : t ∉ post) : ∀ pre : List TaskId, t ∉ pre →
    blink t (pre ++ t :: post) = pre.getLast?
  | [], _ => blink_eq_none t post hpost
  | [a], _ => by simp [blink]
  | a :: b :: pre, h => by
    have hbt : b ≠ t := fun hbt => h (hbt ▸ by simp)
    have ih := blink_split hpost (b :: pre) fun hm => h (mem_cons_of_mem _ hm)
    simp only [cons_append] at ih ⊢
    rw [blink, if_neg hbt, ih]
    simp

theorem sortedBy_getLast (h : SortedBy prio xs) {z : TaskId} (hz : xs.getLast? = some z) :
    ∀ a ∈ xs, prio z ≤ prio a := by
  intro a ha
  obtain ⟨ys, rfl⟩ := getLast?_eq_some_iff.1 hz
  rcases mem_append.1 ha with ha | ha
  · exact (pairwise_append.1 h).2.2 a ha z (mem_singleton_self z)
  · rw [mem_singleton.1 ha]

theorem FitsInPlace.sorted (hnd : (s.list .readytorun).Nodup) (ht : t ∈ s.list .readytorun)
    (hfit : FitsInPlace s t p) (hs : SortedBy s.schedPriority (s.list .readytorun)) :
    SortedBy (s.setPriority t p).schedPriority (s.list .readytorun) := by
  obtain ⟨pre, post, hl⟩ := append_of_mem ht
  obtain ⟨hfront, hback⟩ := hfit
  rw [hl] at hs hnd hfront hback ⊢
  have hpre : t ∉ pre := fun hm => (nodup_append.1 hnd).2.2 t hm t mem_cons_self rfl
  have hpost : t ∉ post := (nodup_cons.1 (nodup_append.1 hnd).2.1).1
  rw [blink_split hpost pre hpre] at hfront
  rw [flink_split pre hpre] at hback
  have hprio : ∀ u, u ≠ t → (s.setPriority t p).schedPriority u = s.schedPriority u :=
    fun u hu => by simp [hu]
  obtain ⟨h1, h2, h3⟩ := pairwise_append.1 hs
  obtain ⟨h4, h5⟩ := pairwise_cons.1 h2
  have hne_pre : ∀ a ∈ pre, a ≠ t := fun a ha hat => hpre (hat ▸ ha)
  have hne_post : ∀ b ∈ post, b ≠ t := fun b hb hbt => hpost (hbt ▸ hb)
  refine pairwise_append.2 ⟨?_, pairwise_cons.2 ⟨?_, ?_⟩, ?_⟩
  · exact sortedBy_congr (fun u hu => hprio u (hne_pre u hu)) h1
  · -- everything behind the task is at most its successor
    intro b hb
    rw [hprio b (hne_post b hb), setPriority_schedPriority, if_pos rfl]
    cases post with
    | nil => exact absurd hb not_mem_nil
    | cons c post =>
      have hc := hback c rfl
      rcases mem_cons.1 hb with rfl | hb
      · exact hc
      · exact (rel_of_pairwise_cons h5 hb).trans hc
  · exact sortedBy_congr (fun u hu => hprio u (hne_post u hu)) h5
  · intro a ha b hb
    rw [hprio a (hne_pre a ha)]
    rcases mem_cons.1 hb with rfl | hb
    · rw [setPriority_schedPriority, if_pos rfl]
      cases hlast : pre.getLast? with
      | none => rw [getLast?_eq_none_iff.1 hlast] at ha; exact absurd ha not_mem_nil
      | some z => exact (hfront z hlast).trans (sortedBy_getLast h1 hlast a ha)
    · rw [hprio b (hne_post b hb)]
      exact h3 a ha b (mem_cons_of_mem _ hb)

/-- What `nxsched_setpriority` does to the lists of blocked tasks: a task that waits in a
prioritized list moves behind all others of its new priority. -/
def reposition (s : SchedState) (t : TaskId) (p : Nat) (m : TaskList) : List TaskId :=
  if (s.taskState t).tlist = some m ∧ m.isPrioritized = true then
    insertPrioritized (s.setPriority t p).schedPriority t ((s.list m).erase t)
  else s.list m

/-- What a change of priority guarantees. -/
structure Reprioritized (idle t : TaskId) (p : Nat) (s s' : SchedState) : Prop where
  placed : WellPlaced s'
  kept : Kept t s s'
  idle : IdleOk idle s'
  priority : s'.schedPriority t = p
  view : (s'.taskState t).view = (s.taskState t).view
  lock : LockOk s → LockOk s'
  blocked : ∀ m, m ≠ .readytorun → m ≠ .pendingtasks → s'.list m = reposition s t p m

section

variable (h : WellPlaced s)
include h

section

variable (hidle : IdleOk idle s) (hti : t ≠ idle) (hp : 1 ≤ p) (ht : t ∈ s.list .readytorun)
include hidle hti hp ht

/-- Writing the priority of a ready task in place. -/
theorem setPriority_reprioritized : Reprioritized idle t p s (s.setPriority t p) := by
  refine ⟨h.setPriority p, ⟨fun u hu => by simp [hu], rfl, fun _ _ => rfl⟩,
    hidle.setPriority hti hp, by simp, rfl, fun hl => hl, ?_⟩
  intro m hmr _
  have hno : (s.taskState t).tlist ≠ some m := by
    rw [(h.mem .readytorun t).1 ht]
    exact fun heq => hmr (Option.some.inj heq).symm
  simp [reposition, hno]

theorem upReprioritizeRtr_reprioritized :
    ∃ s', upReprioritizeRtr s t p = some s' ∧ Reprioritized idle t p s s' ∧
      (Ordered s → Ordered s') := by
  obtain ⟨s', hs', hout, hprio, hview, hlists⟩ := upReprioritizeRtr_spec h hidle ht hti hp
  refine ⟨s', hs', ⟨hout.placed, hout.kept, hout.idle, hprio, ?_, fun _ => hout.lock, ?_⟩,
    hout.ordered⟩
  · rcases h.state_of_mem_readytorun ht with hst | hst <;> rw [hview, hst] <;> rfl
  · intro m hmr hmp
    have hno : (s.taskState t).tlist ≠ some m := by
      rw [(h.mem .readytorun t).1 ht]
      exact fun heq => hmr (Option.some.inj heq).symm
    simp [reposition, hno, hlists m hmr hmp]

end

theorem WellPlaced.permute (hl : ∀ m, (s'.list m).Perm (s.list m))
    (hst : s'.taskState = s.taskState) (hthis : s'.thisTask = s.thisTask) : WellPlaced s' := by
  refine ⟨fun m => (hl m).nodup_iff.2 (h.nodup m), fun m u => ?_, fun u => ?_⟩
  · rw [(hl m).mem_iff, hst, h.mem]
  · rw [hst, hthis, h.running]

theorem schedBlockedSetpriority_spec (hidle : IdleOk idle s) (hti : t ≠ idle) (hp : 1 ≤ p)
    (ht : t ∉ s.list .readytorun) :
    Reprioritized idle t p s (schedBlockedSetpriority s t p) ∧
      (Ordered s → Ordered (schedBlockedSetpriority s t p)) := by
  by_cases hpl : ∃ l, (s.taskState t).tlist = some l ∧ l.isPrioritized = true
  · obtain ⟨l, hl, hpr⟩ := hpl
    have hmem : t ∈ s.list l := (h.mem l t).2 hl
    have hlr : l ≠ .readytorun := fun heq => ht (heq ▸ hmem)
    have heq : schedBlockedSetpriority s t p = (s.setPriority t p).setList l
        (insertPrioritized (s.setPriority t p).schedPriority t ((s.list l).erase t)) := by
      simp only [schedBlockedSetpriority, hl, hpr, if_true, schedAddprioritized]
      simp [SchedState.setList, SchedState.dqRem, SchedState.setPriority]
    have hthis : (schedBlockedSetpriority s t p).thisTask = s.thisTask := by
      simp [heq, SchedState.thisTask, Ne.symm hlr]
    have hlist : ∀ m, m ≠ l → (schedBlockedSetpriority s t p).list m = s.list m := by
      intro m hm
      simp [heq, hm]
    have hperm : ((schedBlockedSetpriority s t p).list l).Perm (s.list l) := by
      rw [heq, setList_list, if_pos rfl]
      exact (insertPrioritized_perm _ _ _).trans (perm_cons_erase hmem).symm
    refine ⟨⟨?_, ⟨fun u hu => by simp [heq, hu], by simp [heq], fun u _ => by simp [heq]⟩, ?_,
      by simp [heq], by simp [heq], ?_, ?_⟩, ?_⟩
    · refine h.permute (fun m => ?_) (by simp [heq]) hthis
      by_cases hm : m = l
      · rw [hm]
        exact hperm
      · rw [hlist m hm]
    · have := hidle.setPriority hti hp
      rw [heq]
      exact ⟨by simpa [Ne.symm hlr] using this.ready, this.lowest, this.others⟩
    · -- a task that was pending was already held back by the lock
      intro hlock hne
      rw [hthis]
      have hlc : (schedBlockedSetpriority s t p).lockcount = s.lockcount := by simp [heq]
      rw [hlc]
      refine hlock ?_
      by_cases hm : TaskList.pendingtasks = l
      · subst hm
        exact fun hnil => hne ((hnil ▸ hperm).eq_nil)
      · rwa [hlist _ hm] at hne
    · intro m hmr hmp
      unfold reposition
      by_cases hm : m = l
      · subst hm
        rw [if_pos ⟨hl, hpr⟩, heq, setList_list, if_pos rfl]
      · rw [if_neg (fun hc => hm (Option.some.inj (hl.symm.trans hc.1)).symm), hlist m hm]
    · intro ho m hm
      have hprio : (schedBlockedSetpriority s t p).schedPriority =
          (s.setPriority t p).schedPriority := by rw [heq]; rfl
      rw [hprio]
      by_cases hml : m = l
      · subst hml
        rw [heq, setList_list, if_pos rfl]
        refine sortedBy_insertPrioritized (sortedBy_congr ?_ ((ho m hm).sublist
          erase_sublist)) t
        intro u hu
        have hne : u ≠ t := fun hut => (h.nodup m).not_mem_erase (hut ▸ hu)
        simp [hne]
      · rw [hlist m hml]
        refine sortedBy_congr ?_ (ho m hm)
        intro u hu
        have hne : u ≠ t := by
          rintro rfl
          exact hml (h.unique hmem hu)
        simp [hne]
  · -- the task is in no prioritized list: only the field changes
    have heq : schedBlockedSetpriority s t p = s.setPriority t p := by
      unfold schedBlockedSetpriority
      cases hl : (s.taskState t).tlist with
      | none => rfl
      | some l =>
        have hnp : ¬ l.isPrioritized = true := fun hc => hpl ⟨l, hl, hc⟩
        simp [hnp]
    rw [heq]
    refine ⟨⟨h.setPriority p, ⟨fun u hu => by simp [hu], rfl, fun _ _ => rfl⟩,
      hidle.setPriority hti hp, by simp, rfl, fun hl => hl, ?_⟩, ?_⟩
    · intro m _ _
      unfold reposition
      rw [if_neg (fun hc => hpl ⟨m, hc⟩)]
      rfl
    · intro ho m hm
      refine sortedBy_congr ?_ (ho m hm)
      intro u hu
      have hne : u ≠ t := by
        rintro rfl
        exact hpl ⟨m, (h.mem m u).1 hu, hm⟩
      simp [hne]

end

/-- The new priority is written in place only where it fits: if the task is ready but not running
and the new priority does not exceed that of the running task, it lies between the priorities of the
task's neighbours. -/
def InPlaceOk (s : SchedState) (t : TaskId) (p : Nat) : Prop :=
  s.taskState t = .readytorun → (∀ r, s.thisTask = some r → p ≤ s.schedPriority r) →
    FitsInPlace s t p

section

variable (h : WellPlaced s)
include h

theorem ordered_setPriority_of_fits (ht : t ∈ s.list .readytorun) (hfit : FitsInPlace s t p)
    (ho : Ordered s) : Ordered (s.setPriority t p) := by
  intro m hm
  by_cases hmr : m = .readytorun
  · subst hmr
    exact hfit.sorted (h.nodup _) ht (ho _ hm)
  · refine sortedBy_congr ?_ (ho m hm)
    intro u hu
    have hne : u ≠ t := by
      rintro rfl
      exact hmr (h.unique ht hu)
    simp [hne]

section

variable (hidle : IdleOk idle s) (hti : t ≠ idle)
include hidle hti

theorem schedRunningSetpriority_spec (hp : 1 ≤ p) (hst : s.taskState t = .running) :
    ∃ s', schedRunningSetpriority s t p = some s' ∧ Reprioritized idle t p s s' ∧
      (Ordered s → Ordered s') := by
  have ht : t ∈ s.list .readytorun := (h.mem _ _).2 (by rw [hst]; rfl)
  have hhead := (h.running t).1 hst
  cases hl : s.list .readytorun with
  | nil => rw [hl] at ht; exact absurd ht not_mem_nil
  | cons x rest =>
    obtain rfl : x = t := by simpa [SchedState.thisTask, hl] using hhead
    have hirest : idle ∈ rest := by
      have := hidle.ready
      rw [hl] at this
      exact (mem_cons.1 this).resolve_left (Ne.symm hti)
    cases rest with
    | nil => exact absurd hirest not_mem_nil
    | cons n rest =>
      have hfl : flink x (s.list .readytorun) = some n := by rw [hl]; simp [flink]
      unfold schedRunningSetpriority
      rw [hfl]
      by_cases hle : p ≤ s.schedPriority n
      · simp only [if_pos hle]
        exact upReprioritizeRtr_reprioritized h hidle hti hp ht
      · simp only [if_neg hle]
        refine ⟨_, rfl, setPriority_reprioritized h hidle hti hp ht,
          ordered_setPriority_of_fits h ht ⟨?_, ?_⟩⟩
        · have hnd := hl ▸ h.nodup .readytorun
          rw [hl, blink_eq_none x _ (nodup_cons.1 hnd).1]
          exact fun a ha => Option.noConfusion rfl (heq_of_eq ha)
        · intro b hb
          obtain rfl := Option.some.inj (hfl.symm.trans hb)
          omega

theorem schedReadytorunSetpriority_spec (hp : 1 ≤ p) (hst : s.taskState t = .readytorun) :
    ∃ s', schedReadytorunSetpriority s t p = some s' ∧ Reprioritized idle t p s s' ∧
      (Ordered s → InPlaceOk s t p → Ordered s') := by
  have ht : t ∈ s.list .readytorun := (h.mem _ _).2 (by rw [hst]; rfl)
  obtain ⟨r, hr⟩ := hidle.thisTask_isSome
  unfold schedReadytorunSetpriority
  rw [hr]
  by_cases hlt : s.schedPriority r < p
  · obtain ⟨s', hs', hrep, hord⟩ := upReprioritizeRtr_reprioritized h hidle hti hp ht
    exact ⟨s', by simp [hlt, hs'], hrep, fun ho _ => hord ho⟩
  · refine ⟨_, by simp only [if_neg hlt], setPriority_reprioritized h hidle hti hp ht, ?_⟩
    intro ho hfit
    refine ordered_setPriority_of_fits h ht (hfit hst ?_) ho
    intro r' hr'
    obtain rfl := Option.some.inj (hr.symm.trans hr')
    omega

theorem nxschedSetpriority_spec
    {p : Int} (hlo : schedPriorityMin ≤ p) (hhi : p ≤ schedPriorityMax) :
    ∃ s', nxschedSetpriority s t p = some (OK, s') ∧ Reprioritized idle t p.toNat s s' ∧
      (Ordered s → InPlaceOk s t p.toNat → Ordered s') := by
  unfold schedPriorityMin at hlo
  unfold schedPriorityMax at hhi
  have hp : 1 ≤ p.toNat := by omega
  have hu : u8 p.toNat = p.toNat := u8_eq_self (by omega)
  have hrange : ¬ (p < schedPriorityMin ∨ schedPriorityMax < p) := by
    unfold schedPriorityMin schedPriorityMax
    omega
  unfold nxschedSetpriority
  rw [if_neg hrange, hu]
  cases hst : s.taskState t with
  | running =>
    obtain ⟨s', hs', hrep, hord⟩ := schedRunningSetpriority_spec h hidle hti hp hst
    exact ⟨s', by simp [hs'], hrep, fun ho _ => hord ho⟩
  | readytorun =>
    obtain ⟨s', hs', hrep, hord⟩ := schedReadytorunSetpriority_spec h hidle hti hp hst
    exact ⟨s', by simp [hs'], hrep, hord⟩
  | _ =>
    have hnot : t ∉ s.list .readytorun := by
      rw [h.mem, hst]
      exact nofun
    obtain ⟨hrep, hord⟩ := schedBlockedSetpriority_spec h hidle hti hp hnot
    exact ⟨_, rfl, hrep, fun ho _ => hord ho⟩

end

/-! ## The scheduler lock -/

/-- A change of lock counts moves no task. -/
theorem WellPlaced.setLockcount (f : TaskId → Int) : WellPlaced { s with lockcount := f } :=
  ⟨h.nodup, h.mem, h.running⟩

end

theorem schedLock_spec (hr : s.thisTask = some r) (h0 : 0 ≤ s.lockcount r)
    (hmax : s.lockcount r < int16Max) :
    schedLock s = some { s with
      lockcount := update s.lockcount r (s.lockcount r + 1) } ∧
    LockOk { s with lockcount := update s.lockcount r (s.lockcount r + 1) } := by
  unfold int16Max at hmax
  refine ⟨?_, fun _ => ⟨r, hr, ?_⟩⟩
  · unfold schedLock
    rw [hr]
    simp only
    rw [i16_eq_self (by omega) (by omega)]
  · simp only [update_self]
    omega

theorem schedUnlock_spec (h : WellPlaced s) (hidle : IdleOk idle s) (hr : s.thisTask = some r)
    (h0 : ∀ u, 0 ≤ s.lockcount u ∧ s.lockcount u ≤ int16Max) :
    ∃ s', schedUnlock s = some s' ∧ WellPlaced s' ∧ IdleOk idle s' ∧ LockOk s' ∧
      (Ordered s → Ordered s') ∧ s'.schedPriority = s.schedPriority ∧
      (∀ u, (s'.taskState u).view = (s.taskState u).view) ∧
      (∀ m, m ≠ .readytorun → m ≠ .pendingtasks → s'.list m = s.list m) ∧
      ∀ u, 0 ≤ s'.lockcount u ∧ s'.lockcount u ≤ s.lockcount u := by
  have hr0 := h0 r
  unfold int16Max at hr0
  have hcount : (if 0 < s.lockcount r then i16 (s.lockcount r - 1) else s.lockcount r) =
      max 0 (s.lockcount r - 1) := by
    split
    · rw [i16_eq_self (by omega) (by omega)]
      omega
    · omega
  have hlocks : ∀ n : Int, 0 ≤ n → n ≤ s.lockcount r → ∀ u,
      0 ≤ update s.lockcount r n u ∧ update s.lockcount r n u ≤ s.lockcount u := by
    intro n hn0 hn u
    by_cases hu : u = r
    · subst hu
      simp [hn0, hn]
    · rw [update_of_ne hu]
      exact ⟨(h0 u).1, le_rfl⟩
  unfold schedUnlock
  rw [hr]
  simp only [hcount]
  by_cases hn : max 0 (s.lockcount r - 1) ≤ 0
  · rw [if_pos hn]
    have hidle' : IdleOk idle { s with lockcount := update s.lockcount r 0 } :=
      ⟨hidle.ready, hidle.lowest, hidle.others⟩
    by_cases hpend : s.list .pendingtasks = []
    · refine ⟨_, by simp [hpend], h.setLockcount _, hidle', fun hne => absurd hpend hne,
        fun ho => ho, rfl, fun _ => rfl, fun _ _ _ => rfl, hlocks 0 le_rfl hr0.1⟩
    · obtain ⟨s', hs', hset, -⟩ := schedMergepending_spec (h.setLockcount _) hidle'
      refine ⟨s', by simp [hpend, hs'], hset.placed, hset.idleOk hidle', hset.lock,
        fun ho => hset.ordered ho, hset.kept.priority, hset.kept.others, hset.others, ?_⟩
      rw [hset.kept.lockcount]
      exact hlocks 0 le_rfl hr0.1
  · rw [if_neg hn]
    refine ⟨_, rfl, h.setLockcount _, ⟨hidle.ready, hidle.lowest, hidle.others⟩,
      fun _ => ⟨r, hr, ?_⟩, fun ho => ho, rfl, fun _ => rfl, fun _ _ _ => rfl,
      hlocks _ (by omega) (by omega)⟩
    simp only [update_self]
    omega

end Operations

end BaseNx.Sched
