import BaseNx.Lib.CountingSem
import BaseNx.Lib.MachineInt
import BaseNx.Lib.Reach

/-!
# Barriers

`pthread_barrier_wait` counts the threads of a round by the value of a semaphore: the thread that
finds enough threads waiting releases them all, and the others wait. A thread that a signal wakes
runs the handler and then waits again.

The state keeps, beside the semaphore, where the threads inside the call are, and a log of the
rounds in which threads entered and returned. The main theorem is about all runs in which no thread
completes a round while a thread of the round is out of the semaphore for a signal: such a thread is
not counted, so the last one waits as well, and then all wait (`signal_strands_barrier`).
-/

namespace BaseNx.Pthread

open Lib List

universe u

/-! ## The function of the source -/

/-- `PTHREAD_BARRIER_SERIAL_THREAD` -/
def pthreadBarrierSerialThread : Int := 0x1000

/-- The barrier with the threads inside `pthread_barrier_wait`: those blocked are the waiters of the
semaphore, `interrupted` were woken by a signal, and `released` got a count and are about to return.
`joined` is the round in which a thread entered; `entries` and `returns` log the rounds of the calls
and of the results. -/
structure Barrier (τ : Type u) where
  sem : CountingSem τ
  interrupted : List τ
  released : List τ
  joined : τ → Nat
  round : Nat
  entries : List Nat
  returns : List (Nat × Int)

variable {τ : Type u}

variable (b : Barrier τ) (t : τ)

/-- `sem_wait`: the thread blocks, or goes on to its return. -/
def Barrier.semWait : Barrier τ :=
  match b.sem.wait t with
  | (true, sem) => { b with sem := sem, released := t :: b.released }
  | (false, sem) => { b with sem := sem }

variable [DecidableEq τ]

/-- A thread joins the round. -/
def Barrier.join : Barrier τ :=
  { b with joined := Function.update b.joined t b.round, entries := b.round :: b.entries }

/-- The loop `while (semcount < 0)`, and the return of the thread that completes the round. -/
def Barrier.complete : Barrier τ :=
  let (woken, sem) := b.sem.postWhileNeg (-b.sem.count).toNat
  { b with
    sem := sem
    released := woken ++ b.released
    returns := (b.round, pthreadBarrierSerialThread) :: b.returns
    round := b.round + 1 }

/-- `pthread_barrier_wait` of a barrier with this count, an `unsigned int` that is compared as an
`int`, until the thread blocks or returns -/
def pthreadBarrierWait (count : Nat) (b : Barrier τ) (t : τ) : Barrier τ :=
  let b := b.join t
  if i32 count ≤ 1 - b.sem.count then b.complete else b.semWait t

/-! ## Runs -/

/-- A thread calls the function, a signal ends its wait, it waits again after the handler, or it
returns after it got a count. -/
inductive BarrierEvent (τ : Type u)
  | enter (t : τ)
  | signal (t : τ)
  | resume (t : τ)
  | finish (t : τ)

def Barrier.apply (count : Nat) (b : Barrier τ) : BarrierEvent τ → Option (Barrier τ)
  | .enter t => some (pthreadBarrierWait count b t)
  | .signal t => some { b with sem := b.sem.release t, interrupted := t :: b.interrupted }
  | .resume t => some ({ b with interrupted := b.interrupted.erase t }.semWait t)
  | .finish t =>
    some { b with released := b.released.erase t, returns := (b.joined t, 0) :: b.returns }

/-- Each thread is at one place. -/
def Barrier.Enabled : BarrierEvent τ → Prop
  | .enter t => t ∉ b.sem.waiters ∧ t ∉ b.interrupted ∧ t ∉ b.released
  | .signal t => t ∈ b.sem.waiters
  | .resume t => t ∈ b.interrupted
  | .finish t => t ∈ b.released

/-- What the source needs on top: the thread that completes a round finds all the others blocked. -/
def Barrier.Orderly (count : Nat) (b : Barrier τ) (e : BarrierEvent τ) : Prop :=
  b.Enabled e ∧
    match e with
    | .enter _ => b.interrupted = [] ∨ b.sem.waiters.length + b.interrupted.length + 1 < count
    | _ => True

instance Barrier.decidableEnabled (b : Barrier τ)
    (e : BarrierEvent τ) : Decidable (b.Enabled e) := by
  cases e <;> unfold Barrier.Enabled <;> infer_instance

instance Barrier.decidableOrderly (count : Nat) (b : Barrier τ) (e : BarrierEvent τ) :
    Decidable (b.Orderly count e) := by
  cases e <;> unfold Barrier.Orderly <;> infer_instance

/-- The state after `pthread_barrier_init`. -/
def Barrier.init (τ : Type u) : Barrier τ := ⟨⟨0, []⟩, [], [], fun _ => 0, 0, [], []⟩

/-- The states of the runs of which every event is orderly. -/
def OrderlyBarrierRun (count : Nat) (b : Barrier τ) : Prop :=
  Reach (· = Barrier.init τ) (LabelledStep (Barrier.Orderly count) (Barrier.apply count)) b

/-! ## The invariant -/

/-- The threads of the current round, blocked or interrupted. -/
def Barrier.present : List τ := b.sem.waiters ++ b.interrupted

/-- The number of threads of a round that were released and did not return yet. -/
def Barrier.leaving (r : Nat) : Nat := b.released.countP fun t => b.joined t = r

/-- What holds between two events. -/
structure Barrier.Sound (count : Nat) (b : Barrier τ) : Prop where
  balanced : b.sem.Balanced
  nonpos : b.sem.count ≤ 0
  /-- every thread is at one place -/
  nodup : (b.present ++ b.released).Nodup
  joined : ∀ t ∈ b.present, b.joined t = b.round
  /-- the current round is not complete -/
  incomplete : b.present.length < count
  entered : ∀ r, b.entries.count r =
    if r < b.round then count else if r = b.round then b.present.length else 0
  /-- the results of the complete rounds -/
  serial : ∀ r, b.returns.count (r, pthreadBarrierSerialThread) = if r < b.round then 1 else 0
  zeros : ∀ r, b.returns.count (r, 0) + b.leaving r = if r < b.round then count - 1 else 0
  results : ∀ x ∈ b.returns, x.2 = pthreadBarrierSerialThread ∨ x.2 = 0

section Steps

variable {count : Nat} {b : Barrier τ} {t : τ}

omit [DecidableEq τ] in
theorem Barrier.Sound.waiters_length (h : b.Sound count) :
    (b.sem.waiters.length : Int) = -b.sem.count :=
  h.balanced.length_eq h.nonpos

omit [DecidableEq τ] in
/-- A thread of the round goes between the semaphore and its handler. -/
theorem Barrier.Sound.move (h : b.Sound count) {sem : CountingSem τ} {interrupted : List τ}
    (hbal : sem.Balanced) (hle : sem.count ≤ 0)
    (hperm : (sem.waiters ++ interrupted).Perm b.present) :
    Barrier.Sound count { b with sem := sem, interrupted := interrupted } where
  balanced := hbal
  nonpos := hle
  nodup := ((hperm.append_right b.released).nodup_iff).2 h.nodup
  joined t ht := h.joined t (hperm.mem_iff.1 ht)
  incomplete := hperm.length_eq.trans_lt h.incomplete
  entered r := by
    rw [Barrier.present, hperm.length_eq]
    exact h.entered r
  serial := h.serial
  zeros := h.zeros
  results := h.results

theorem serial_ne_zero : (0 : Int) ≠ pthreadBarrierSerialThread := by decide

theorem Barrier.Sound.signal (h : b.Sound count) (ht : t ∈ b.sem.waiters) :
    Barrier.Sound count
      { b with sem := b.sem.release t, interrupted := t :: b.interrupted } := by
  refine h.move (h.balanced.release ht) ?_ ?_
  · have hneg := h.balanced.neg_of_mem ht
    simp only [CountingSem.release]
    omega
  · exact (perm_middle.trans
      ((perm_cons_erase ht).symm.append_right b.interrupted)).trans (List.Perm.refl _)

omit [DecidableEq τ] in
/-- While the count is not positive, a wait blocks. -/
theorem semWait_eq (h : b.sem.count ≤ 0) (t : τ) :
    b.semWait t = { b with sem := ⟨b.sem.count - 1, t :: b.sem.waiters⟩ } := by
  rw [Barrier.semWait, CountingSem.wait_of_nonpos h]

section

variable (h : b.Sound count)
include h

theorem Barrier.Sound.resume (ht : t ∈ b.interrupted) :
    Barrier.Sound count ({ b with interrupted := b.interrupted.erase t }.semWait t) := by
  have hout : t ∉ b.sem.waiters := by
    have hnodup := (nodup_append.1 h.nodup).1
    exact fun hw => (nodup_append.1 hnodup).2.2 t hw t ht rfl
  have hsem := h.balanced.wait hout
  rw [CountingSem.wait_of_nonpos h.nonpos] at hsem
  rw [semWait_eq (b := { b with interrupted := b.interrupted.erase t }) h.nonpos]
  refine h.move hsem ?_ ?_
  · have := h.nonpos
    dsimp only
    omega
  · exact perm_middle.symm.trans ((perm_cons_erase ht).symm.append_left b.sem.waiters)

/-- A thread returns 0. -/
theorem Barrier.Sound.finish (ht : t ∈ b.released) :
    Barrier.Sound count
      { b with released := b.released.erase t, returns := (b.joined t, 0) :: b.returns } := by
  refine { h with
    nodup := h.nodup.sublist (erase_sublist.append_left b.present)
    serial := fun r => ?_
    zeros := fun r => ?_
    results := forall_mem_cons.2 ⟨.inr rfl, h.results⟩ }
  · rw [count_cons_of_ne fun heq => serial_ne_zero (congrArg Prod.snd heq)]
    exact h.serial r
  · -- the thread moves from those that are leaving to the results
    have hsplit := (perm_cons_erase ht).countP_eq fun u => b.joined u = r
    have hold := h.zeros r
    simp only [Barrier.leaving] at hold ⊢
    rw [hsplit] at hold
    by_cases hround : b.joined t = r
    · rw [countP_cons_of_pos (by simpa using hround)] at hold
      rw [hround, count_cons_self]
      omega
    · rw [countP_cons_of_neg (by simpa using hround)] at hold
      rw [count_cons_of_ne fun heq => hround (congrArg Prod.fst heq)]
      exact hold

omit h in
/-- A call does not change the round of the threads that are released. -/
theorem leaving_join (hrel : t ∉ b.released) (r : Nat) :
    b.released.countP (fun u => (b.join t).joined u = r) = b.leaving r := by
  refine countP_congr fun u hu => ?_
  have hne : u ≠ t := fun heq => hrel (heq ▸ hu)
  rw [show (b.join t).joined u = b.joined u from Function.update_of_ne hne _ _]

theorem Barrier.Sound.block (hen : b.Enabled (.enter t))
    (hlt : b.present.length + 1 < count) : Barrier.Sound count ((b.join t).semWait t) := by
  obtain ⟨hwait, hint, hrel⟩ := hen
  have hpresent : t ∉ b.present := fun hp => (mem_append.1 hp).elim hwait hint
  have hsem := h.balanced.wait hwait
  rw [CountingSem.wait_of_nonpos h.nonpos] at hsem
  rw [semWait_eq (b := b.join t) h.nonpos]
  refine
    { balanced := hsem
      nonpos := ?_
      nodup := nodup_cons.2 ⟨fun hin => (mem_append.1 hin).elim hpresent hrel, h.nodup⟩
      joined := forall_mem_cons.2 ⟨Function.update_self _ _ _, fun u hu => ?_⟩
      incomplete := hlt
      entered := fun r => ?_
      serial := h.serial
      zeros := fun r => ?_
      results := h.results }
  · have := h.nonpos
    simp only [Barrier.join]
    omega
  · exact (Function.update_of_ne (fun heq : u = t => hpresent (heq ▸ hu)) _ _).trans (h.joined u hu)
  · have hold := h.entered r
    change (b.round :: b.entries).count r =
      if r < b.round then count else if r = b.round then b.present.length + 1 else 0
    simp only [count_cons, hold, beq_iff_eq]
    split_ifs <;> omega
  · refine Eq.trans ?_ (h.zeros r)
    exact congrArg (b.returns.count (r, 0) + ·) (leaving_join hrel r)

/-- A thread that completes the round finds the others blocked, and releases them. -/
theorem Barrier.Sound.complete (hen : b.Enabled (.enter t))
    (hint : b.interrupted = []) (hlen : b.sem.waiters.length + 1 = count) :
    Barrier.Sound count (b.join t).complete := by
  obtain ⟨hwait, -, hrel⟩ := hen
  have hpost : (b.join t).sem.postWhileNeg (-(b.join t).sem.count).toNat =
      (b.sem.waiters, ⟨0, []⟩) :=
    h.balanced.postWhileNeg _ h.nonpos (Int.self_le_toNat _)
  have hpresent : b.present = b.sem.waiters := by rw [Barrier.present, hint, append_nil]
  have heq : (b.join t).complete =
      { b.join t with
        sem := ⟨0, []⟩
        released := b.sem.waiters ++ b.released
        returns := (b.round, pthreadBarrierSerialThread) :: b.returns
        round := b.round + 1 } := by
    simp only [Barrier.complete, hpost]
    rfl
  -- all that were blocked leave this round
  have hwaiters : ∀ r, b.sem.waiters.countP (fun u => (b.join t).joined u = r) =
      if r = b.round then b.sem.waiters.length else 0 := by
    have hnow : ∀ u ∈ b.sem.waiters, (b.join t).joined u = b.round := fun u hu =>
      (Function.update_of_ne (fun heq : u = t => hwait (heq ▸ hu)) _ _).trans
        (h.joined u (hpresent ▸ hu))
    intro r
    split
    · exact countP_eq_length.2 fun u hu => decide_eq_true ((hnow u hu).trans ‹r = b.round›.symm)
    · refine countP_eq_zero.2 fun u hu => ?_
      rw [decide_eq_true_eq, hnow u hu]
      exact Ne.symm ‹_›
  rw [heq]
  refine
    { balanced := ⟨nodup_nil, fun _ => rfl, fun _ => rfl⟩
      nonpos := le_refl 0
      nodup := ?_
      joined := ?_
      incomplete := ?_
      entered := fun r => ?_
      serial := fun r => ?_
      zeros := fun r => ?_
      results := forall_mem_cons.2 ⟨.inl rfl, h.results⟩ }
  · simpa only [Barrier.present, Barrier.join, hint, append_nil, nil_append, hpresent]
      using h.nodup
  · simp only [Barrier.present, Barrier.join, hint, append_nil, not_mem_nil,
      false_implies, implies_true]
  · simp only [Barrier.present, Barrier.join, hint, append_nil, length_nil]
    omega
  · have hold := h.entered r
    rw [hpresent] at hold
    change (b.round :: b.entries).count r =
      if r < b.round + 1 then count else if r = b.round + 1 then ([] ++ b.interrupted).length else 0
    simp only [count_cons, hold, beq_iff_eq, hint, nil_append, length_nil]
    split_ifs <;> omega
  · rw [count_cons, h.serial r]
    simp only [beq_iff_eq, Prod.mk.injEq, and_true]
    split_ifs <;> omega
  · have hold := h.zeros r
    rw [count_cons_of_ne fun heq => serial_ne_zero (congrArg Prod.snd heq).symm]
    simp only [Barrier.leaving, countP_append]
    rw [hwaiters, leaving_join hrel]
    split_ifs at hold ⊢ <;> omega

/-- A call keeps the invariant if nobody completes a round while a thread of it is interrupted. -/
theorem Barrier.Sound.enter (hmax : (count : Int) ≤ int32Max) (he : b.Orderly count (.enter t)) :
    Barrier.Sound count (pthreadBarrierWait count b t) := by
  obtain ⟨hen, hord⟩ := he
  have hlen := h.waiters_length
  have hpres : b.present.length = b.sem.waiters.length + b.interrupted.length :=
    length_append
  have hinc := h.incomplete
  have hcast : i32 count = count := i32_eq_self (by omega) hmax
  rw [pthreadBarrierWait, hcast]
  by_cases hfull : (count : Int) ≤ 1 - (b.join t).sem.count
  · have hfull' : (count : Int) ≤ 1 - b.sem.count := hfull
    have hint : b.interrupted = [] := by
      rcases hord with hnil | hlt
      · exact hnil
      · omega
    rw [if_pos hfull]
    refine h.complete hen hint ?_
    omega
  · have hfull' : ¬ (count : Int) ≤ 1 - b.sem.count := hfull
    rw [if_neg hfull]
    refine h.block hen ?_
    rcases hord with hnil | hlt
    · rw [hnil, length_nil] at hpres
      omega
    · omega

end

end Steps

theorem OrderlyBarrierRun.sound {count : Nat} (hcount : 1 ≤ count) (hmax : (count : Int) ≤ int32Max)
    {b : Barrier τ}
    (h : OrderlyBarrierRun count b) : b.Sound count := by
  refine Reach.labelled (P := Barrier.Sound count) ?_ ?_ h
  · rintro b rfl
    exact ⟨⟨nodup_nil, fun _ => rfl, fun _ => rfl⟩, le_refl 0, nodup_nil, nofun, hcount,
      fun _ => (ite_self _).symm, fun _ => rfl, fun _ => rfl, nofun⟩
  · intro b e hb he
    cases e with
    | enter t => exact ⟨_, rfl, hb.enter hmax he⟩
    | signal t => exact ⟨_, rfl, hb.signal he.1⟩
    | resume t => exact ⟨_, rfl, hb.resume he.1⟩
    | finish t => exact ⟨_, rfl, hb.finish he.1⟩

/-- In every state of a run, a result was given only after `count` threads of its round entered; of
the threads of a complete round one got `PTHREAD_BARRIER_SERIAL_THREAD` and the others got or are
about to get 0; and fewer than `count` threads are blocked. -/
theorem barrier_releases_complete_rounds (count : Nat) (hcount : 1 ≤ count)
    (hmax : (count : Int) ≤ int32Max) (b : Barrier τ) (h : OrderlyBarrierRun count b) :
    (∀ x ∈ b.returns, b.entries.count x.1 = count ∧
      (x.2 = pthreadBarrierSerialThread ∨ x.2 = 0)) ∧
    (∀ r < b.round, b.entries.count r = count ∧
      b.returns.count (r, pthreadBarrierSerialThread) = 1 ∧
      b.returns.count (r, 0) + b.leaving r = count - 1) ∧
    b.sem.waiters.length < count := by
  have hs := h.sound hcount hmax
  refine ⟨?_, fun r hr => ⟨?_, ?_, ?_⟩, ?_⟩
  · rintro ⟨r, v⟩ hx
    have hval := hs.results _ hx
    have hlt : r < b.round := by
      -- a result of another round would count
      by_contra hge
      have hpos : 0 < b.returns.count (r, v) := count_pos_iff.2 hx
      have hserial := hs.serial r
      have hzeros := hs.zeros r
      rw [if_neg hge] at hserial hzeros
      rcases hval with rfl | rfl <;> omega
    exact ⟨(hs.entered r).trans (if_pos hlt), hval⟩
  · exact (hs.entered r).trans (if_pos hr)
  · exact (hs.serial r).trans (if_pos hr)
  · exact (hs.zeros r).trans (if_pos hr)
  · have hlen : b.present.length = b.sem.waiters.length + b.interrupted.length :=
      length_append
    have := hs.incomplete
    omega

/-- Three threads and a signal in the first of two rounds. -/
def barrierEvents : List (BarrierEvent Nat) :=
  [.enter 1, .signal 1, .enter 2, .resume 1, .enter 3, .finish 1, .enter 1, .finish 2]

theorem barrier_releases_complete_rounds_sample :
    let b := after (Barrier.apply 3) (Barrier.init Nat) barrierEvents
    b.returns = [(0, 0), (0, 0), (0, pthreadBarrierSerialThread)] ∧
      (∀ r < b.round, b.entries.count r = 3 ∧
        b.returns.count (r, pthreadBarrierSerialThread) = 1 ∧
        b.returns.count (r, 0) + b.leaving r = 3 - 1) ∧
      b.sem.waiters.length < 3 :=
  ⟨by decide, (barrier_releases_complete_rounds 3 (by decide) (by decide) _
    (Reach.after barrierEvents (.start rfl) (by decide))).2⟩

/-- A signal wakes the first thread of a barrier for two, the second thread enters before the first
one waits again, and both are blocked. The first thread of a barrier for `2 ^ 31` returns at
once. -/
theorem signal_strands_barrier :
    let events : List (BarrierEvent Nat) := [.enter 1, .signal 1, .enter 2, .resume 1]
    let b := after (Barrier.apply 2) (Barrier.init Nat) events
    AllSteps Barrier.Enabled (Barrier.apply 2) (Barrier.init Nat) events ∧
      b.sem.waiters = [1, 2] ∧ b.interrupted = [] ∧ b.released = [] ∧
      (pthreadBarrierWait (2 ^ 31) (Barrier.init Nat) 1).returns =
      [(0, pthreadBarrierSerialThread)] := by
  decide

end BaseNx.Pthread
