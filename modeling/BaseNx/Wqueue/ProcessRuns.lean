import BaseNx.Lib.Reach
import BaseNx.Wqueue.Process

/-!
# Kernel work runs once

Every interleaving of `work_queue`, `work_cancel` and the worker threads on one queue. A call is
pending, invoked, cancelled or queued again, and it is exactly one of these (`Sound.once`). A call
that is due at a scan is invoked by it, or one of the items in front of it is; items are added at
the end, so a call does not wait for more scans than there were items in front of it (`Awaits`).

The sleep at the end of a pass is not longer than the time left for any item, as long as one sum
does not wrap: `elapsed` is increased by the length of the pass before it is compared with the delay
(`wrapped_elapsed_oversleeps`).
-/

namespace BaseNx.Wqueue

open Lib List
open scoped List
open Function (update update_of_ne update_self)

universe u v

variable {α : Type u} {ω : Type v}

/-! ## Runs -/

/-- What tasks, interrupt handlers and worker threads do. -/
inductive WorkEvent (α : Type u) (ω : Type v)
  | tick (n : Nat)
  | queue (a : α) (worker arg delay : Nat)
  | cancel (a : α)
  | process (w : ω)
  | callbackDone (w : ω)
  | wake (w : ω)

/-- One event; `period` is the period that each thread passes to `work_process`. -/
def WorkQueue.apply [DecidableEq α] [DecidableEq ω] (period : ω → Nat) (s : WorkQueue α ω) :
    WorkEvent α ω → Option (WorkQueue α ω)
  | .tick n => some { s with now := s.now + n }
  | .queue a worker arg delay => some (workQqueue s a worker arg delay)
  | .cancel a => some (workQcancel s a).2
  | .process w => some (workProcess s (period w) w)
  | .callbackDone w =>
    match s.phase w with
    | .running stick next => some (s.pass (period w) w stick next)
    | _ => none
  | .wake w => some (s.setPhase w .outside)

variable (s : WorkQueue α ω) (e : WorkEvent α ω)

/-- A delay is a `clock_t`, and threads do what their phase allows. -/
def WorkQueue.Enabled : WorkEvent α ω → Prop
  | .queue _ _ _ delay => delay < 4294967296
  | .process w => s.phase w = .outside
  | .callbackDone w => s.phase w ≠ .outside ∧ s.phase w ≠ .sleeping ∧ s.phase w ≠ .waiting
  | .wake w => s.phase w = .sleeping ∨ s.phase w = .waiting
  | _ => True

/-- The sum of the ticks since an item was queued and since the pass began does not wrap. -/
def WorkQueue.NoWrap (stick : Nat) : Prop :=
  ∀ a ∈ s.queue, elapsed s.clockSystimer (s.item a) < (s.item a).delay →
    elapsed s.clockSystimer (s.item a) + sub32 s.clockSystimer stick < 4294967296

/-- What the source needs on top. -/
def WorkQueue.Orderly : Prop :=
  s.Enabled e ∧
    match e with
    | .callbackDone w =>
      match s.phase w with
      | .running stick _ => s.NoWrap stick
      | _ => True
    | _ => True

instance WorkQueue.decidableEnabled (s : WorkQueue α ω) (e : WorkEvent α ω) :
    Decidable (s.Enabled e) := by
  cases e <;> unfold WorkQueue.Enabled <;> infer_instance

instance WorkQueue.decidableNoWrap (s : WorkQueue α ω) (stick : Nat) : Decidable (s.NoWrap stick) :=
  inferInstanceAs (Decidable (∀ a ∈ s.queue, _))

instance WorkQueue.decidableOrderly (s : WorkQueue α ω) (e : WorkEvent α ω) :
    Decidable (s.Orderly e) := by
  cases e <;> unfold WorkQueue.Orderly <;> dsimp only <;> try split
  all_goals infer_instance

/-- An empty queue, no thread of which is in a pass. -/
def WorkQueue.init (α : Type u) (ω : Type v) (now : Nat) : WorkQueue α ω :=
  ⟨now, [], fun _ => ⟨none, 0, 0, 0, 0⟩, fun _ => .outside, [], [], [], [], [], []⟩

/-- The states of the runs of which every event meets `ok`. -/
def WorkRun [DecidableEq α] [DecidableEq ω] (period : ω → Nat)
    (ok : WorkQueue α ω → WorkEvent α ω → Prop) (s : WorkQueue α ω) : Prop :=
  Reach (fun s => ∃ now, s = WorkQueue.init α ω now)
    (LabelledStep ok (WorkQueue.apply period)) s

/-! ## What a pass does -/

theorem finish_eq [DecidableEq ω] (s : WorkQueue α ω) (period : Nat) (w : ω) (stick next : Nat) :
    ∃ p, s.finish period w stick next = s.setPhase w p ∨
      s.finish period w stick next =
        { s.setPhase w p with
          sleeps := (min next (sub32 period (sub32 s.clockSystimer stick)),
            s.queue.map s.ticksLeft) :: s.sleeps } := by
  rw [WorkQueue.finish]
  split
  · exact ⟨_, .inl rfl⟩
  · dsimp only
    split
    · exact ⟨_, .inr rfl⟩
    · exact ⟨_, .inl rfl⟩

/-! ## Every call is booked once -/

/-- The calls whose item is on the queue. -/
def WorkQueue.pending : List Nat := s.queue.map fun a => (s.item a).serial

/-- The calls that were invoked, cancelled or queued again. -/
def WorkQueue.settled : List Nat :=
  s.invoked.map (·.serial) ++ (s.cancelled ++ s.requeued)

/-- The item `w` holds what the call `c` gave. -/
structure Work.Holds (w : Work) (c : QueueCall) : Prop where
  worker : w.worker = some c.worker
  arg : w.arg = c.arg
  delay : w.delay = c.delay
  qtime : w.qtime = u32 c.time
  delay_lt : c.delay < 4294967296

/-- The invocation `v` is of the call `c`, and not early. -/
structure Invocation.Serves (v : Invocation) (c : QueueCall) : Prop where
  worker : v.worker = c.worker
  arg : v.arg = c.arg
  time : c.time + c.delay ≤ v.time

/-- The call `c`, with number `n`, was made before the scan and was due at it. -/
def Scan.Due (p : Scan) (n : Nat) (c : QueueCall) : Prop :=
  n < p.calls ∧ c.delay ≤ (p.time - c.time) % 4294967296

instance Scan.decidableDue (p : Scan) (n : Nat) (c : QueueCall) : Decidable (p.Due n c) :=
  inferInstanceAs (Decidable (_ ∧ _))

/-- The number of scans at which a call was due. -/
def WorkQueue.dueScans (s : WorkQueue α ω) (n : Nat) (c : QueueCall) : Nat :=
  s.scans.countP fun p => p.Due n c

/-- The item `a` of the queue is there for the call `c`. There were scans at which the call was due,
but for each of them one of the items in front of it has gone, and none of them came to the end of
the list. -/
structure WorkQueue.Awaits [DecidableEq α] (s : WorkQueue α ω) (a : α) (c : QueueCall) : Prop where
  call : s.calls[(s.item a).serial]? = some c
  holds : (s.item a).Holds c
  turn : s.dueScans (s.item a).serial c + s.queue.idxOf a ≤ c.ahead
  unfinished : ∀ p ∈ s.scans, p.finished = true → ¬ p.Due (s.item a).serial c

/-- What holds in every run, also while the item `x` is taken from the queue to be queued again. -/
structure WorkQueue.Sound [DecidableEq α] (x : Option α) (s : WorkQueue α ω) : Prop where
  nodup : s.queue.Nodup
  /-- an item with a worker is on the queue -/
  linked : ∀ a, (s.item a).worker ≠ none → a ∈ s.queue ∨ x = some a
  /-- every call is in one place -/
  once : s.pending ++ s.settled ~ range s.calls.length
  items : ∀ a ∈ s.queue, ∃ c, s.Awaits a c
  serves : ∀ v ∈ s.invoked, ∃ c, s.calls[v.serial]? = some c ∧ v.Serves c
  past : ∀ c ∈ s.calls, c.time ≤ s.now
  scans : ∀ p ∈ s.scans, p.calls ≤ s.calls.length

variable {c : QueueCall} {n : Nat}

/-- The ticks since the call, as the clock counts them. -/
theorem Work.Holds.elapsed {w : Work} (h : w.Holds c) {now : Nat} (hpast : c.time ≤ now) :
    Wqueue.elapsed (u32 now) w = (now - c.time) % 4294967296 := by
  rw [Wqueue.elapsed, h.qtime, sub32_u32 hpast]

section Steps

variable [DecidableEq α] {s t : WorkQueue α ω} {a b : α} {x : Option α}

theorem idxOf_erase_le : ∀ (l : List α), a ≠ b → (l.erase b).idxOf a ≤ l.idxOf a := by
  intro l hne
  induction l with
  | nil => exact le_refl _
  | cons x rest ih =>
    by_cases hx : x = b
    · rw [hx, erase_cons_head, idxOf_cons_ne rest hne.symm]
      exact Nat.le_succ _
    · rw [erase_cons_tail (by simpa using hx), idxOf_cons, idxOf_cons]
      cases x == a with
      | true => exact le_refl _
      | false => exact Nat.succ_le_succ ih

/-- When an item in front goes, the others move up. -/
theorem idxOf_erase_lt : ∀ (l : List α), l.idxOf b < l.idxOf a →
    (l.erase b).idxOf a < l.idxOf a := by
  intro l
  induction l with
  | nil => exact fun h => absurd h (lt_irrefl _)
  | cons x rest ih =>
    intro h
    by_cases hxa : x = a
    · rw [hxa, idxOf_cons_self] at h
      exact absurd h (Nat.not_lt_zero _)
    · rw [idxOf_cons_ne rest hxa] at h ⊢
      by_cases hxb : x = b
      · rw [hxb, erase_cons_head]
        exact Nat.lt_succ_self _
      · rw [idxOf_cons_ne rest hxb] at h
        rw [erase_cons_tail (by simpa using hxb), idxOf_cons_ne _ hxa]
        exact Nat.succ_lt_succ (ih (Nat.lt_of_succ_lt_succ h))

theorem WorkQueue.Sound.worker (h : s.Sound x) (ha : a ∈ s.queue) : (s.item a).worker ≠ none := by
  obtain ⟨c, hc⟩ := h.items a ha
  rw [hc.holds.worker]
  exact nofun

theorem WorkQueue.Sound.due_now_iff (h : s.Sound x) (hc : s.Awaits a c) (finished : Bool) :
    (⟨s.now, s.calls.length, finished⟩ : Scan).Due (s.item a).serial c ↔
      (s.item a).delay ≤ elapsed s.clockSystimer (s.item a) := by
  rw [WorkQueue.clockSystimer, hc.holds.elapsed (h.past c (mem_of_getElem? hc.call)),
    hc.holds.delay]
  exact ⟨And.right, fun hle => ⟨(List.getElem?_eq_some_iff.1 hc.call).1, hle⟩⟩

/-- An item leaves the queue, and its call is settled; a scan that does this does not come to the
end of the list. -/
theorem WorkQueue.Sound.remove (h : s.Sound none) (ha : a ∈ s.queue) (hnow : t.now = s.now)
    (hqueue : t.queue = s.queue.erase a) (hitem : ∀ b, b ≠ a → t.item b = s.item b)
    (hself : (t.item a).worker = none ∨ x = some a) (hcalls : t.calls = s.calls)
    (hsettled : t.settled ~ (s.item a).serial :: s.settled)
    (hserves : ∀ v ∈ t.invoked, ∃ c, s.calls[v.serial]? = some c ∧ v.Serves c)
    (hscans : ∀ p ∈ t.scans, p.calls ≤ s.calls.length ∧ (p.finished = true → p ∈ s.scans))
    (hturn : ∀ b ∈ s.queue, b ≠ a → ∀ c, s.Awaits b c →
      t.dueScans (s.item b).serial c + (s.queue.erase a).idxOf b ≤ c.ahead) : t.Sound x := by
  -- the items that stay are others, so they are as they were
  have hstay : ∀ b ∈ s.queue.erase a, b ∈ s.queue ∧ b ≠ a := fun b hb =>
    ⟨mem_of_mem_erase hb, fun heq => h.nodup.not_mem_erase (heq ▸ hb)⟩
  have hpending : t.pending = (s.queue.erase a).map fun b => (s.item b).serial := by
    rw [WorkQueue.pending, hqueue]
    exact map_congr_left fun b hb => by rw [hitem b (hstay b hb).2]
  refine ⟨?_, fun b hb => ?_, ?_, fun b hb => ?_, hcalls ▸ hserves, ?_, fun p hp => ?_⟩
  · rw [hqueue]
    exact h.nodup.erase a
  · by_cases hne : b = a
    · subst hne
      exact .inr (hself.resolve_left hb)
    · rw [hitem b hne] at hb
      rw [hqueue]
      exact .inl ((mem_erase_of_ne hne).2 ((h.linked b hb).resolve_right nofun))
  · have hsplit : s.pending ~ (s.item a).serial :: t.pending := by
      rw [hpending]
      exact (perm_cons_erase ha).map fun b => (s.item b).serial
    calc t.pending ++ t.settled
      _ ~ t.pending ++ (s.item a).serial :: s.settled := hsettled.append_left _
      _ ~ (s.item a).serial :: t.pending ++ s.settled := perm_middle
      _ ~ s.pending ++ s.settled := (hsplit.append_right _).symm
      _ ~ range t.calls.length := by rw [hcalls]; exact h.once
  · rw [hqueue] at hb
    obtain ⟨hmem, hne⟩ := hstay b hb
    obtain ⟨c, hc⟩ := h.items b hmem
    have hsame := hitem b hne
    exact ⟨c, by rw [hsame, hcalls]; exact hc.call, hsame ▸ hc.holds,
      by rw [hsame, hqueue]; exact hturn b hmem hne c hc,
      by rw [hsame]; exact fun p hp hfin => hc.unfinished p ((hscans p hp).2 hfin) hfin⟩
  · rw [hcalls, hnow]
    exact h.past
  · rw [hcalls]
    exact (hscans p hp).1

/-- An item leaves the queue between two scans, and the items behind it move up. -/
theorem WorkQueue.Awaits.turn_erase (hc : s.Awaits b c) (hne : b ≠ a) :
    s.dueScans (s.item b).serial c + (s.queue.erase a).idxOf b ≤ c.ahead := by
  have hturn := hc.turn
  have hle := idxOf_erase_le s.queue hne
  omega

/-- The calls so far keep their numbers. -/
theorem enqueue_calls_old (hc : s.calls[n]? = some c) (a : α) (worker arg delay : Nat) :
    (s.enqueue a worker arg delay).calls[n]? = some c :=
  (getElem?_append_left (List.getElem?_eq_some_iff.1 hc).1).trans hc

/-- An item that is not queued is added, for a new call that waits behind the items that are
there. -/
theorem WorkQueue.Sound.enqueue (h : s.Sound (some a)) (ha : a ∉ s.queue)
    {worker arg delay : Nat} (hdelay : delay < 4294967296) :
    (s.enqueue a worker arg delay).Sound none := by
  have hother : ∀ b, b ≠ a → (s.enqueue a worker arg delay).item b = s.item b :=
    fun b hb => update_of_ne hb _ _
  have hne : ∀ b ∈ s.queue, b ≠ a := fun b hb => ne_of_mem_of_not_mem hb ha
  have hself : (s.enqueue a worker arg delay).item a =
      ⟨some worker, arg, delay, s.clockSystimer, s.calls.length⟩ := update_self _ _ _
  have hcalls : (s.enqueue a worker arg delay).calls =
      s.calls ++ [⟨worker, arg, delay, s.now, s.queue.length⟩] := rfl
  refine ⟨?_, fun b hb => .inl ?_, ?_, fun b hb => ?_, fun v hv => ?_, ?_, fun p hp => ?_⟩
  · exact h.nodup.append (nodup_singleton a) (disjoint_singleton.2 ha)
  · by_cases hba : b = a
    · exact mem_append.2 (.inr (mem_singleton.2 hba))
    · rw [hother b hba] at hb
      refine mem_append.2 (.inl ((h.linked b hb).resolve_right fun heq => ?_))
      exact hba (Option.some.inj heq).symm
  · have hpending : (s.enqueue a worker arg delay).pending = s.pending ++ [s.calls.length] := by
      rw [WorkQueue.pending, show (s.enqueue a worker arg delay).queue = s.queue ++ [a] from rfl,
        map_append, map_singleton, hself]
      exact congrArg (· ++ [s.calls.length])
        (map_congr_left fun b hb => by rw [hother b (hne b hb)])
    rw [hpending, hcalls, length_append, length_singleton, range_succ]
    calc s.pending ++ [s.calls.length] ++ s.settled
      _ ~ s.calls.length :: s.pending ++ s.settled :=
          (perm_append_singleton _ _).append_right _
      _ ~ s.calls.length :: range s.calls.length := h.once.cons _
      _ ~ range s.calls.length ++ [s.calls.length] := (perm_append_singleton _ _).symm
  · rcases mem_append.1 hb with hb | hb
    · obtain ⟨c, hc⟩ := h.items b hb
      have hsame := hother b (hne b hb)
      refine ⟨c, by rw [hsame]; exact enqueue_calls_old hc.call a worker arg delay,
        hsame ▸ hc.holds, ?_, by rw [hsame]; exact hc.unfinished⟩
      change s.dueScans _ c + (s.queue ++ [a]).idxOf b ≤ _
      rw [hsame, idxOf_append_of_mem hb]
      exact hc.turn
    · obtain rfl := mem_singleton.1 hb
      -- no scan so far knows the new call
      have hnew : ∀ c, ∀ p ∈ s.scans, ¬ p.Due s.calls.length c :=
        fun c p hp hdue => absurd hdue.1 (not_lt.2 (h.scans p hp))
      refine ⟨⟨worker, arg, delay, s.now, s.queue.length⟩, ?_, ?_, ?_, ?_⟩ <;> rw [hself]
      · exact getElem?_concat_length
      · exact ⟨rfl, rfl, rfl, rfl, hdelay⟩
      · change s.scans.countP _ + (s.queue ++ [b]).idxOf b ≤ s.queue.length
        rw [countP_eq_zero.2 fun p hp => by simpa using hnew _ p hp,
          idxOf_append_of_notMem ha, idxOf_cons_self]
        omega
      · exact fun p hp _ => hnew _ p hp
  · obtain ⟨c, hc, hserves⟩ := h.serves v hv
    exact ⟨c, enqueue_calls_old hc a worker arg delay, hserves⟩
  · exact forall_mem_append.2 ⟨h.past, forall_mem_singleton.2 (le_refl _)⟩
  · rw [hcalls, length_append]
    exact (h.scans p hp).trans (Nat.le_add_right _ _)

section

variable (h : s.Sound none)
include h

theorem WorkQueue.Sound.cancel (a : α) : (workQcancel s a).2.Sound none := by
  rw [workQcancel]
  split
  · rename_i hworker
    refine h.remove ((h.linked a hworker).resolve_right nofun) rfl rfl
      (fun b hb => update_of_ne hb _ _) (.inl ?_) rfl perm_middle h.serves
      (fun p hp => ⟨h.scans p hp, fun _ => hp⟩) fun b _ hne c hc => hc.turn_erase hne
    change (update s.item a _ a).worker = none
    rw [update_self]
  · exact h

theorem WorkQueue.Sound.queue (a : α) {worker arg delay : Nat} (hdelay : delay < 4294967296) :
    (workQqueue s a worker arg delay).Sound none := by
  have hunqueued : (s.unqueue a).Sound (some a) ∧ a ∉ (s.unqueue a).queue := by
    rw [WorkQueue.unqueue]
    split
    · rename_i hworker
      refine ⟨h.remove ((h.linked a hworker).resolve_right nofun) rfl rfl
        (fun _ _ => rfl) (.inr rfl)
        rfl ?_ h.serves (fun p hp => ⟨h.scans p hp, fun _ => hp⟩) fun b _ hne c hc => ?_,
        h.nodup.not_mem_erase⟩
      · rw [WorkQueue.settled, WorkQueue.settled, ← append_assoc, ← append_assoc]
        exact perm_middle
      · exact hc.turn_erase hne
    · rename_i hnone
      exact ⟨{ h with linked := fun b hb => (h.linked b hb).imp_right nofun },
        fun ha => hnone (h.worker ha)⟩
  exact hunqueued.1.enqueue hunqueued.2 hdelay

/-- A callback is started for the first item that is ready. -/
theorem WorkQueue.Sound.invoke (ha : a ∈ s.queue)
    (hready : (s.item a).delay ≤ elapsed s.clockSystimer (s.item a))
    (hfirst : ∀ b ∈ s.queue, (s.item b).delay ≤ elapsed s.clockSystimer (s.item b) →
      s.queue.idxOf a ≤ s.queue.idxOf b) {worker : Nat}
      (hworker : (s.item a).worker = some worker) :
    (((s.logScan false).dqRem a).invoke a worker).Sound none := by
  refine h.remove ha rfl rfl (fun b hb => update_of_ne hb _ _) (.inl ?_) rfl (List.Perm.refl _)
    (forall_mem_cons.2 ⟨?_, h.serves⟩)
    (forall_mem_cons.2 ⟨⟨le_refl _, nofun⟩, fun p hp => ⟨h.scans p hp, fun _ => hp⟩⟩) ?_
  · change (update s.item a _ a).worker = none
    rw [update_self]
  · obtain ⟨c, hc⟩ := h.items a ha
    refine ⟨c, hc.call, Option.some.inj (hworker.symm.trans hc.holds.worker), hc.holds.arg, ?_⟩
    -- the clock counts no more ticks than have passed
    have hpast := h.past c (mem_of_getElem? hc.call)
    rw [WorkQueue.clockSystimer, hc.holds.elapsed hpast, hc.holds.delay] at hready
    have hle := hready.trans (Nat.mod_le _ _)
    change c.time + c.delay ≤ s.now
    omega
  · intro b hb hne c hc
    change countP _ (_ :: s.scans) + (s.queue.erase a).idxOf b ≤ c.ahead
    have hturn := hc.turn
    rw [WorkQueue.dueScans] at hturn
    rw [countP_cons]
    split
    · -- the item is due, so the one that goes is in front of it
      rename_i hdue
      have hdue := (h.due_now_iff hc false).1 (by simpa using hdue)
      have hlt : s.queue.idxOf a < s.queue.idxOf b :=
        lt_of_le_of_ne (hfirst b hb hdue) fun heq => hne ((idxOf_inj ha).1 heq).symm
      have := idxOf_erase_lt s.queue hlt
      omega
    · have := idxOf_erase_le s.queue hne
      omega

theorem WorkQueue.Sound.logScan
    (hnone : ∀ a ∈ s.queue, elapsed s.clockSystimer (s.item a) < (s.item a).delay) :
    (s.logScan true).Sound none := by
  refine { h with
    items := fun a ha => ?_
    scans := forall_mem_cons.2 ⟨le_refl _, h.scans⟩ }
  obtain ⟨c, hc⟩ := h.items a ha
  have hnot : ¬ (⟨s.now, s.calls.length, true⟩ : Scan).Due (s.item a).serial c := fun hdue =>
    absurd ((h.due_now_iff hc true).1 hdue) (not_le.2 (hnone a ha))
  refine ⟨c, hc.call, hc.holds, ?_, forall_mem_cons.2 ⟨fun _ => hnot, hc.unfinished⟩⟩
  have hcount : (s.logScan true).dueScans (s.item a).serial c = s.dueScans (s.item a).serial c :=
    countP_cons_of_neg (by simpa using hnot)
  change (s.logScan true).dueScans (s.item a).serial c + s.queue.idxOf a ≤ c.ahead
  rw [hcount]
  exact hc.turn

omit h in
theorem WorkQueue.Sound.init (now : Nat) : (WorkQueue.init α ω now).Sound none :=
  ⟨nodup_nil, fun _ h => absurd rfl h, List.Perm.refl _, nofun, nofun, nofun, nofun⟩

theorem WorkQueue.Sound.tick (n : Nat) : { s with now := s.now + n }.Sound none :=
  { h with
    items := fun a ha => (h.items a ha).imp fun _ hc => { hc with }
    past := fun c hc => (h.past c hc).trans (Nat.le_add_right _ _) }

variable [DecidableEq ω]

theorem WorkQueue.Sound.setPhase (w : ω) (p : Phase) : (s.setPhase w p).Sound none :=
  { h with items := fun a ha => (h.items a ha).imp fun _ hc => { hc with } }

section

variable (period : Nat) (w : ω) (stick next : Nat)

theorem WorkQueue.Sound.finish : (s.finish period w stick next).Sound none := by
  obtain ⟨p, heq | heq⟩ := finish_eq s period w stick next
  · rw [heq]
    exact h.setPhase w p
  · rw [heq]
    exact { h with items := fun a ha => (h.items a ha).imp fun _ hc => { hc with } }

/-- A pass starts the callback of the first item that is ready, or comes to the end of the list with
no item ready. -/
theorem WorkQueue.Sound.pass_cases :
    (∃ a worker next', a ∈ s.queue ∧ (s.item a).worker = some worker ∧
      (s.item a).delay ≤ elapsed s.clockSystimer (s.item a) ∧
      (∀ b ∈ s.queue, (s.item b).delay ≤ elapsed s.clockSystimer (s.item b) →
        s.queue.idxOf a ≤ s.queue.idxOf b) ∧
      s.pass period w stick next =
        (((s.logScan false).dqRem a).invoke a worker).setPhase w (.running stick next')) ∨
    ∃ next', (∀ a ∈ s.queue, elapsed s.clockSystimer (s.item a) < (s.item a).delay ∧
        next' ≤ remaining s.clockSystimer stick (s.item a)) ∧
      s.pass period w stick next = (s.logScan true).finish period w stick next' := by
  rw [WorkQueue.pass]
  cases hfound : (scan s.clockSystimer stick s.item s.queue next).1 with
  | none => exact .inr ⟨_, (scan_none s.queue hfound).2, rfl⟩
  | some a =>
    obtain ⟨hmem, hready, hfirst⟩ := scan_some s.queue hfound
    obtain ⟨worker, hworker⟩ := Option.ne_none_iff_exists'.1 (h.worker hmem)
    refine .inl ⟨a, worker, (scan s.clockSystimer stick s.item s.queue next).2, hmem, hworker,
      hready, hfirst, ?_⟩
    dsimp only
    rw [hworker]

theorem WorkQueue.Sound.pass : (s.pass period w stick next).Sound none := by
  rcases h.pass_cases period w stick next with
    ⟨a, worker, next', hmem, hworker, hready, hfirst, heq⟩ | ⟨next', hnone, heq⟩
  · rw [heq]
    exact (h.invoke hmem hready hfirst hworker).setPhase w _
  · rw [heq]
    exact (h.logScan fun a ha => (hnone a ha).1).finish period w stick next'

end

theorem WorkQueue.Sound.apply (period : ω → Nat) {e : WorkEvent α ω} (hok : s.Enabled e) :
    ∃ t, s.apply period e = some t ∧ t.Sound none := by
  cases e with
  | tick n => exact ⟨_, rfl, h.tick n⟩
  | queue a worker arg delay => exact ⟨_, rfl, h.queue a hok⟩
  | cancel a => exact ⟨_, rfl, h.cancel a⟩
  | process w => exact ⟨_, rfl, h.pass (period w) w s.clockSystimer (period w)⟩
  | callbackDone w =>
    cases hphase : s.phase w with
    | running stick next =>
      exact ⟨_, by simp only [WorkQueue.apply, hphase], h.pass (period w) w stick next⟩
    | outside => exact absurd hphase hok.1
    | sleeping => exact absurd hphase hok.2.1
    | waiting => exact absurd hphase hok.2.2
  | wake w => exact ⟨_, rfl, h.setPhase w .outside⟩

end

variable [DecidableEq ω] {e : WorkEvent α ω} {period : ω → Nat}

theorem WorkRun.sound (h : WorkRun period WorkQueue.Enabled s) : s.Sound none := by
  refine Reach.labelled ?_ ?_ h
  · rintro _ ⟨now, rfl⟩
    exact .init now
  · exact fun s e hs he => hs.apply period he

/-! ## The sleep at the end of a pass -/

/-- No sleep that was requested is longer than the ticks left for an item of the queue. -/
def WorkQueue.Punctual (s : WorkQueue α ω) : Prop :=
  ∀ p ∈ s.sleeps, ∀ left ∈ p.2, p.1 ≤ left

theorem WorkQueue.Punctual.pass (hs : s.Sound none) (h : s.Punctual) (period : Nat) (w : ω)
    (stick next : Nat) (hwrap : s.NoWrap stick) : (s.pass period w stick next).Punctual := by
  rcases hs.pass_cases period w stick next with
    ⟨a, worker, next', -, -, -, -, heq⟩ | ⟨next', hnone, heq⟩
  · rw [heq]
    exact h
  · rw [heq]
    obtain ⟨p, hfin | hfin⟩ := finish_eq (s.logScan true) period w stick next'
    · rw [hfin]
      exact h
    · rw [hfin]
      intro q hq left hleft
      rcases mem_cons.1 hq with rfl | hq
      · obtain ⟨a, ha, rfl⟩ := mem_map.1 hleft
        obtain ⟨c, hc⟩ := hs.items a ha
        obtain ⟨hlate, hnext⟩ := hnone a ha
        have hdelay : (s.item a).delay < 4294967296 := hc.holds.delay ▸ hc.holds.delay_lt
        calc min next' _ ≤ next' := min_le_left _ _
          _ ≤ remaining s.clockSystimer stick (s.item a) := hnext
          _ ≤ (s.item a).delay - elapsed s.clockSystimer (s.item a) :=
              remaining_le hdelay (hwrap a ha hlate)
      · exact h q hq left hleft

omit [DecidableEq α] [DecidableEq ω] in
/-- At the beginning of a pass there is nothing to add. -/
theorem WorkQueue.noWrap_start (s : WorkQueue α ω) : s.NoWrap s.clockSystimer := by
  intro a _ _
  have hzero : sub32 s.clockSystimer s.clockSystimer = 0 := by
    rw [WorkQueue.clockSystimer, sub32_eq_self (u32_lt s.now) (Nat.le_refl _)]
    exact Nat.sub_self _
  rw [hzero]
  exact u32_lt _

theorem WorkQueue.Punctual.apply (hs : s.Sound none) (h : s.Punctual) (period : ω → Nat)
    (hok : s.Orderly e) (ht : s.apply period e = some t) : t.Punctual := by
  cases e with
  | tick n =>
    cases ht
    exact h
  | queue a worker arg delay =>
    cases ht
    change ∀ p ∈ (s.unqueue a).sleeps, _
    rw [WorkQueue.unqueue]
    split <;> exact h
  | cancel a =>
    cases ht
    rw [workQcancel]
    split <;> exact h
  | process w =>
    cases ht
    exact h.pass hs (period w) w _ _ s.noWrap_start
  | callbackDone w =>
    cases hphase : s.phase w with
    | running stick next =>
      simp only [WorkQueue.apply, hphase] at ht
      cases ht
      have hwrap := hok.2
      simp only [hphase] at hwrap
      exact h.pass hs (period w) w stick next hwrap
    | outside => exact absurd hphase hok.1.1
    | sleeping => exact absurd hphase hok.1.2.1
    | waiting => exact absurd hphase hok.1.2.2
  | wake w =>
    cases ht
    exact h

theorem WorkRun.punctual (h : WorkRun period WorkQueue.Orderly s) : s.Punctual := by
  have hboth : s.Sound none ∧ s.Punctual := by
    refine Reach.labelled (P := fun s => s.Sound none ∧ s.Punctual) ?_ ?_ h
    · rintro _ ⟨now, rfl⟩
      exact ⟨.init now, nofun⟩
    · rintro s e ⟨hs, hp⟩ he
      obtain ⟨t, ht, hsound⟩ := hs.apply period he.1
      exact ⟨t, ht, hsound, hp.apply hs period he ht⟩
  exact hboth.2

end Steps

/-! ## What a caller of `work_queue` sees -/

/-- The number of invocations of a call. -/
def WorkQueue.invocations (s : WorkQueue α ω) (n : Nat) : Nat :=
  s.invoked.countP fun v => v.serial = n

/-- The worker threads have run: a scan at which the call was due came to the end of the list, or
there were more scans at which it was due than items in front of it. -/
def WorkQueue.WorkersRan (s : WorkQueue α ω) (n : Nat) (c : QueueCall) : Prop :=
  (∃ p ∈ s.scans, p.finished = true ∧ p.Due n c) ∨ c.ahead < s.dueScans n c

/-- Work runs once and never early. -/
structure WorkQueue.RunsOnce (s : WorkQueue α ω) : Prop where
  queued : ∀ a, a ∈ s.queue ↔ (s.item a).worker ≠ none
  at_most : ∀ n, s.invocations n ≤ 1
  serves : ∀ v ∈ s.invoked, ∃ c, s.calls[v.serial]? = some c ∧ v.Serves c
  exactly : ∀ n c, s.calls[n]? = some c → n ∉ s.cancelled → n ∉ s.requeued → s.WorkersRan n c →
    s.invocations n = 1
  cancelled : ∀ n ∈ s.cancelled, s.invocations n = 0

section RunsOnce

variable [DecidableEq α] {s : WorkQueue α ω}

omit [DecidableEq α] in
theorem invocations_eq_count (s : WorkQueue α ω) (n : Nat) :
    s.invocations n = (s.invoked.map (·.serial)).count n := by
  rw [count, countP_map]
  exact countP_congr fun v _ => by simp

/-- Each call is in one place. -/
theorem WorkQueue.Sound.count (h : s.Sound none) (hn : n < s.calls.length) :
    s.pending.count n + (s.invocations n + (s.cancelled.count n + s.requeued.count n)) = 1 := by
  have hone : (range s.calls.length).count n = 1 :=
    count_eq_one_of_mem nodup_range (mem_range.2 hn)
  rw [← h.once.count_eq, count_append, WorkQueue.settled, count_append,
    count_append, ← invocations_eq_count] at hone
  exact hone

/-- A call that is due at the scans is not pending any more. -/
theorem WorkQueue.Sound.not_pending (h : s.Sound none) (hc : s.calls[n]? = some c)
    (hran : s.WorkersRan n c) : n ∉ s.pending := by
  intro hn
  obtain ⟨a, ha, rfl⟩ := mem_map.1 hn
  obtain ⟨d, hd⟩ := h.items a ha
  obtain rfl := Option.some.inj (hc.symm.trans hd.call)
  rcases hran with ⟨p, hp, hfin, hdue⟩ | hlong
  · exact hd.unfinished p hp hfin hdue
  · have := hd.turn
    omega

theorem WorkQueue.Sound.runsOnce (h : s.Sound none) : s.RunsOnce := by
  -- only calls that were made are invoked
  have hmade : ∀ n, ¬ n < s.calls.length → s.invocations n = 0 := by
    intro n hn
    refine countP_eq_zero.2 fun v hv hserial => ?_
    obtain ⟨c, hc, -⟩ := h.serves v hv
    have hlt := (List.getElem?_eq_some_iff.1 hc).1
    rw [of_decide_eq_true hserial] at hlt
    exact hn hlt
  refine ⟨fun a => ⟨h.worker, fun hw => (h.linked a hw).resolve_right nofun⟩, fun n => ?_, h.serves,
    ?_, fun n hn => ?_⟩
  · by_cases hn : n < s.calls.length
    · have := h.count hn
      omega
    · rw [hmade n hn]
      exact Nat.zero_le 1
  · intro n c hc hcancel hrequeue hran
    have hcount := h.count (List.getElem?_eq_some_iff.1 hc).1
    rw [List.count_eq_zero.2 (h.not_pending hc hran), List.count_eq_zero.2 hcancel,
      count_eq_zero.2 hrequeue] at hcount
    omega
  · by_cases hlt : n < s.calls.length
    · have := h.count hlt
      have := count_pos_iff.2 hn
      omega
    · exact hmade n hlt

end RunsOnce

/-- In every run, work runs once and never early. In the runs in which no sum of ticks wraps, no
thread sleeps past the time at which an item of the queue is due. -/
theorem work_runs_once_and_on_time [DecidableEq α] [DecidableEq ω] (period : ω → Nat)
    (s : WorkQueue α ω) :
    (WorkRun period WorkQueue.Enabled s → s.RunsOnce) ∧
      (WorkRun period WorkQueue.Orderly s → s.Punctual) :=
  ⟨fun h => h.sound.runsOnce, fun h => h.punctual⟩

/-- Two items are queued, one of them is cancelled, and the other one runs after its delay of 5
ticks; the thread has slept for these. -/
theorem work_runs_once_and_on_time_sample : let events : List (WorkEvent Bool Unit) :=
      [.queue true 1 7 5, .queue false 2 8 3, .cancel false, .process (), .tick 5, .wake (),
        .process (), .callbackDone ()]
    let s := after (WorkQueue.apply fun _ => 100) (WorkQueue.init Bool Unit 0) events
    s.RunsOnce ∧ s.Punctual ∧ s.invocations 0 = 1 ∧ s.invocations 1 = 0 ∧ s.sleeps ≠ [] := by
  intro events s
  have hrun : ∀ (ok : WorkQueue Bool Unit → WorkEvent Bool Unit → Prop),
      AllSteps ok (WorkQueue.apply fun _ => 100) (WorkQueue.init Bool Unit 0) events →
        WorkRun (fun _ => 100) ok s :=
    fun _ hall => Reach.after events (.start ⟨0, rfl⟩) hall
  obtain ⟨honce, htime⟩ := work_runs_once_and_on_time (fun _ => 100) s
  exact ⟨honce (hrun _ (by decide)), htime (hrun _ (by decide)),
    by decide, by decide, by decide⟩

/-- The item `true` has 59 ticks left when a callback begins, and 19 when it returns. The sum of the
ticks since it was queued and the 40 ticks of the pass has wrapped, so the thread sleeps for 59. -/
theorem wrapped_elapsed_oversleeps : let events : List (WorkEvent Bool Unit) :=
      [.queue true 1 0 4294967295, .tick 4294967236, .queue false 2 0 0, .process (), .tick 40,
        .callbackDone ()]
    AllSteps WorkQueue.Enabled (WorkQueue.apply fun _ => 100) (WorkQueue.init Bool Unit 0) events ∧
      (after (WorkQueue.apply fun _ => 100) (WorkQueue.init Bool Unit 0) events).sleeps =
        [(59, [19])] := by
  decide

end BaseNx.Wqueue
