import BaseNx.Sched.SmpPlacement

/-!
# Runs of the SMP scheduler

Every call of `sched_addreadytorun` and `sched_mergepending` keeps the placement of the tasks, and
so does every call of `sched_removereadytorun` that moves a task to a CPU on which the task may run.
On the runs of such calls each task is in one list, and each CPU runs the first task of its list.
The calls fail only where `sched_cpu_select` finds no CPU, because all of them run tasks of the
highest priority.
-/

namespace BaseNx.Sched.Smp

open Lib List
open Function (update update_of_ne)

variable {C : Config} {s s' : Scheduler} {p : Placement} {out : TaskId → Bool} {t : TaskId}
  {loose : List TaskId} {me : Nat}

/-! ## The calls keep the placement -/

variable {allowed : Nat → Bool}

theorem cpuSelectLoop_spec :
    ∀ (is : List Nat) {minprio : Nat} {cpu : Option Nat} {c : Nat},
      cpuSelectLoop C p allowed minprio cpu is = some c →
      cpu = some c ∨ c ∈ is ∧ allowed c = true
  | [], _, _, _, h => .inl h
  | i :: is, minprio, cpu, c, h => by
    have htail : ∀ {minprio cpu}, cpuSelectLoop C p allowed minprio cpu is = some c →
        cpu = some c ∨ c ∈ i :: is ∧ allowed c = true := by
      intro minprio cpu hloop
      rcases cpuSelectLoop_spec is hloop with hc | ⟨hc, ha⟩
      · exact .inl hc
      · exact .inr ⟨mem_cons_of_mem _ hc, ha⟩
    unfold cpuSelectLoop at h
    split at h
    · rename_i hi
      have hself : i ∈ i :: is := mem_cons_self
      split at h
      · exact nomatch h
      · obtain rfl := Option.some.inj h
        exact .inr ⟨hself, hi⟩
      · split at h
        · rcases htail h with hc | hc
          · obtain rfl := Option.some.inj hc
            exact .inr ⟨hself, hi⟩
          · exact .inr hc
        · exact htail h
    · exact htail h

theorem cpuSelectLoop_isSome (hlists : ∀ i, i < C.ncpus → p.list (.assigned i) ≠ []) :
    ∀ (is : List Nat) {minprio : Nat} {cpu : Option Nat}, (∀ i ∈ is, i < C.ncpus) →
      cpu.isSome ∨ (∃ i ∈ is, allowed i = true) ∧ (∀ t, C.prio t < minprio) →
      (cpuSelectLoop C p allowed minprio cpu is).isSome
  | [], _, _, _, h => by
    rcases h with hsome | ⟨⟨i, hi, -⟩, -⟩
    · exact hsome
    · exact absurd hi (by simp)
  | i :: is, minprio, cpu, hrange, h => by
    have hrest : ∀ j ∈ is, j < C.ncpus := fun j hj => hrange j (mem_cons_of_mem _ hj)
    unfold cpuSelectLoop
    split
    · split
      · rename_i hnil
        exact absurd hnil (hlists i (hrange i (by simp)))
      · rfl
      · split
        · exact cpuSelectLoop_isSome hlists is hrest (.inl rfl)
        · -- only a CPU that was found before stops the task from being the best one
          rename_i hge
          rcases h with hsome | ⟨-, hlow⟩
          · exact cpuSelectLoop_isSome hlists is hrest (.inl hsome)
          · exact absurd (hlow _) hge
    · rename_i hnot
      rcases h with hsome | ⟨⟨j, hj, ha⟩, hlow⟩
      · exact cpuSelectLoop_isSome hlists is hrest (.inl hsome)
      · refine cpuSelectLoop_isSome hlists is hrest (.inr ⟨⟨j, ?_, ha⟩, hlow⟩)
        rcases mem_cons.mp hj with rfl | hj
        · exact absurd ha hnot
        · exact hj

variable {cpu : Nat}

/-- The CPU that is chosen exists and is allowed, and one is found if no task has the highest
priority. -/
theorem Ok.schedCpuSelect (h : Ok C loose p out) (allowed : Nat → Bool) :
    (∀ c ∈ schedCpuSelect C p allowed, c < C.ncpus ∧ allowed c = true) ∧
    ((∀ t, C.prio t < 255) → (∃ c, c < C.ncpus ∧ allowed c = true) →
      (schedCpuSelect C p allowed).isSome) := by
  refine ⟨fun c hc => ?_, ?_⟩
  · rcases cpuSelectLoop_spec _ hc with hnone | ⟨hmem, hallowed⟩
    · exact nomatch hnone
    · exact ⟨mem_range.mp hmem, hallowed⟩
  · rintro hlow ⟨c, hc, hallowed⟩
    refine cpuSelectLoop_isSome (fun i hi => ?_) _ (fun _ hi => mem_range.mp hi)
      (.inr ⟨⟨c, mem_range.mpr hc, hallowed⟩, hlow⟩)
    obtain ⟨x, rest, heq, -⟩ := (h.heads i hi).running
    simp [heq]

/-- The same for the CPU that is chosen for a task. -/
theorem Ok.selectFor (h : Ok C loose p out) :
    (∀ c ∈ selectFor C p t, c < C.ncpus ∧ (C.affinity t).testBit c = true) ∧
    ((∀ t, C.prio t < 255) → (selectFor C p t).isSome) := by
  unfold Smp.selectFor
  split
  · rename_i hlocked
    refine ⟨?_, fun _ => rfl⟩
    rintro _ ⟨⟩
    exact h.locked t hlocked
  · exact ⟨(h.schedCpuSelect _).1, fun hlow => (h.schedCpuSelect _).2 hlow (C.affinity_ne t)⟩

theorem Ok.prio_pos (h : Ok C loose p out) (ht : ∀ l, t ∉ p.list l) : 1 ≤ C.prio t := by
  refine C.prio_pos t ?_
  rintro c hc rfl
  exact ht _ (h.idle_mem hc)

/-- What a call gives: a state in which the tasks are placed, unless a task has the highest
priority. -/
structure Placing (C : Config) (r : Option Scheduler) : Prop where
  ok : ∀ s ∈ r, Ok C [] s.tasks s.out
  isSome : (∀ t, C.prio t < 255) → r.isSome

theorem Ok.placing (h : Ok C [] s.tasks s.out) : Placing C (some s) := by
  refine ⟨?_, fun _ => rfl⟩
  rintro _ ⟨⟩
  exact h

theorem Ok.assignTask (h : Ok C [t] s.tasks s.out) (hcpu : cpu < C.ncpus)
    (hallowed : (C.affinity t).testBit cpu = true) : Placing C (assignTask C s t cpu) := by
  have hnot : t ∉ ([] : List TaskId) := by simp
  have hpos : 1 ≤ C.prio t := h.prio_pos fun l hl => h.placed.not_loose hl (by simp)
  obtain ⟨next, rest, hlist, -⟩ := (h.heads cpu hcpu).running
  unfold Smp.assignTask
  rw [hlist]
  dsimp only
  split
  · rename_i hlt
    split
    · exact (h.preempt_locked hnot hcpu hallowed hlist hlt).placing
    · rename_i hlocked
      have hfree : C.cpuLocked next = false := by simpa using hlocked
      split
      · exact (h.preempt hnot hcpu hallowed hlist hlt hfree
          (l := .pendingtasks) (by simp) fun q hq => by simp [Placement.tlist, hq]).placing
      · exact (h.preempt hnot hcpu hallowed hlist hlt hfree
          (l := .readytorun) (by simp) fun q hq => by simp [Placement.tlist, hq]).placing
  · rename_i hle
    exact (h.assign hnot hcpu hallowed hpos hlist (not_lt.mp hle)).placing

theorem Ok.addreadytorun (h : Ok C [t] s.tasks s.out) (me : Nat) :
    Placing C (schedAddreadytorun C s t me) := by
  obtain ⟨hsel, hfound⟩ := h.selectFor (t := t)
  unfold schedAddreadytorun
  cases hcpu : Smp.selectFor C s.tasks t with
  | none => exact ⟨nofun, fun hlow => absurd (hfound hlow) (by simp [hcpu])⟩
  | some cpu =>
    obtain ⟨hlt, hallowed⟩ := hsel cpu hcpu
    obtain ⟨x, rest, heq, -⟩ := (h.heads cpu hlt).running
    simp only [heq]
    split
    · exact (h.enqueue (by simp) (l := .pendingtasks) (by simp)
        fun q hq => by simp [Placement.tlist, hq]).placing
    · split
      · exact (h.enqueue (by simp) (l := .readytorun) (by simp)
          fun q hq => by simp [Placement.tlist, hq]).placing
      · exact h.assignTask hlt hallowed

theorem Ok.mergepending : ∀ (turns : Nat) {s : Scheduler}, Ok C [] s.tasks s.out →
    Placing C (mergepending C me turns s)
  | 0, _, h => h.placing
  | turns + 1, s, h => by
    unfold Smp.mergepending
    split
    · exact h.placing
    · rename_i ptcb rest hlist
      obtain ⟨hsel, hfound⟩ := h.schedCpuSelect fun _ => true
      cases hcpu : Smp.schedCpuSelect C s.tasks fun _ => true with
      | none =>
        refine ⟨nofun, fun hlow => absurd (hfound hlow ⟨0, C.ncpus_pos, rfl⟩) ?_⟩
        simp [hcpu]
      | some cpu =>
        obtain ⟨x, xs, heq, -⟩ := (h.heads cpu (hsel cpu hcpu).1).running
        simp only [heq]
        split
        · -- the first pending task is taken and added
          have hadd := (h.pop (by simp) hlist).addreadytorun
            (s := { s with tasks := s.tasks.setList .pendingtasks rest }) me
          split
          · rename_i hnone
            rw [hnone] at hadd
            exact ⟨nofun, hadd.isSome⟩
          · rename_i s₁ hs₁
            have h₁ := hadd.ok s₁ hs₁
            split
            · exact (h₁.merge (by simp) (by simp) (by simp)
                fun q u hq => by simp [Placement.tlist, hq]).placing
            · exact Ok.mergepending turns h₁
        · exact (h.merge (by simp) (by simp) (by simp)
            fun q u hq => by simp [Placement.tlist, hq]).placing

theorem mem_readytorun_of_movedTask {y nxttcb : Nat}
    (hmoved : movedTask C s cpu nxttcb me = some y) : y ∈ s.tasks.list .readytorun := by
  unfold movedTask at hmoved
  split at hmoved
  · exact nomatch hmoved
  · split at hmoved
    · split at hmoved
      · exact mem_of_head? hmoved
      · exact nomatch hmoved
    · exact nomatch hmoved

theorem Ok.switchCpu (h : Ok C [] s.tasks out) (hcpu : cpu < C.ncpus) {x : TaskId}
    {rest : List TaskId} (hlist : s.tasks.list (.assigned cpu) = t :: x :: rest)
    (hmoved : ∀ y ∈ movedTask C s cpu x me, (C.affinity y).testBit cpu = true) :
    (switchCpu C s cpu x rest me).out = s.out ∧
    Ok C [] ((switchCpu C s cpu x rest me).tasks.setState t .invalid) (update out t true) := by
  unfold Smp.switchCpu
  split
  · rename_i y hy
    exact ⟨rfl, h.runReady hcpu hlist (mem_readytorun_of_movedTask hy) (hmoved y hy)⟩
  · exact ⟨rfl, h.runNext hcpu hlist⟩

theorem Ok.removereadytorun (h : Ok C [] s.tasks out)
    (hmem : t ∈ s.tasks.list .readytorun ∨ ∃ c, c < C.ncpus ∧ t ∈ s.tasks.list (.assigned c))
    (hidle : ∀ c, c < C.ncpus → t ≠ C.idle c)
    (hmoved : ∀ y ∈ movedBy C s t me, (C.affinity y).testBit (s.tasks.cpu t) = true) :
    ∃ s', schedRemovereadytorun C s t me = some s' ∧ s'.out = s.out ∧
      Ok C [] s'.tasks (update out t true) := by
  unfold schedRemovereadytorun
  rcases hmem with hready | ⟨c, hc, hassigned⟩
  · rw [((h.placed.mem _ _).mp hready).1]
    refine ⟨_, rfl, rfl, h.dequeue hready (fun c _ hhead => ?_) hidle⟩
    exact nomatch h.placed.unique hready (mem_of_head? hhead)
  · have hplace := ((h.placed.mem _ _).mp hassigned).1
    have hcpu : s.tasks.cpu t = c := by
      unfold Placement.tlist at hplace
      split at hplace <;> simp_all
    rw [hplace]
    dsimp only
    by_cases hhead : (s.tasks.list (.assigned c)).head? = some t
    · rw [if_pos hhead]
      obtain ⟨tail, hlist⟩ := head?_eq_some_iff.mp hhead
      have hlast := (h.heads c hc).idle
      cases tail with
      | nil =>
        -- the only task of the list is the IDLE task
        rw [hlist] at hlast
        exact absurd (by simpa using hlast) (hidle c hc)
      | cons x rest =>
        have hby : movedBy C s t me = movedTask C s c x me := by
          simp [movedBy, hcpu, hlist]
        rw [hby, hcpu] at hmoved
        obtain ⟨hout, hok⟩ := h.switchCpu hc hlist hmoved
        rw [hlist]
        exact ⟨_, rfl, hout, hok⟩
    · rw [if_neg hhead]
      refine ⟨_, rfl, rfl, h.dequeue hassigned (fun d hd hhead' => ?_) hidle⟩
      have hdc := h.placed.unique hassigned (mem_of_head? hhead')
      exact hhead (hdc ▸ hhead')

/-! ## The events -/

/-- A task is added that is in no list, and a task is removed that may run and is not an IDLE
task. -/
def Enabled (C : Config) (s : Scheduler) : Event → Prop
  | .addreadytorun t _ => s.out t = true
  | .removereadytorun t _ =>
    (t ∈ s.tasks.list .readytorun ∨ ∃ c, c < C.ncpus ∧ t ∈ s.tasks.list (.assigned c)) ∧
      ∀ c, c < C.ncpus → t ≠ C.idle c
  | _ => True

/-- The task that a removal moves to a CPU may run there. -/
def Orderly (C : Config) (s : Scheduler) : Event → Prop
  | .removereadytorun t me =>
    ∀ y ∈ movedBy C s t me, (C.affinity y).testBit (s.tasks.cpu t) = true
  | _ => True

instance (C : Config) (s : Scheduler) (e : Event) : Decidable (Enabled C s e) := by
  cases e <;> unfold Enabled <;> infer_instance

instance (C : Config) (s : Scheduler) (e : Event) : Decidable (Orderly C s e) := by
  cases e <;> unfold Orderly <;> infer_instance

/-- A task that is in no list may be added. -/
theorem Ok.loosen (h : Ok C [] p out) (ht : out t = true) : Ok C [t] p (update out t false) := by
  have hinvalid := ((h.out t).mp ht).1
  refine ⟨(placed_cons_iff (by simp [Placement.tlist, hinvalid])).2 h.placed, h.heads, h.locked,
    fun u => ?_⟩
  by_cases hu : u = t
  · simp [hu]
  · simpa [hu, update_of_ne] using h.out u

variable {e : Event}

theorem Ok.handle (h : Ok C [] s.tasks s.out) (hen : Enabled C s e) (hord : Orderly C s e) :
    Placing C (handle C s e) := by
  cases e with
  | addreadytorun t me =>
    exact Ok.addreadytorun (s := { s with out := update s.out t false }) (h.loosen hen) me
  | removereadytorun t me =>
    obtain ⟨s₁, hs₁, hout, hok⟩ := Ok.removereadytorun
      (s := { s with out := update s.out t true }) h hen.1 hen.2 hord
    rw [Smp.handle, hs₁]
    exact Ok.placing (hout ▸ hok)
  | mergepending me =>
    simp only [Smp.handle, schedMergepending]
    split
    · exact h.placing
    · exact Ok.mergepending _ h
  | lock locks => exact Ok.placing (s := { s with locks }) h

/-! ## The loop over the pending tasks -/

/-- A task that is added while no lock makes tasks wait leaves the pending tasks as they are. -/
theorem pendingtasks_addreadytorun (hadd : schedAddreadytorun C s t me = some s')
    (hopen : s'.blocked C me = false) :
    s'.tasks.list .pendingtasks = s.tasks.list .pendingtasks := by
  unfold schedAddreadytorun at hadd
  split at hadd
  · exact nomatch hadd
  · split at hadd
    · exact nomatch hadd
    · split at hadd
      · rename_i hblocked
        obtain rfl := Option.some.inj hadd
        -- the locks are the same before and after
        have hsame : s.blocked C me = false := hopen
        rw [hsame] at hblocked
        exact nomatch hblocked.1
      · split at hadd
        · obtain rfl := Option.some.inj hadd
          simp
        · unfold assignTask at hadd
          split at hadd
          · exact nomatch hadd
          · dsimp only at hadd
            split at hadd
            · split at hadd
              · obtain rfl := Option.some.inj hadd
                simp
              · split at hadd
                · rename_i hlocked
                  obtain rfl := Option.some.inj hadd
                  simp [Scheduler.blocked, hlocked] at hopen
                · obtain rfl := Option.some.inj hadd
                  simp
            · obtain rfl := Option.some.inj hadd
              simp

/-- With a turn for each pending task the loop ends with no task pending, unless a lock came. -/
theorem mergepending_done : ∀ (turns : Nat) {s s' : Scheduler},
    (s.tasks.list .pendingtasks).length ≤ turns → mergepending C me turns s = some s' →
    s'.blocked C me = true ∨ s'.tasks.list .pendingtasks = []
  | 0, s, s', hle, h => by
    obtain rfl := Option.some.inj h
    exact .inr (length_eq_zero_iff.mp (Nat.le_zero.mp hle))
  | turns + 1, s, s', hle, h => by
    unfold mergepending at h
    split at h
    · rename_i hlist
      obtain rfl := Option.some.inj h
      exact .inr hlist
    · rename_i ptcb rest hlist
      split at h
      · exact nomatch h
      · split at h
        · exact nomatch h
        · split at h
          · split at h
            · exact nomatch h
            · rename_i s₁ hadd
              split at h
              · rename_i hblocked
                obtain rfl := Option.some.inj h
                exact .inl hblocked
              · rename_i hopen
                have hsame := pendingtasks_addreadytorun hadd (by simpa using hopen)
                simp only [Placement.setList_list, if_true] at hsame
                rw [hlist, length_cons] at hle
                exact mergepending_done turns (by rw [hsame]; omega) h
          · obtain rfl := Option.some.inj h
            simp [schedMergeprioritized]

/-! ## Runs -/

/-- The states on the runs from a state of orderly calls. -/
def OrderlyRun (C : Config) (s₀ : Scheduler) : Scheduler → Prop :=
  Reach (fun s => s = s₀) (LabelledStep (fun s e => Enabled C s e ∧ Orderly C s e) (handle C))

/-- The states on the runs from a state of any calls. -/
def Run (C : Config) (s₀ : Scheduler) : Scheduler → Prop :=
  Reach (fun s => s = s₀) (LabelledStep (Enabled C) (handle C))

theorem OrderlyRun.ok {s₀ : Scheduler} (hstart : Ok C [] s₀.tasks s₀.out)
    (h : OrderlyRun C s₀ s) : Ok C [] s.tasks s.out := by
  refine Reach.invariant (P := fun s => Ok C [] s.tasks s.out) (fun s hs => hs ▸ hstart) ?_ h
  rintro s t hs ⟨e, ⟨hen, hord⟩, hstep⟩
  exact (hs.handle hen hord).ok t hstep

/-- A task that was not removed is in exactly one list, and it is there once. -/
theorem Ok.exists_unique_list (h : Ok C [] p out) (ht : out t = false) :
    ∃ l, (p.list l).count t = 1 ∧ ∀ m, t ∈ p.list m → m = l := by
  have hvalid : p.state t ≠ .invalid := by
    intro hinvalid
    have hout := ht ▸ (h.out t).mpr ⟨hinvalid, by simp⟩
    exact nomatch hout
  have hplace : ∃ l, p.tlist t = some l := by
    unfold Placement.tlist
    split
    · rename_i hinvalid
      exact absurd hinvalid hvalid
    all_goals exact ⟨_, rfl⟩
  obtain ⟨l, hl⟩ := hplace
  have hmem : t ∈ p.list l := (h.placed.mem l t).mpr ⟨hl, by simp⟩
  exact ⟨l, count_eq_one_of_mem (h.placed.nodup l) hmem, fun m hm => h.placed.unique hmem hm⟩

theorem Ok.not_mem_of_out (h : Ok C [] p out) (ht : out t = true) (l : SmpList) : t ∉ p.list l := by
  have hinvalid := ((h.out t).mp ht).1
  rw [h.placed.mem]
  simp [Placement.tlist, hinvalid]

/-- In every state of an orderly run the tasks of a CPU may run there, each task is in exactly one
list, or in none after it was removed, and each CPU runs the first task of its list and no other
one. If no task has the highest priority, then every call succeeds. -/
theorem smp_tasks_placed (C : Config) (s₀ s : Scheduler) (hstart : Ok C [] s₀.tasks s₀.out)
    (hrun : OrderlyRun C s₀ s) :
    (∀ c, c < C.ncpus → ∀ t ∈ s.tasks.list (.assigned c), (C.affinity t).testBit c = true) ∧
    (∀ t, (s.out t = true → ∀ l, t ∉ s.tasks.list l) ∧
      (s.out t = false → ∃ l, (s.tasks.list l).count t = 1 ∧ ∀ m, t ∈ s.tasks.list m → m = l)) ∧
    (∀ c, c < C.ncpus → ∃ h rest, s.tasks.list (.assigned c) = h :: rest ∧
      s.tasks.state h = .running ∧ ∀ u ∈ rest, s.tasks.state u ≠ .running) ∧
    ((∀ t, C.prio t < 255) → ∀ e, Enabled C s e → Orderly C s e → (handle C s e).isSome) := by
  have hok := hrun.ok hstart
  refine ⟨fun c hc => (hok.heads c hc).allowed, fun t => ⟨?_, ?_⟩, fun c hc => ?_, ?_⟩
  · exact fun ht l => hok.not_mem_of_out ht l
  · exact fun ht => hok.exists_unique_list ht
  · obtain ⟨x, rest, heq, hx, hrest⟩ := (hok.heads c hc).running
    refine ⟨x, rest, heq, hx, fun u hu => ?_⟩
    rw [hrest u hu]
    nofun
  · exact fun hlow e hen hord => (hok.handle hen hord).isSome hlow

/-- On an orderly run `sched_mergepending` returns and leaves no task pending, unless a lock of the
scheduler or of another CPU makes tasks wait. -/
theorem mergepending_empties (C : Config) (s₀ s : Scheduler) (hstart : Ok C [] s₀.tasks s₀.out)
    (hrun : OrderlyRun C s₀ s) (hlow : ∀ t, C.prio t < 255) (me : Nat) :
    ∃ s', schedMergepending C s me = some s' ∧
      (s'.blocked C me = true ∨ s'.tasks.list .pendingtasks = []) := by
  have hcall := ((hrun.ok hstart).handle (e := .mergepending me) trivial trivial).isSome hlow
  obtain ⟨s', hs'⟩ := Option.isSome_iff_exists.mp hcall
  refine ⟨s', hs', ?_⟩
  rw [handle, schedMergepending] at hs'
  split at hs'
  · rename_i hblocked
    obtain rfl := Option.some.inj hs'
    exact .inl hblocked
  · exact mergepending_done _ le_rfl hs'

/-! ## Two CPUs -/

/-- Two CPUs with the IDLE tasks 0 and 1. The tasks 2 and 4 may run on the first CPU only, the tasks
3 and 5 on the second one only; 2 and 3 have the priority `top + 1`. -/
def twoCpus (top : Nat) : Config where
  ncpus := 2
  prio := fun
    | 0 => 0
    | 1 => 0
    | 2 => top + 1
    | 3 => top + 1
    | 4 => 100
    | _ => 90
  affinity := fun
    | 2 => 1
    | 3 => 2
    | 4 => 1
    | 5 => 2
    | _ => 3
  cpuLocked := fun t => decide (t < 2)
  idle := id
  ncpus_pos := by decide
  affinity_ne := by
    intro t
    split
    · exact ⟨0, by decide⟩
    · exact ⟨1, by decide⟩
    · exact ⟨0, by decide⟩
    · exact ⟨1, by decide⟩
    · exact ⟨0, by decide⟩
  idle_locked := by decide
  idle_prio := by
    intro c hc
    interval_cases c <;> rfl
  prio_pos := by
    intro t ht
    split
    · exact absurd rfl (ht 0 (by decide))
    · exact absurd rfl (ht 1 (by decide))
    all_goals omega

/-- The tasks 2 and 3 run, and the other ones are in no list. -/
def twoCpusStart : Scheduler where
  tasks :=
    { state := fun
        | 0 => .assigned
        | 1 => .assigned
        | 2 => .running
        | 3 => .running
        | _ => .invalid
      cpu := fun
        | 1 => 1
        | 3 => 1
        | _ => 0
      list := fun
        | .assigned 0 => [2, 0]
        | .assigned 1 => [3, 1]
        | _ => [] }
  locks := ⟨fun _ => 0, fun _ => 0, fun _ => false, fun _ => false, 0⟩
  out := fun t => decide (3 < t)

theorem twoCpusStart_ok (top : Nat) : Ok (twoCpus top) [] twoCpusStart.tasks twoCpusStart.out := by
  refine ⟨⟨fun l t => ?_, fun l => ?_⟩, fun c hc => ?_, fun t ht => ?_, fun t => ?_⟩
  · rcases l with (_ | _ | c) | _ | _ <;> rcases t with _ | _ | _ | _ | t <;>
      simp [twoCpusStart, Placement.tlist]
  · rcases l with (_ | _ | c) | _ | _ <;> simp [twoCpusStart]
  · have hc' : c = 0 ∨ c = 1 := by
      have : c < 2 := hc
      omega
    rcases hc' with rfl | rfl
    · exact ⟨⟨2, [0], rfl, rfl, by decide⟩, rfl, by simp [twoCpusStart, twoCpus]⟩
    · exact ⟨⟨3, [1], rfl, rfl, by decide⟩, rfl, by simp [twoCpusStart, twoCpus, Nat.testBit]⟩
  · rcases t with _ | _ | t
    · exact ⟨Nat.zero_lt_two, by simp [twoCpusStart, twoCpus]⟩
    · exact ⟨Nat.one_lt_two, by simp [twoCpusStart, twoCpus, Nat.testBit]⟩
    · simp [twoCpus] at ht
  · rcases t with _ | _ | _ | _ | t <;> simp [twoCpusStart]

/-- Task 4 is added and runs on the first CPU after task 2 was removed. -/
theorem smp_tasks_placed_sample :
    ∃ s, OrderlyRun (twoCpus 199) twoCpusStart s ∧ s.tasks.list (.assigned 0) = [4, 0] ∧
      s.out 2 = true ∧
      ∀ c, c < 2 → ∀ t ∈ s.tasks.list (.assigned c),
        ((twoCpus 199).affinity t).testBit c = true := by
  have hrun : OrderlyRun (twoCpus 199) twoCpusStart (after (handle (twoCpus 199)) twoCpusStart
      [.addreadytorun 4 0, .removereadytorun 2 1]) :=
    Reach.after _ (.start rfl) (by decide)
  exact ⟨_, hrun, by decide, by decide,
    (smp_tasks_placed _ _ _ (twoCpusStart_ok 199) hrun).1⟩

/-- Task 4 is added while a CPU holds the scheduler lock, and then the lock is given back. -/
theorem mergepending_empties_sample :
    let s := after (handle (twoCpus 199)) twoCpusStart [.lock { twoCpusStart.locks with
      cpuLockset := fun _ => true }, .addreadytorun 4 0, .lock twoCpusStart.locks]
    s.tasks.list .pendingtasks = [4] ∧ ∃ s', schedMergepending (twoCpus 199) s 0 = some s' ∧
      (s'.blocked (twoCpus 199) 0 = true ∨ s'.tasks.list .pendingtasks = []) := by
  intro s
  refine ⟨by decide, mergepending_empties _ _ _ (twoCpusStart_ok 199)
    (Reach.after _ (.start rfl) (by decide)) (fun t => ?_) 0⟩
  simp only [twoCpus]
  split <;> decide

/-- When task 3 is removed from the second CPU, task 5 of the ready-to-run list may run there, but
task 4 before it is moved, which may not. And a task that is added while all its CPUs run tasks of
the highest priority gets a CPU number out of range. -/
theorem remove_moves_wrong_task :
    (Ok (twoCpus 199) [] twoCpusStart.tasks twoCpusStart.out ∧
      ∃ s, Run (twoCpus 199) twoCpusStart s ∧ s.tasks.list (.assigned 1) = [4, 1] ∧
        s.tasks.list .readytorun = [5] ∧ ((twoCpus 199).affinity 4).testBit 1 = false) ∧
    (Ok (twoCpus 254) [] twoCpusStart.tasks twoCpusStart.out ∧
      Enabled (twoCpus 254) twoCpusStart (.addreadytorun 4 0) ∧
      handle (twoCpus 254) twoCpusStart (.addreadytorun 4 0) = none) := by
  have hrun : Run (twoCpus 199) twoCpusStart (after (handle (twoCpus 199)) twoCpusStart
      [.addreadytorun 4 0, .addreadytorun 5 0, .removereadytorun 3 1]) :=
    Reach.after _ (.start rfl) (by decide)
  exact ⟨⟨twoCpusStart_ok 199, _, hrun, by decide⟩, twoCpusStart_ok 254, by decide, rfl⟩

end BaseNx.Sched.Smp
