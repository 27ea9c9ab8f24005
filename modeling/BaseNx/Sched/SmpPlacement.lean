import BaseNx.Sched.Smp

/-!
# Each task is on one list, and CPUs run tasks they may run

`Placed loose p` says that every task is in exactly the list that its state names, once, except for
the tasks in `loose`, which are in no list. `HeadOk C p c` says that the first task of the list of a
CPU is the one that runs there, that its last task is the IDLE task, and that all of its tasks may
run on the CPU.
-/

namespace BaseNx.Sched.Smp

open Lib List Placement
open Function (update update_apply update_of_ne)

/-! ## Field lemmas -/

namespace Placement

variable (p : Placement) (t u : TaskId) (l m : SmpList)

@[simp] theorem setState_list (st : SmpState) : (p.setState t st).list = p.list := rfl

@[simp] theorem setState_cpu (st : SmpState) : (p.setState t st).cpu = p.cpu := rfl

@[simp] theorem setState_state (st : SmpState) :
    (p.setState t st).state u = if u = t then st else p.state u := by
  simp [setState, update_apply]

@[simp] theorem setCpu_list (cpu : Nat) : (p.setCpu t cpu).list = p.list := rfl

@[simp] theorem setCpu_state (cpu : Nat) : (p.setCpu t cpu).state = p.state := rfl

@[simp] theorem setCpu_cpu (cpu : Nat) :
    (p.setCpu t cpu).cpu u = if u = t then cpu else p.cpu u := by
  simp [setCpu, update_apply]

@[simp] theorem setList_list (xs : List TaskId) :
    (p.setList l xs).list m = if m = l then xs else p.list m := by
  simp [setList, update_apply]

@[simp] theorem setList_state (xs : List TaskId) : (p.setList l xs).state = p.state := rfl

@[simp] theorem setList_cpu (xs : List TaskId) : (p.setList l xs).cpu = p.cpu := rfl

@[simp] theorem dqRem_list :
    (p.dqRem t l).list m = if m = l then (p.list l).erase t else p.list m := by
  simp [dqRem]

@[simp] theorem dqRem_state : (p.dqRem t l).state = p.state := rfl

theorem tlist_congr {p q : Placement} {t : TaskId} (hstate : q.state t = p.state t)
    (hcpu : q.cpu t = p.cpu t) : q.tlist t = p.tlist t := by
  rw [tlist, tlist, hstate, hcpu]

end Placement

section AddFields

variable (C : Config) (p : Placement) (t : TaskId) (l m : SmpList)

@[simp] theorem schedAddprioritized_list : (schedAddprioritized C p t l).list m =
    if m = l then insertPrioritized C.prio t (p.list l) else p.list m := by
  simp [schedAddprioritized]

@[simp] theorem schedAddprioritized_state : (schedAddprioritized C p t l).state = p.state := rfl

@[simp] theorem schedAddprioritized_cpu : (schedAddprioritized C p t l).cpu = p.cpu := rfl

end AddFields

/-! ## One list for each task -/

/-- Each task other than the loose ones is in the list its state names, once, and a loose task is in
no list. -/
structure Placed (loose : List TaskId) (p : Placement) : Prop where
  mem : ∀ l t, t ∈ p.list l ↔ p.tlist t = some l ∧ t ∉ loose
  nodup : ∀ l, (p.list l).Nodup

section Placed

variable {loose : List TaskId} {p q : Placement} {t : TaskId} {l : SmpList}

section

variable (h : Placed loose p) (hl : t ∈ p.list l)
include h hl

theorem Placed.unique {m : SmpList} (hm : t ∈ p.list m) : m = l := by
  have hl' := ((h.mem l t).mp hl).1
  have hm' := ((h.mem m t).mp hm).1
  exact Option.some.inj (hm'.symm.trans hl')

theorem Placed.not_loose : t ∉ loose :=
  ((h.mem l t).mp hl).2

theorem Placed.valid : p.state t ≠ .invalid := by
  intro hinv
  have hplace := ((h.mem l t).mp hl).1
  simp [Placement.tlist, hinv] at hplace

end

theorem Placed.put (h : Placed (t :: loose) p) (ht : t ∉ loose)
    (hlist : (q.list l).Perm (t :: p.list l)) (hother : ∀ m, m ≠ l → q.list m = p.list m)
    (hplace : q.tlist t = some l) (hsame : ∀ u, u ≠ t → q.tlist u = p.tlist u) :
    Placed loose q := by
  have hfresh : ∀ m, t ∉ p.list m := fun m hm => h.not_loose hm (by simp)
  constructor
  · intro m u
    by_cases hu : u = t
    · subst hu
      rw [hplace]
      by_cases hm : m = l
      · subst hm
        simp [hlist.mem_iff, ht]
      · rw [hother m hm]
        have hne : l ≠ m := Ne.symm hm
        simp [hfresh m, hne]
    · rw [hsame u hu]
      have hold := h.mem m u
      by_cases hm : m = l
      · subst hm
        rw [hlist.mem_iff]
        simpa [hu] using hold
      · rw [hother m hm]
        simpa [hu] using hold
  · intro m
    by_cases hm : m = l
    · subst hm
      rw [hlist.nodup_iff, nodup_cons]
      exact ⟨hfresh m, h.nodup m⟩
    · rw [hother m hm]
      exact h.nodup m

theorem Placed.take (h : Placed loose p) (ht : t ∈ p.list l)
    (hlist : (t :: q.list l).Perm (p.list l)) (hother : ∀ m, m ≠ l → q.list m = p.list m)
    (hsame : ∀ u, u ≠ t → q.tlist u = p.tlist u) : Placed (t :: loose) q := by
  have hnodup := hlist.nodup_iff.mpr (h.nodup l)
  rw [nodup_cons] at hnodup
  constructor
  · intro m u
    by_cases hu : u = t
    · subst hu
      have hnot : u ∉ q.list m := by
        by_cases hm : m = l
        · subst hm
          exact hnodup.1
        · rw [hother m hm]
          exact fun hmem => hm (h.unique ht hmem)
      simp [hnot]
    · rw [hsame u hu]
      have hold := h.mem m u
      by_cases hm : m = l
      · subst hm
        rw [← hlist.mem_iff] at hold
        simpa [hu] using hold
      · rw [hother m hm]
        simpa [hu] using hold
  · intro m
    by_cases hm : m = l
    · subst hm
      exact hnodup.2
    · rw [hother m hm]
      exact h.nodup m

/-- A step that leaves the lists, and the list that each task names. -/
theorem Placed.restate (h : Placed loose p) (hlist : ∀ m, q.list m = p.list m)
    (hsame : ∀ u, u ∉ loose → q.tlist u = p.tlist u) : Placed loose q := by
  constructor
  · intro m u
    rw [hlist m, h.mem m u]
    by_cases hu : u ∈ loose
    · simp [hu]
    · rw [hsame u hu]
  · intro m
    rw [hlist m]
    exact h.nodup m

/-- A task whose state names no list may be loose or not. -/
theorem placed_cons_iff (hnone : p.tlist t = none) : Placed (t :: loose) p ↔ Placed loose p := by
  have hloose : ∀ m u, p.tlist u = some m ∧ u ∉ t :: loose ↔ p.tlist u = some m ∧ u ∉ loose := by
    intro m u
    by_cases hu : u = t
    · subst hu
      simp [hnone]
    · simp [hu]
  exact ⟨fun h => ⟨fun m u => (h.mem m u).trans (hloose m u), h.nodup⟩,
    fun h => ⟨fun m u => (h.mem m u).trans (hloose m u).symm, h.nodup⟩⟩

end Placed

/-! ## The lists of the CPUs -/

/-- The list of a CPU: its first task runs and no other one, its last task is the IDLE task, and all
its tasks may run on the CPU. -/
structure HeadOk (C : Config) (p : Placement) (c : Nat) : Prop where
  running : ∃ h rest, p.list (.assigned c) = h :: rest ∧ p.state h = .running ∧
    ∀ u ∈ rest, p.state u = .assigned
  idle : (p.list (.assigned c)).getLast? = some (C.idle c)
  allowed : ∀ u ∈ p.list (.assigned c), (C.affinity u).testBit c = true

/-- Every task is in its list, `out` is the set of the tasks in no list, the lists of the CPUs are
as they should be, and the tasks that are locked to a CPU may run there. -/
structure Ok (C : Config) (loose : List TaskId) (p : Placement) (out : TaskId → Bool) : Prop where
  placed : Placed loose p
  heads : ∀ c, c < C.ncpus → HeadOk C p c
  locked : ∀ t, C.cpuLocked t = true →
    p.cpu t < C.ncpus ∧ (C.affinity t).testBit (p.cpu t) = true
  out : ∀ t, out t = true ↔ p.state t = .invalid ∧ t ∉ loose

variable {rest : List TaskId} {x : TaskId} {st : SmpState}

section Heads

variable {C : Config} {loose : List TaskId} {p q : Placement} {out : TaskId → Bool} {t y : TaskId}
  {l : SmpList} {c cpu : Nat}

theorem getLast?_cons_erase {t : TaskId} (hlast : (x :: rest).getLast? = some y) (hty : t ≠ y) :
    (x :: rest.erase t).getLast? = some y := by
  cases eq_nil_or_concat' rest with
  | inl hnil => simpa [hnil] using hlast
  | inr hconcat =>
    obtain ⟨front, z, rfl⟩ := hconcat
    have hzy : z = y := by
      rw [← cons_append, getLast?_append_cons] at hlast
      simpa using hlast
    subst hzy
    by_cases hmem : t ∈ front
    · rw [erase_append_left _ hmem, ← cons_append, getLast?_append_cons]
      simp
    · rw [erase_append_right _ hmem, erase_cons_tail (by simpa using Ne.symm hty)]
      exact hlast

/-- The list of a CPU and the states of its tasks are all that matters. -/
theorem HeadOk.congr (h : HeadOk C p c) (hlist : q.list (.assigned c) = p.list (.assigned c))
    (hstate : ∀ u ∈ p.list (.assigned c), q.state u = p.state u) : HeadOk C q c := by
  obtain ⟨x, rest, heq, hrun, hrest⟩ := h.running
  refine ⟨⟨x, rest, hlist.trans heq, ?_, fun u hu => ?_⟩, hlist ▸ h.idle, hlist ▸ h.allowed⟩
  · rw [hstate x (by simp [heq])]
    exact hrun
  · rw [hstate u (by simp [heq, hu])]
    exact hrest u hu

theorem Ok.idle_mem (h : Ok C loose p out) (hc : c < C.ncpus) :
    C.idle c ∈ p.list (.assigned c) := mem_of_getLast? (h.heads c hc).idle

/-- A loose task is put into a list; if that is the list of a CPU, it is to be as it should be. -/
theorem Ok.put (h : Ok C (t :: loose) p out) (ht : t ∉ loose)
    (hlist : (q.list l).Perm (t :: p.list l)) (hother : ∀ m, m ≠ l → q.list m = p.list m)
    (hplace : q.tlist t = some l) (hstate : ∀ u, u ≠ t → q.tlist u = p.tlist u ∧
      (q.state u = p.state u ∨ u ∈ p.list l ∧ q.state u ≠ .invalid))
    (hheads : ∀ c, c < C.ncpus → l = .assigned c → HeadOk C q c)
    (hlocked : ∀ u, C.cpuLocked u = true →
      q.cpu u < C.ncpus ∧ (C.affinity u).testBit (q.cpu u) = true) : Ok C loose q out := by
  have hfresh : ∀ m, t ∉ p.list m := fun m hm => h.placed.not_loose hm (by simp)
  refine ⟨h.placed.put ht hlist hother hplace fun u hu => (hstate u hu).1, fun c hc => ?_, hlocked,
    fun u => ?_⟩
  · by_cases hcl : l = .assigned c
    · exact hheads c hc hcl
    · refine (h.heads c hc).congr (hother _ (Ne.symm hcl)) fun u hu => ?_
      rcases (hstate u fun heq => hfresh _ (heq ▸ hu)).2 with hsame | ⟨hmem, -⟩
      · exact hsame
      · exact absurd (h.placed.unique hu hmem) hcl
  · have hout := h.out u
    by_cases hu : u = t
    · subst hu
      have hvalid : q.state u ≠ .invalid := fun hinv => by simp [Placement.tlist, hinv] at hplace
      simp at hout
      simp [hvalid, hout]
    · rcases (hstate u hu).2 with hsame | ⟨hmem, hvalid⟩
      · simpa [hsame, hu] using hout
      · simpa [hvalid, h.placed.valid hmem] using hout

/-- A task that is put into a list of tasks that wait. -/
theorem Ok.enqueue (h : Ok C (t :: loose) p out) (ht : t ∉ loose) (hl : ∀ c, l ≠ .assigned c)
    (hst : ∀ q : Placement, q.state t = st → q.tlist t = some l) :
    Ok C loose ((schedAddprioritized C p t l).setState t st) out := by
  refine h.put ht ?_ (fun m hm => by simp [hm]) (hst _ (by simp)) (fun u hu => ?_)
    (fun c _ hc => absurd hc (hl c)) h.locked
  · simpa [insertPrioritized] using insertWhere_perm _ _ _
  · exact ⟨tlist_congr (by simp [hu]) rfl, .inl (by simp [hu])⟩

theorem Ok.locked_setCpu (h : Ok C loose p out) (hcpu : cpu < C.ncpus)
    (hallowed : (C.affinity t).testBit cpu = true) {u : TaskId} (hu : C.cpuLocked u = true) :
    (if u = t then cpu else p.cpu u) < C.ncpus ∧
      (C.affinity u).testBit (if u = t then cpu else p.cpu u) = true := by
  by_cases hut : u = t
  · subst hut
    simpa using ⟨hcpu, hallowed⟩
  · simpa [hut] using h.locked u hu

section

variable (h : Ok C (t :: loose) p out) (ht : t ∉ loose) (hcpu : cpu < C.ncpus)
  (hallowed : (C.affinity t).testBit cpu = true)
include h ht hcpu hallowed

theorem Ok.assign (hpos : 1 ≤ C.prio t) (hlist : p.list (.assigned cpu) = x :: rest)
    (hle : C.prio t ≤ C.prio x) :
    Ok C loose
      (((schedAddprioritized C p t (.assigned cpu)).setCpu t cpu).setState t .assigned) out := by
  have hhead := h.heads cpu hcpu
  have hins : insertPrioritized C.prio t (p.list (.assigned cpu)) =
      x :: insertPrioritized C.prio t rest := by
    rw [hlist]
    exact insertWhere_cons_pos (by simpa using hle) t rest
  refine h.put ht (l := .assigned cpu) ?_ (fun m hm => by simp [hm]) (by simp [Placement.tlist])
    (fun u hu => ⟨tlist_congr (by simp [hu]) (by simp [hu]), .inl (by simp [hu])⟩) ?_
    fun u hu => by simpa using h.locked_setCpu hcpu hallowed hu
  · simpa [insertPrioritized] using insertWhere_perm _ _ _
  · rintro c hc ⟨⟩
    obtain ⟨y, rest', heq, hrun, hrest⟩ := hhead.running
    obtain ⟨rfl, rfl⟩ := List.cons.inj (hlist.symm.trans heq)
    have hxt : x ≠ t := fun heq => h.placed.not_loose (l := .assigned cpu) (t := t)
      (by simp [hlist, heq]) (by simp)
    constructor
    · refine ⟨x, insertPrioritized C.prio t rest, by simp [hins], by simp [hxt, hrun], ?_⟩
      intro u hu
      by_cases hut : u = t
      · simp [hut]
      · have hmem : u ∈ rest := by
          simpa [insertPrioritized, hut] using hu
        simp [hut, hrest u hmem]
    · simp only [Placement.setState_list, setCpu_list, schedAddprioritized_list, if_true]
      refine getLast?_insertWhere hhead.idle ?_
      have := C.idle_prio cpu hc
      simp [this]
      omega
    · intro u hu
      have hu' : u = t ∨ u ∈ p.list (.assigned cpu) := by
        simpa [insertPrioritized] using hu
      rcases hu' with rfl | hu'
      · exact hallowed
      · exact hhead.allowed u hu'

theorem Ok.lead (hlist : p.list (.assigned cpu) = x :: rest) :
    Ok C loose ((((p.setList (.assigned cpu) (t :: x :: rest)).setCpu t cpu).setState t
      .running).setState x .assigned) out := by
  have hfresh : ∀ m, t ∉ p.list m := fun m hm => h.placed.not_loose hm (by simp)
  have hx : x ∈ p.list (.assigned cpu) := by simp [hlist]
  have hxt : t ≠ x := fun heq => hfresh (.assigned cpu) (heq ▸ hx)
  have hhead := h.heads cpu hcpu
  obtain ⟨y, rest', heq, hrun, hrest⟩ := hhead.running
  obtain ⟨rfl, rfl⟩ := List.cons.inj (hlist.symm.trans heq)
  refine h.put ht (l := .assigned cpu) (by simp [hlist]) (fun m hm => by simp [hm])
    (by simp [Placement.tlist, hxt]) (fun u hu => ?_) ?_
    fun u hu => by simpa using h.locked_setCpu hcpu hallowed hu
  · by_cases hux : u = x
    · subst hux
      exact ⟨by simp [Placement.tlist, hu, hrun], .inr ⟨hx, by simp⟩⟩
    · exact ⟨tlist_congr (by simp [hu, hux]) (by simp [hu]), .inl (by simp [hu, hux])⟩
  · rintro c hc ⟨⟩
    constructor
    · refine ⟨t, x :: rest, by simp, by simp [hxt], fun u hu => ?_⟩
      have hut : u ≠ t := fun heq' => hfresh (.assigned cpu) (by rw [hlist, ← heq']; exact hu)
      by_cases hux : u = x
      · simp [hux]
      · have hmem : u ∈ rest := by simpa [hux] using hu
        simp [hux, hut, hrest u hmem]
    · have hidle := hlist ▸ hhead.idle
      simpa using hidle
    · intro u hu
      have hu' : u = t ∨ u ∈ p.list (.assigned cpu) := by simpa [hlist] using hu
      rcases hu' with rfl | hu'
      · exact hallowed
      · exact hhead.allowed u hu'

end

theorem Ok.detach (h : Ok C loose p out) (ht : t ∈ p.list l)
    (hfree : ∀ c, c < C.ncpus → l = .assigned c → (p.list l).head? ≠ some t ∧ t ≠ C.idle c) :
    Ok C (t :: loose) (p.dqRem t l) out := by
  refine ⟨?_, fun c hc => ?_, h.locked, fun u => ?_⟩
  · refine h.placed.take ht ?_ (fun m hm => by simp [hm]) fun u _ => rfl
    simpa using (perm_cons_erase ht).symm
  · by_cases hcl : l = .assigned c
    · subst hcl
      obtain ⟨hhead, hidle⟩ := hfree c hc rfl
      obtain ⟨x, rest, heq, hrun, hrest⟩ := (h.heads c hc).running
      have hxt : x ≠ t := by
        rintro rfl
        exact hhead (by simp [heq])
      have hlist : (p.dqRem t (.assigned c)).list (.assigned c) = x :: rest.erase t := by
        simp [heq, hxt]
      constructor
      · exact ⟨x, rest.erase t, hlist, hrun, fun u hu => hrest u (mem_of_mem_erase hu)⟩
      · have hlast := heq ▸ (h.heads c hc).idle
        rw [hlist]
        exact getLast?_cons_erase hlast hidle
      · intro u hu
        exact (h.heads c hc).allowed u (mem_of_mem_erase (by simpa using hu))
    · exact (h.heads c hc).congr (by simp [Ne.symm hcl]) fun _ _ => rfl
  · by_cases hu : u = t
    · subst hu
      simpa [h.placed.valid ht] using h.out u
    · simpa [hu] using h.out u

/-- A task in no list gets the state that names none. -/
theorem Ok.retire (h : Ok C [t] p out) : Ok C [] (p.setState t .invalid) (update out t true) := by
  have hplaced : Placed [t] (p.setState t .invalid) := h.placed.restate (fun _ => rfl) fun u hu =>
    tlist_congr (by simpa using fun heq => absurd heq (by simpa using hu)) rfl
  refine ⟨(placed_cons_iff (by simp [Placement.tlist])).1 hplaced, fun c hc => ?_, h.locked,
    fun u => ?_⟩
  · refine (h.heads c hc).congr rfl fun u hu => ?_
    have hut : u ≠ t := by simpa using h.placed.not_loose hu
    simp [hut]
  · by_cases hu : u = t
    · simp [hu]
    · simpa [hu, update_of_ne] using h.out u

theorem Ok.behead (h : Ok C loose p out) (hcpu : cpu < C.ncpus)
    (hlist : p.list (.assigned cpu) = t :: x :: rest) :
    Ok C (t :: loose) ((p.setList (.assigned cpu) (x :: rest)).setState x .running) out := by
  have ht : t ∈ p.list (.assigned cpu) := by simp [hlist]
  have hx : x ∈ p.list (.assigned cpu) := by simp [hlist]
  have hnodup := h.placed.nodup (.assigned cpu)
  rw [hlist, nodup_cons, nodup_cons] at hnodup
  have hhead := h.heads cpu hcpu
  obtain ⟨y, rest', heq, hrun, hrest⟩ := hhead.running
  obtain ⟨rfl, rfl⟩ := List.cons.inj (hlist.symm.trans heq)
  have hxstate : p.state x = .assigned := hrest x (by simp)
  refine ⟨?_, fun c hc => ?_, h.locked, fun u => ?_⟩
  · refine h.placed.take ht (by simp [hlist]) (fun m hm => by simp [hm]) fun u hu => ?_
    by_cases hux : u = x
    · subst hux
      simp [Placement.tlist, hxstate]
    · exact tlist_congr (by simp [hux]) rfl
  · by_cases hcc : c = cpu
    · subst hcc
      constructor
      · refine ⟨x, rest, by simp, by simp, fun u hu => ?_⟩
        have hux : u ≠ x := fun heq' => hnodup.2.1 (heq' ▸ hu)
        simp [hux, hrest u (by simp [hu])]
      · have hidle := hlist ▸ hhead.idle
        simpa using hidle
      · intro u hu
        exact hhead.allowed u (by rw [hlist]; exact mem_cons_of_mem _ (by simpa using hu))
    · refine (h.heads c hc).congr (by simp [hcc]) fun u hu => ?_
      have hux : u ≠ x := by
        rintro rfl
        exact hcc (by simpa using h.placed.unique hx hu)
      simp [hux]
  · have hout := h.out u
    by_cases hu : u = t
    · subst hu
      have hux : u ≠ x := fun heq' => hnodup.1 (by simp [heq'])
      simpa [hux, hrun] using hout
    · by_cases hux : u = x
      · subst hux
        simpa [hxstate] using hout
      · simpa [hu, hux] using hout

/-! ### What the functions do -/

section

variable (h : Ok C (t :: loose) p out) (ht : t ∉ loose) (hcpu : cpu < C.ncpus)
  (hallowed : (C.affinity t).testBit cpu = true) (hlist : p.list (.assigned cpu) = x :: rest)
  (hlt : C.prio x < C.prio t)
include h ht hcpu hallowed hlist hlt

theorem Ok.preempt_locked :
    Ok C loose ((((schedAddprioritized C p t (.assigned cpu)).setCpu t cpu).setState t
      .running).setState x .assigned) out := by
  have hins : insertPrioritized C.prio t (x :: rest) = t :: x :: rest :=
    insertWhere_cons_neg (by simpa using hlt) t rest
  rw [schedAddprioritized, hlist, hins]
  exact h.lead ht hcpu hallowed hlist

theorem Ok.preempt (hlocked : C.cpuLocked x = false) (hl : ∀ c, l ≠ .assigned c)
    (hst : ∀ q : Placement, q.state x = st → q.tlist x = some l) :
    Ok C loose (schedAddprioritized C ((((schedAddprioritized C p t (.assigned cpu)).setCpu t
      cpu).setState t .running).dqRem x (.assigned cpu) |>.setState x st) x l) out := by
  have hled := h.preempt_locked ht hcpu hallowed hlist hlt
  have hins : insertPrioritized C.prio t (x :: rest) = t :: x :: rest :=
    insertWhere_cons_neg (by simpa using hlt) t rest
  have hxt : t ≠ x := fun heq => h.placed.not_loose (l := .assigned cpu) (t := t)
    (by simp [hlist, heq]) (by simp)
  -- the IDLE task is locked to the CPU, so it is not the one that leaves
  have hidle : x ≠ C.idle cpu := by
    rintro rfl
    exact nomatch hlocked.symm.trans (C.idle_locked cpu hcpu)
  have hoff := hled.detach (t := x) (l := .assigned cpu) (by simp [hlist, hins]) fun c _ hc => by
    cases hc
    exact ⟨by simpa [hlist, hins] using hxt, hidle⟩
  have hon :=
    hoff.enqueue (hled.placed.not_loose (l := .assigned cpu) (by simp [hlist, hins])) hl hst
  simpa [schedAddprioritized, Placement.setState, Placement.setList, Placement.dqRem] using hon

end

section

variable (h : Ok C [] p out)
include h

/-- The first task of a list of waiting tasks is taken. -/
theorem Ok.pop (hl : ∀ c, l ≠ .assigned c) (hlist : p.list l = t :: rest) :
    Ok C [t] (p.setList l rest) out := by
  have htaken := h.detach (t := t) (l := l) (by simp [hlist]) fun c _ hc => absurd hc (hl c)
  rwa [Placement.dqRem, hlist, erase_cons_head] at htaken

/-- A task is taken from a list, and no CPU runs it. -/
theorem Ok.dequeue (ht : t ∈ p.list l)
    (hhead : ∀ c, c < C.ncpus → (p.list (.assigned c)).head? ≠ some t)
    (hidle : ∀ c, c < C.ncpus → t ≠ C.idle c) :
    Ok C [] ((p.dqRem t l).setState t .invalid) (update out t true) := by
  refine (h.detach ht fun c hc hl => ?_).retire
  exact ⟨hl ▸ hhead c hc, hidle c hc⟩

section

variable (hcpu : cpu < C.ncpus) (hlist : p.list (.assigned cpu) = t :: x :: rest)
include hcpu hlist

theorem Ok.runNext :
    Ok C [] (((p.setList (.assigned cpu) (x :: rest)).setState x .running).setState t .invalid)
      (update out t true) :=
  (h.behead hcpu hlist).retire

/-- The running task of a CPU is taken out, and a task of the ready-to-run list that may run on the
CPU leads the list. -/
theorem Ok.runReady (hy : y ∈ p.list .readytorun) (hallowed : (C.affinity y).testBit cpu = true) :
    Ok C [] ((((((p.setList (.assigned cpu) (x :: rest)).dqRem y .readytorun).setList
      (.assigned cpu) (y :: x :: rest)).setCpu y cpu).setState y .running).setState t .invalid)
      (update out t true) := by
  have hnotin : ∀ u ∈ p.list (.assigned cpu), y ≠ u := by
    rintro u hu rfl
    exact nomatch h.placed.unique hu hy
  -- the next task runs for a moment, until the other one leads the list
  have hnext := h.behead hcpu hlist
  have hoff := hnext.detach (t := y) (l := .readytorun) (by simpa using hy) fun c _ hc => nomatch hc
  have hled := hoff.lead (by simpa using hnotin t (by simp [hlist])) hcpu hallowed
    (show _ = x :: rest by simp)
  have hdone := hled.retire
  have hxstate : p.state x = .assigned := by
    obtain ⟨z, rest', heq, -, hrest⟩ := (h.heads cpu hcpu).running
    obtain ⟨-, rfl⟩ := List.cons.inj (hlist.symm.trans heq)
    exact hrest x (by simp)
  have hxy : y ≠ x := hnotin x (by simp [hlist])
  convert hdone using 2
  refine Placement.mk.injEq .. |>.mpr ⟨?_, rfl, rfl⟩
  funext u
  by_cases hux : u = x
  · subst hux
    simp [Placement.setState, Placement.setCpu, Placement.setList, Placement.dqRem, Ne.symm hxy,
      hxstate]
  · simp [Placement.setState, Placement.setCpu, Placement.setList, Placement.dqRem, hux,
      update_apply]

end

theorem Ok.merge {list1 list2 : SmpList} (hne : list1 ≠ list2) (h1 : ∀ c, list1 ≠ .assigned c)
    (h2 : ∀ c, list2 ≠ .assigned c)
    (hst : ∀ (q : Placement) (u : TaskId), q.state u = st → q.tlist u = some list2) :
    Ok C [] (schedMergeprioritized C p list1 list2 st) out := by
  set q := schedMergeprioritized C p list1 list2 st with hq
  have hvalid : st ≠ .invalid := by
    rintro rfl
    have := hst (p.setState 0 .invalid) 0 (by simp)
    simp [Placement.tlist] at this
  have hlist1 : q.list list1 = [] := by simp [hq, schedMergeprioritized]
  have hlist2 : (q.list list2).Perm (p.list list1 ++ p.list list2) := by
    simpa [hq, schedMergeprioritized, Ne.symm hne] using
      merge_perm_append (fun a b => decide (C.prio b < C.prio a))
  have hother : ∀ m, m ≠ list1 → m ≠ list2 → q.list m = p.list m := by
    intro m hm1 hm2
    simp [hq, schedMergeprioritized, hm1, hm2]
  have hmoved : ∀ u ∈ p.list list1, q.state u = st := by
    intro u hu
    simp [hq, schedMergeprioritized, hu]
  have hkept : ∀ u, u ∉ p.list list1 → q.state u = p.state u := by
    intro u hu
    simp [hq, schedMergeprioritized, hu]
  have hkeptlist : ∀ u, u ∉ p.list list1 → q.tlist u = p.tlist u :=
    fun u hu => tlist_congr (hkept u hu) rfl
  refine ⟨⟨fun m u => ?_, fun m => ?_⟩, fun c hc => ?_, h.locked, fun u => ?_⟩
  · have hold := h.placed.mem m u
    by_cases hu : u ∈ p.list list1
    · -- a moved task is now in the second list only
      rw [hst q u (hmoved u hu)]
      by_cases hm2 : m = list2
      · subst hm2
        simp [hlist2.mem_iff, hu]
      · have hnot : u ∉ q.list m := by
          by_cases hm1 : m = list1
          · simp [hm1, hlist1]
          · rw [hother m hm1 hm2]
            exact fun hmem => hm1 (h.placed.unique hu hmem)
        simp [hnot, Ne.symm hm2]
    · rw [hkeptlist u hu, ← hold]
      by_cases hm1 : m = list1
      · subst hm1
        simp [hlist1, hu]
      · by_cases hm2 : m = list2
        · subst hm2
          simp [hlist2.mem_iff, hu]
        · rw [hother m hm1 hm2]
  · by_cases hm1 : m = list1
    · simp [hm1, hlist1]
    · by_cases hm2 : m = list2
      · subst hm2
        rw [hlist2.nodup_iff, nodup_append]
        refine ⟨h.placed.nodup list1, h.placed.nodup m, ?_⟩
        rintro a ha b hb rfl
        exact hm1 (h.placed.unique ha hb)
      · rw [hother m hm1 hm2]
        exact h.placed.nodup m
  · refine (h.heads c hc).congr (hother _ (Ne.symm (h1 c)) (Ne.symm (h2 c))) fun u hu => ?_
    exact hkept u fun hmem => h1 c (h.placed.unique hu hmem)
  · have hout := h.out u
    by_cases hu : u ∈ p.list list1
    · rw [hmoved u hu]
      simpa [hvalid, h.placed.valid hu] using hout
    · rw [hkept u hu]
      exact hout

end

end Heads

end BaseNx.Sched.Smp
