import BaseNx.Semaphore.Inheritance

/-!
# Priority of the low-priority workers

`lpwork_boostpriority` raises the worker threads to the priority of a client, and
`lpwork_restorepriority` takes one such request back. The fields of a worker are those that priority
inheritance uses, so the books of the requests are `Booked`, with the requests in the place of the
waiting tasks.

The main theorem is about every run of the two functions in which a request is taken back only after
it was made. The books come out right as long as no request at or below the base priority is taken
back from a worker with one recorded boost: `lpwork_restoreworker` then drops that boost, whoever
asked for it (`restore_of_low_request_drops_boost`).
-/

namespace BaseNx.Wqueue

open Lib PrioInherit List
open Sched (TaskId schedPriorityMin schedPriorityMax)
open Function (update update_eq_self update_idem update_of_ne update_self)

/-! ## The functions of the source -/

/-- `CONFIG_SEM_NNESTPRIO`, `CONFIG_SCHED_LPWORKPRIOMAX` and the threads in `g_lpwork.worker`. -/
structure LpWork where
  nnest : Nat
  lpworkpriomax : Nat
  worker : List TaskId
  distinct : worker.Nodup

/-- `lpwork_boostworker` -/
def lpworkBoostworker (nnest : Nat) (reqprio : Nat) (k : Kernel) (wpid : TaskId) : Kernel :=
  let wtcb := k.tcb wpid
  if 0 < nnest then
    if wtcb.basePriority < reqprio then
      if wtcb.schedPriority < reqprio then
        -- a boost that is already there is saved before the new one replaces it
        let k' := if wtcb.basePriority < wtcb.schedPriority then
            pushReprio nnest k wpid wtcb.schedPriority
          else k
        (nxschedSetpriority k' wpid reqprio).2
      else pushReprio nnest k wpid reqprio
    else k
  else if wtcb.schedPriority < reqprio then (nxschedSetpriority k wpid reqprio).2
  else k

/-- `lpwork_restoreworker` -/
def lpworkRestoreworker (nnest : Nat) (reqprio : Nat) (k : Kernel) (wpid : TaskId) : Kernel :=
  let wtcb := k.tcb wpid
  if wtcb.schedPriority ≠ wtcb.basePriority then
    if 0 < nnest then
      -- here the source does not compare the boost with `reqprio`
      if wtcb.pendReprios.length < 1 then nxschedReprioritize k wpid wtcb.basePriority
      else if wtcb.schedPriority ≤ reqprio then dropToPending k wpid
      else forgetPending k wpid reqprio
    else nxschedReprioritize k wpid wtcb.basePriority
  else k

variable (cfg : LpWork) (k : Kernel) (reqprio : UInt8)

/-- The first lines of both functions limit the request. -/
def LpWork.clip (reqprio : UInt8) : Nat :=
  if cfg.lpworkpriomax < reqprio.toNat then cfg.lpworkpriomax else reqprio.toNat

/-- `lpwork_boostpriority` -/
def lpworkBoostpriority : Kernel :=
  cfg.worker.foldl (lpworkBoostworker cfg.nnest (cfg.clip reqprio)) k

/-- `lpwork_restorepriority` -/
def lpworkRestorepriority : Kernel :=
  cfg.worker.foldl (lpworkRestoreworker cfg.nnest (cfg.clip reqprio)) k

/-! ## What they do to the fields of a worker

A worker may be blocked on a semaphore when a request comes; then it also moves in the list of
waiting tasks, which its fields do not show. -/

section Fields

variable {k : Kernel} {t w : TaskId} {p r nnest : Nat}

theorem valid_of_pos (h0 : 0 < p) (hle : p ≤ 255) : Valid p := by
  simp only [Valid, schedPriorityMin, schedPriorityMax]
  omega

theorem setpriority_tcb (hp : Valid p) :
    (nxschedSetpriority k t p).2.tcb =
      update k.tcb t { k.tcb t with schedPriority := p } := by
  rw [nxschedSetpriority, if_neg hp]
  dsimp only
  split <;> rfl

theorem setpriority_ok (hp : Valid p) : (nxschedSetpriority k t p).1 = 0 := by
  rw [nxschedSetpriority, if_neg hp]
  dsimp only
  split <;> rfl

theorem reprioritize_tcb (hp : Valid p) :
    (nxschedReprioritize k t p).tcb = update k.tcb t
      { k.tcb t with basePriority := p, schedPriority := p, pendReprios := [] } := by
  rw [nxschedReprioritize]
  dsimp only
  rw [if_pos (setpriority_ok hp)]
  simp only [Kernel.setTcb, setpriority_tcb hp, update_self, update_idem]

/-- A request changes the fields of the worker as a waiting task changes those of a holder. -/
theorem boostworker_tcb (hr : r ≤ 255) :
    (lpworkBoostworker nnest r k w).tcb =
      update k.tcb w ((k.tcb w).boost nnest r) := by
  simp only [lpworkBoostworker, Tcb.boost, pushReprio_eq]
  split
  · split
    · split
      · -- the new priority is the highest so far, and the old one may have to be saved
        rename_i hlt
        have hvalid : Valid r := valid_of_pos (Nat.zero_lt_of_lt hlt) hr
        rw [setpriority_tcb hvalid]
        split
        · simp only [Kernel.setTcb, update_self, update_idem]
        · rfl
      · rfl
    · exact (update_eq_self w k.tcb).symm
  · split
    · rename_i hlt
      exact setpriority_tcb (valid_of_pos (Nat.zero_lt_of_lt hlt) hr)
    · exact (update_eq_self w k.tcb).symm

/-- The fields for which `nxsched_setpriority` accepts what a restore passes to it. -/
def Restorable (x : Tcb) : Prop := Valid x.basePriority ∧ ∀ q ∈ x.pendReprios, Valid q

theorem restoreworker_tcb (h : Restorable (k.tcb w)) :
    (lpworkRestoreworker nnest p k w).tcb =
      update k.tcb w ((k.tcb w).restore nnest p) := by
  obtain ⟨hbase, hpend⟩ := h
  simp only [lpworkRestoreworker, Tcb.restore]
  split
  · split
    · split
      · exact reprioritize_tcb hbase
      · split
        · rename_i hlen _
          have hne : (k.tcb w).pendReprios ≠ [] := by
            intro hnil
            rw [hnil] at hlen
            exact hlen zero_lt_one
          obtain ⟨q, hq, -⟩ := firstMax_spec hne
          have hget : (k.tcb w).pendReprios.getD (firstMax (k.tcb w).pendReprios) 0 = q := by
            rw [getD_eq_getElem?_getD, hq]
            rfl
          simp only [dropToPending, hget]
          rw [setpriority_tcb (hpend q (mem_of_getElem? hq))]
          simp only [Kernel.setTcb, update_self, update_idem]
        · simp only [forgetPending]
          cases (k.tcb w).pendReprios.idxOf? p with
          | none => exact (update_eq_self w k.tcb).symm
          | some i => rfl
    · exact reprioritize_tcb hbase
  · exact (update_eq_self w k.tcb).symm

/-- A loop over the workers changes the fields of each of them once. -/
theorem foldl_tcb {g : Kernel → TaskId → Kernel} {f : Tcb → Tcb} {P : Tcb → Prop}
    (hg : ∀ k w, P (k.tcb w) → (g k w).tcb = update k.tcb w (f (k.tcb w))) :
    ∀ (l : List TaskId) (k : Kernel), l.Nodup → (∀ w ∈ l, P (k.tcb w)) →
      ∀ t, (l.foldl g k).tcb t = if t ∈ l then f (k.tcb t) else k.tcb t := by
  intro l
  induction l with
  | nil => exact fun k _ _ t => rfl
  | cons w l ih =>
    intro k hnodup hP t
    obtain ⟨hout, hnodup⟩ := nodup_cons.1 hnodup
    have hstep := hg k w (hP w mem_cons_self)
    have hother : ∀ u, u ≠ w → (g k w).tcb u = k.tcb u := fun u hu => by
      rw [hstep, update_of_ne hu]
    have hP' : ∀ u ∈ l, P ((g k w).tcb u) := fun u hu => by
      rw [hother u fun heq => hout (heq ▸ hu)]
      exact hP u (mem_cons_of_mem w hu)
    rw [foldl_cons, ih (g k w) hnodup hP' t]
    by_cases htw : t = w
    · rw [htw, if_neg hout, hstep, update_self, if_pos mem_cons_self]
    · rw [hother t htw]
      simp only [mem_cons, htw, false_or]

end Fields

/-! ## Runs -/

/-- The kernel, with the requests that were made and not yet taken back. -/
structure Requests where
  kernel : Kernel
  outstanding : List UInt8

/-- `other` stands for what the rest of the system does between two calls. -/
inductive Call
  | boost (reqprio : UInt8)
  | restore (reqprio : UInt8)
  | other (k : Kernel)

variable (cfg : LpWork) (s : Requests)

def Requests.apply : Call → Option Requests
  | .boost p => some ⟨lpworkBoostpriority cfg s.kernel p, p :: s.outstanding⟩
  | .restore p => some ⟨lpworkRestorepriority cfg s.kernel p, s.outstanding.erase p⟩
  | .other k => some ⟨k, s.outstanding⟩

/-- The priority fields of a task. -/
def priorities (x : Tcb) : Nat × Nat × List Nat := (x.basePriority, x.schedPriority, x.pendReprios)

/-- There is room for one more request in the nesting list, a request is taken back after it was
made, and nothing else writes the priorities of the workers. -/
def Requests.Enabled : Call → Prop
  | .boost _ => s.outstanding.length < cfg.nnest
  | .restore p => p ∈ s.outstanding
  | .other k => ∀ w ∈ cfg.worker, priorities (k.tcb w) = priorities (s.kernel.tcb w)

/-- What the source needs on top: a request that is taken back is above the base priority, or the
worker is not boosted, or a further boost is recorded. -/
def Requests.Orderly (c : Call) : Prop :=
  s.Enabled cfg c ∧
    match c with
    | .restore p => ∀ w ∈ cfg.worker, (s.kernel.tcb w).basePriority < cfg.clip p ∨
        (s.kernel.tcb w).schedPriority = (s.kernel.tcb w).basePriority ∨
        (s.kernel.tcb w).pendReprios ≠ []
    | _ => True

instance (cfg : LpWork) (s : Requests) (c : Call) : Decidable (s.Enabled cfg c) := by
  cases c <;> unfold Requests.Enabled <;> infer_instance

instance (cfg : LpWork) (s : Requests) (c : Call) : Decidable (s.Orderly cfg c) := by
  cases c <;> unfold Requests.Orderly <;> infer_instance

/-- No request was made yet, and the workers have their base priorities. -/
structure Requests.Start (cfg : LpWork) (base : TaskId → Nat) (s : Requests) : Prop where
  outstanding : s.outstanding = []
  atBase : ∀ w ∈ cfg.worker, (s.kernel.tcb w).basePriority = base w
  sched : ∀ w ∈ cfg.worker, (s.kernel.tcb w).schedPriority = base w
  pend : ∀ w ∈ cfg.worker, (s.kernel.tcb w).pendReprios = []

/-- The states of the runs in which every call is orderly. -/
def OrderlyRun (base : TaskId → Nat) (s : Requests) : Prop :=
  Reach (Requests.Start cfg base) (LabelledStep (Requests.Orderly cfg) (Requests.apply cfg)) s

/-- The limited priorities of the outstanding requests. -/
def Requests.claimed : Multiset Nat :=
  ((s.outstanding.map cfg.clip : List Nat) : Multiset Nat)

/-- The books of the workers hold the outstanding requests. -/
def Requests.Kept (base : TaskId → Nat) (s : Requests) : Prop :=
  ∀ w ∈ cfg.worker, (s.kernel.tcb w).basePriority = base w ∧
    Booked cfg.nnest (s.kernel.tcb w) (s.claimed cfg)

section Steps

variable {cfg : LpWork} {base : TaskId → Nat} {s : Requests} {p : UInt8} {x y : Tcb}
  {C : Multiset Nat} {nnest r : Nat}

theorem clip_le (cfg : LpWork) (p : UInt8) : cfg.clip p ≤ 255 := by
  have hp : p.toNat < 256 := p.toNat_lt
  rw [LpWork.clip]
  split <;> omega

theorem boost_basePriority : (x.boost nnest r).basePriority = x.basePriority := by
  simp only [Tcb.boost, Tcb.push]
  split_ifs <;> rfl

theorem restore_basePriority : (x.restore nnest r).basePriority = x.basePriority := by
  simp only [Tcb.restore]
  split_ifs
  · rfl
  · rfl
  · cases x.pendReprios.idxOf? r <;> rfl
  · rfl
  · rfl

theorem booked_congr (h : Booked nnest x C) (heq : priorities y = priorities x) :
    Booked nnest y C := by
  obtain ⟨hbase, hsched, hpend⟩ : y.basePriority = x.basePriority ∧
      y.schedPriority = x.schedPriority ∧ y.pendReprios = x.pendReprios := by
    simpa only [priorities, Prod.mk.injEq] using heq
  simpa only [Booked, Inherits, Nested, hbase, hsched, hpend] using h

/-- What is recorded is a limited request, and so a valid priority. -/
theorem Requests.Kept.restorable (hk : s.Kept cfg base) (hbase : ∀ w ∈ cfg.worker, Valid (base w))
    {w : TaskId} (hw : w ∈ cfg.worker) : Restorable (s.kernel.tcb w) := by
  obtain ⟨hb, hbooked⟩ := hk w hw
  have hvalid : Valid (s.kernel.tcb w).basePriority := hb ▸ hbase w hw
  refine ⟨hvalid, fun q hq => ?_⟩
  have hpos : (s.kernel.tcb w).basePriority < q := hbooked.base_lt_pend hq
  obtain ⟨a, -, rfl⟩ := mem_map.1 (Multiset.mem_coe.1 (hbooked.pend_mem hq))
  exact valid_of_pos (Nat.zero_lt_of_lt hpos) (clip_le cfg a)

theorem Requests.Kept.boost (hk : s.Kept cfg base) (hn : s.outstanding.length < cfg.nnest) :
    Requests.Kept cfg base ⟨lpworkBoostpriority cfg s.kernel p, p :: s.outstanding⟩ := by
  intro w hw
  obtain ⟨hb, hbooked⟩ := hk w hw
  have htcb : (lpworkBoostpriority cfg s.kernel p).tcb w =
      (s.kernel.tcb w).boost cfg.nnest (cfg.clip p) := by
    rw [lpworkBoostpriority, foldl_tcb (P := fun _ => True)
      (fun k w _ => boostworker_tcb (clip_le cfg p)) cfg.worker s.kernel cfg.distinct
      (fun _ _ => trivial) w, if_pos hw]
  refine ⟨by rw [htcb, boost_basePriority, hb], ?_⟩
  rw [htcb]
  refine hbooked.boost fun _ => ?_
  rw [Requests.claimed, Multiset.coe_card, length_map]
  exact hn

theorem Requests.Kept.restore (hk : s.Kept cfg base) (hbase : ∀ w ∈ cfg.worker, Valid (base w))
    (hn : 0 < cfg.nnest) (h : s.Orderly cfg (.restore p)) :
    Requests.Kept cfg base ⟨lpworkRestorepriority cfg s.kernel p, s.outstanding.erase p⟩ := by
  obtain ⟨hmem, hfit⟩ := h
  intro w hw
  obtain ⟨hb, hbooked⟩ := hk w hw
  have htcb : (lpworkRestorepriority cfg s.kernel p).tcb w =
      (s.kernel.tcb w).restore cfg.nnest (cfg.clip p) := by
    rw [lpworkRestorepriority, foldl_tcb (fun k w => restoreworker_tcb) cfg.worker s.kernel
      cfg.distinct (fun w hw => hk.restorable hbase hw) w, if_pos hw]
  -- the request that is taken back is one of those in the books
  have hsplit : s.claimed cfg = cfg.clip p ::ₘ
      (0 + (((s.outstanding.erase p).map cfg.clip : List Nat) : Multiset Nat)) := by
    rw [Multiset.zero_add, Requests.claimed, Multiset.cons_coe, Multiset.coe_eq_coe]
    exact (perm_cons_erase hmem).map cfg.clip
  refine ⟨by rw [htcb, restore_basePriority, hb], ?_⟩
  rw [htcb]
  exact Booked.restore_pos hn (hsplit ▸ hbooked) (fun q hq => absurd hq (Multiset.notMem_zero q))
    (hfit w hw)

theorem OrderlyRun.kept (hn : 0 < cfg.nnest) (hbase : ∀ w ∈ cfg.worker, Valid (base w))
    (h : OrderlyRun cfg base s) : s.Kept cfg base := by
  refine Reach.labelled (P := Requests.Kept cfg base) ?_ ?_ h
  · intro s hs w hw
    refine ⟨hs.atBase w hw,
      booked_of_le ((hs.sched w hw).trans (hs.atBase w hw).symm) (hs.pend w hw) ?_⟩
    intro q hq
    rw [Requests.claimed, hs.outstanding] at hq
    exact absurd hq (Multiset.notMem_zero q)
  · intro s c hs hc
    cases c with
    | boost p => exact ⟨_, rfl, hs.boost hc.1⟩
    | restore p => exact ⟨_, rfl, hs.restore hbase hn hc⟩
    | other k =>
      refine ⟨_, rfl, fun w hw => ?_⟩
      obtain ⟨hb, hbooked⟩ := hs w hw
      have hsame := hc.1 w hw
      exact ⟨(congrArg Prod.fst hsame).trans hb, booked_congr hbooked hsame⟩

end Steps

/-- After every call of a run, each worker has the largest of its base priority and the limited
priorities of the requests that are not yet taken back. -/
theorem boosts_add_up (cfg : LpWork) (base : TaskId → Nat) (hn : 0 < cfg.nnest)
    (hbase : ∀ w ∈ cfg.worker, Valid (base w)) (s : Requests) (h : OrderlyRun cfg base s) :
    ∀ w ∈ cfg.worker, (s.kernel.tcb w).basePriority = base w ∧
      IsGreatest {p | p = base w ∨ ∃ r ∈ s.outstanding, p = cfg.clip r}
        (s.kernel.tcb w).schedPriority := by
  intro w hw
  obtain ⟨hb, hbooked⟩ := h.kept hn hbase w hw
  have hset : {p | p = base w ∨ ∃ r ∈ s.outstanding, p = cfg.clip r} =
      {p | p = (s.kernel.tcb w).basePriority ∨ p ∈ s.claimed cfg} := by
    ext p
    simp only [Set.mem_ofPred_eq, hb, Requests.claimed, Multiset.mem_coe, mem_map, eq_comm]
  exact ⟨hb, hset ▸ hbooked.inherits⟩

/-- Two workers of priority 50 and a limit of 176. -/
def twoWorkers : LpWork := ⟨4, 176, [7, 8], by decide⟩

/-- The workers before the first request. -/
def idleWorkers : Requests :=
  ⟨⟨fun _ => ⟨50, 50, [], none, true⟩, fun _ => ⟨1, false, []⟩, 0, []⟩, []⟩

theorem boosts_add_up_sample :
    let s := after (Requests.apply twoWorkers) idleWorkers
      [.boost 100, .boost 200, .boost 40, .restore 200, .boost 90, .restore 40]
    s.outstanding = [90, 100] ∧ (s.kernel.tcb 8).schedPriority = 100 ∧
      IsGreatest {p | p = 50 ∨ ∃ r ∈ s.outstanding, p = twoWorkers.clip r}
        (s.kernel.tcb 8).schedPriority :=
  ⟨by decide, by decide,
    (boosts_add_up twoWorkers (fun _ => 50) (by decide)
      (fun _ _ => valid_of_pos (by decide) (by decide)) _
      (Reach.after _ (.start ⟨rfl, fun _ _ => rfl, fun _ _ => rfl, fun _ _ => rfl⟩) (by decide))
      8 (by decide)).2⟩

/-- A request of priority 100 is outstanding and one of priority 40, below the base priority, is
taken back: the workers fall to their base priority. -/
theorem restore_of_low_request_drops_boost :
    let calls : List Call := [.boost 100, .boost 40, .restore 40]
    let s := after (Requests.apply twoWorkers) idleWorkers calls
    AllSteps (Requests.Enabled twoWorkers) (Requests.apply twoWorkers) idleWorkers calls ∧
      s.outstanding = [100] ∧ twoWorkers.clip 100 = 100 ∧
      ∀ w ∈ twoWorkers.worker, (s.kernel.tcb w).schedPriority = 50 := by
  decide

end BaseNx.Wqueue
