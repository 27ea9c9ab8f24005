import BaseNx.Lib.Reach
import BaseNx.Wdog.ActiveList

/-!
# Every watchdog runs on its tick

The purpose of the watchdogs is stated on the history alone. `pendingStart h w` is the start that
the watchdog `w` still waits for after the history `h`, and `Started.due` is the tick it asked for.
`Rep s A` ties the delta list of a state `s` to the armed watchdogs `A`, in the order in which they
will run. Each operation keeps it (`wdCancel_rep`, `wdStart_rep`, `expireHead_rep`), the expiry loop
ends with nothing due (`expirationLoop_rep`), and `OnTime` follows for every state that lies between
two ticks.

`watchdog_keeps_every_deadline` is the result for all runs.
-/

namespace BaseNx.Wdog

open Lib List
open Function (update update_of_ne)

/-! ## What a history asks for -/

/-- A successful `wd_start`: its place in the history, the tick and the arguments. -/
structure Started where
  index : Nat
  tick : Nat
  delay : Int
  func : Nat
  parm : List Nat
  deriving DecidableEq

/-- The tick on which a started watchdog is to run. -/
def Started.due (st : Started) : Int := st.tick + st.delay + 1

/-- The start for which a watchdog is still pending. -/
def pendingStart : List Event → WdogId → Option Started
  | [], _ => none
  | .start w tick delay func parm :: h, v =>
    if w = v then some ⟨h.length, tick, delay, func, parm⟩ else pendingStart h v
  | .cancel w _ :: h, v => if w = v then none else pendingStart h v
  | .run w _ _ _ :: h, v => if w = v then none else pendingStart h v

section

variable (h : List Event) (w : WdogId)
include h

theorem pendingStart_start (n : Nat) (d : Int) (f : Nat) (p : List Nat) (v : WdogId) :
    pendingStart (.start w n d f p :: h) v =
      if w = v then some ⟨h.length, n, d, f, p⟩ else pendingStart h v := rfl

theorem pendingStart_cancel (n : Nat) (v : WdogId) :
    pendingStart (.cancel w n :: h) v = if w = v then none else pendingStart h v := rfl

theorem pendingStart_run (n f : Nat) (p : List Nat) (v : WdogId) :
    pendingStart (.run w n f p :: h) v = if w = v then none else pendingStart h v := rfl

end

theorem pendingStart_index_lt : ∀ {h : List Event} {w : WdogId} {st : Started},
    pendingStart h w = some st → st.index < h.length
  | [], _, _, hp => by simp [pendingStart] at hp
  | .start v n d f p :: h, w, st, hp => by
    rw [pendingStart_start] at hp
    split at hp
    · obtain rfl := Option.some.inj hp
      exact Nat.lt_succ_self _
    · exact Nat.lt_succ_of_lt (pendingStart_index_lt hp)
  | .cancel v n :: h, w, st, hp => by
    rw [pendingStart_cancel] at hp
    split at hp
    · cases hp
    · exact Nat.lt_succ_of_lt (pendingStart_index_lt hp)
  | .run v n f p :: h, w, st, hp => by
    rw [pendingStart_run] at hp
    split at hp
    · cases hp
    · exact Nat.lt_succ_of_lt (pendingStart_index_lt hp)

/-- `a` runs before `b`: it is due earlier, or on the same tick and was started earlier. -/
def Earlier (a b : WdogId × Started) : Prop :=
  a.2.due < b.2.due ∨ a.2.due = b.2.due ∧ a.2.index < b.2.index

variable {a : WdogId × Started}

theorem Earlier.trans {b c : WdogId × Started} (hab : Earlier a b) (hbc : Earlier b c) :
    Earlier a c := by
  unfold Earlier at *
  omega

/-- Each function was run for a pending start, on its tick and with its arguments, and before all
others that were pending. -/
def RunsOnTime : List Event → Prop
  | [] => True
  | .run w tick func parm :: h =>
    RunsOnTime h ∧ ∃ st, pendingStart h w = some st ∧ st.due = tick ∧ st.func = func ∧
      st.parm = parm ∧ ∀ v st', pendingStart h v = some st' → v ≠ w → Earlier (w, st) (v, st')
  | _ :: h => RunsOnTime h

def Event.tick : Event → Nat
  | .start _ n _ _ _ => n
  | .cancel _ n => n
  | .run _ n _ _ => n

/-! ## The representation -/

/-- The deadline of an armed watchdog. -/
def deadlineOf (a : WdogId × Started) : WdogId × Int := (a.1, a.2.due)

/-- A watchdog is armed as it was started, and the wait has not ended before its tick. -/
structure Armed (s : State) (a : WdogId × Started) : Prop where
  call : (s.wdog a.1).func = a.2.func ∧ (s.wdog a.1).parm = a.2.parm ∧
    a.2.parm.length ≤ maxWdogparms
  lower : (s.ticks : Int) ≤ a.2.due
  upper : a.2.due ≤ s.ticks + int32Max

/-- The active list of `s` represents the armed watchdogs `A` in the order of their runs. -/
structure Rep (s : State) (A : List (WdogId × Started)) : Prop where
  list : deadlines s.ticks s.wdactivelist = A.map deadlineOf
  nodup : (A.map Prod.fst).Nodup
  mem : ∀ w st, (w, st) ∈ A ↔ pendingStart s.history w = some st
  sorted : A.Pairwise Earlier
  flag : ∀ w, (s.wdog w).active = true ↔ ∃ st, (w, st) ∈ A
  armed : ∀ a ∈ A, Armed s a
  runs : RunsOnTime s.history
  past : ∀ e ∈ s.history, e.tick ≤ s.ticks

variable {w : WdogId} {rest : List Entry} {A : List (WdogId × Started)} {delay lag : Int}
  {parm : List Nat} {n f : Nat} {r : Request}

section Rep

variable {s : State}

theorem Rep.keys (h : Rep s A) : s.wdactivelist.map Prod.fst = A.map Prod.fst := by
  have hk := congrArg (List.map Prod.fst) h.list
  rw [deadlines_keys, map_map] at hk
  exact hk

theorem Rep.bounded (h : Rep s A) : Bounded 0 s.wdactivelist := by
  refine ⟨?_, ?_⟩
  · refine distance_nonneg_of_sorted (b := s.ticks) ?_ ?_
    · rw [h.list, pairwise_map]
      refine h.sorted.imp ?_
      intro a b hab
      unfold Earlier at hab
      show a.2.due ≤ b.2.due
      omega
    · intro e he
      rw [h.list, mem_map] at he
      obtain ⟨a, ha, rfl⟩ := he
      exact (h.armed a ha).lower
  · intro e he
    rw [deadlines_shift 0 s.ticks, mem_map] at he
    obtain ⟨x, hx, rfl⟩ := he
    rw [h.list, mem_map] at hx
    obtain ⟨a, ha, rfl⟩ := hx
    have := (h.armed a ha).upper
    show a.2.due + (0 - (s.ticks : Int)) ≤ int32Max
    omega

/-! ## Cancelling and starting -/

/-- Take a watchdog out of the armed ones. -/
def disarm (w : WdogId) (A : List (WdogId × Started)) : List (WdogId × Started) :=
  A.filter (fun a => decide (a.1 ≠ w))

@[simp] theorem mem_disarm : a ∈ disarm w A ↔ a ∈ A ∧ a.1 ≠ w := by
  simp [disarm, mem_filter]

theorem map_disarm (w : WdogId) : (disarm w A).map deadlineOf =
    (A.map deadlineOf).filter (fun e => decide (e.1 ≠ w)) := by
  rw [filter_map]
  rfl

theorem disarm_of_not_armed (hw : ∀ st, (w, st) ∉ A) : disarm w A = A := by
  refine filter_eq_self.2 fun a ha => decide_eq_true fun haw => hw a.2 ?_
  rw [← haw]
  exact ha

theorem Rep.leave (h : Rep s A) {list : List Entry} {e : Event}
    (hlist : deadlines s.ticks list = (disarm w A).map deadlineOf)
    (hpending : ∀ v, pendingStart (e :: s.history) v =
      if w = v then none else pendingStart s.history v)
    (hruns : RunsOnTime (e :: s.history)) (htick : e.tick = s.ticks) :
    Rep (({ s with wdactivelist := list }.setWdog w { s.wdog w with active := false }).record e)
      (disarm w A) := by
  refine ⟨hlist, h.nodup.sublist (filter_sublist.map _), ?_, h.sorted.filter _, ?_, ?_, hruns, ?_⟩
  · intro v st
    show _ ↔ pendingStart (e :: s.history) v = some st
    rw [mem_disarm, hpending, h.mem]
    by_cases hv : w = v
    · simp [hv]
    · simp [hv, Ne.symm hv]
  · intro v
    show (update s.wdog w _ v).active = true ↔ _
    by_cases hv : v = w
    · subst hv
      simp
    · rw [update_of_ne hv, h.flag]
      simp [hv]
  · intro a ha
    obtain ⟨ha, hne⟩ := mem_disarm.1 ha
    refine { h.armed a ha with call := ?_ }
    show (update s.wdog w _ a.1).func = _ ∧ (update s.wdog w _ a.1).parm = _ ∧ _
    rw [update_of_ne hne]
    exact (h.armed a ha).call
  · exact forall_mem_cons.2 ⟨htick.le, h.past⟩

theorem wdCancel_rep (h : Rep s A) (hw : (s.wdog w).active = true) :
    Rep (wdCancel (some w) s).2 (disarm w A) := by
  have hlist : removeEntry w s.wdactivelist = deltaRemove w s.wdactivelist :=
    removeEntry_eq w 0 _ le_rfl h.bounded
  simp only [wdCancel, if_pos hw]
  refine h.leave ?_ (fun _ => rfl) h.runs rfl
  rw [hlist, deadlines_deltaRemove w _ _ (h.keys ▸ h.nodup), h.list, map_disarm]

/-- The state in which `wd_start` inserts: any earlier start of the watchdog is cancelled. -/
def cancelIfActive (w : WdogId) (s : State) : State :=
  if (s.wdog w).active then (wdCancel (some w) s).2 else s

theorem cancelIfActive_ticks (w : WdogId) (s : State) : (cancelIfActive w s).ticks = s.ticks := by
  unfold cancelIfActive
  split
  · next h => simp [wdCancel, h, State.record, State.setWdog]
  · rfl

theorem cancelIfActive_rep (h : Rep s A) (w : WdogId) : Rep (cancelIfActive w s) (disarm w A) := by
  unfold cancelIfActive
  split
  · next hw => exact wdCancel_rep h hw
  · next hw =>
      rw [disarm_of_not_armed fun st hst => hw ((h.flag w).2 ⟨st, hst⟩)]
      exact h

/-- The armed watchdogs after a start. -/
def arm (w : WdogId) (st : Started) (A : List (WdogId × Started)) : List (WdogId × Started) :=
  insertWhere (fun a => decide (a.2.due ≤ st.due)) (w, st) A

theorem map_arm (w : WdogId) (st : Started) (A : List (WdogId × Started)) :
    (arm w st A).map deadlineOf =
      insertWhere (fun e => decide (e.2 ≤ st.due)) (w, st.due) (A.map deadlineOf) :=
  map_insertWhere deadlineOf (fun e => decide (e.2 ≤ st.due)) (w, st) A

theorem adjustDelay_eq (h0 : 0 ≤ delay) (hm : delay < int32Max) :
    adjustDelay delay = delay + 1 := by
  unfold int32Max at hm
  unfold adjustDelay
  split
  · omega
  · rw [i32_eq_self (by omega) (by omega), if_neg (by omega)]

theorem wdStart_snd (hp : parm.length ≤ maxWdogparms) (h0 : 0 ≤ delay) (s : State) :
    (wdStart (some w) delay f parm s).2 =
      (({ cancelIfActive w s with
          wdactivelist :=
            wdInsert w (adjustDelay delay) (cancelIfActive w s).wdactivelist }).setWdog
        w ⟨f, parm, true⟩).record (.start w (cancelIfActive w s).ticks delay f parm) := by
  have hneg : ¬ (maxWdogparms < parm.length ∨ delay < 0) := by omega
  simp only [wdStart, if_neg hneg]
  rfl

/-- `wd_start` arms the watchdog behind all that are due on the same tick or earlier. -/
theorem wdStart_rep (h : Rep s A) (w : WdogId) (f : Nat) (hp : parm.length ≤ maxWdogparms)
    (h0 : 0 ≤ delay) (hm : delay < int32Max) :
    Rep (wdStart (some w) delay f parm s).2
      (arm w ⟨(cancelIfActive w s).history.length, s.ticks, delay, f, parm⟩ (disarm w A)) := by
  have hc := cancelIfActive_rep h w
  have ht := cancelIfActive_ticks w s
  have hnot : ∀ st, (w, st) ∉ disarm w A := fun st hst => (mem_disarm.1 hst).2 rfl
  rw [wdStart_snd hp h0, ht]
  generalize cancelIfActive w s = c at hc ht
  generalize disarm w A = B at hc hnot
  have hdue : (c.ticks : Int) + adjustDelay delay = (s.ticks : Int) + delay + 1 := by
    rw [adjustDelay_eq h0 hm, ht]; omega
  have hins : wdInsert w (adjustDelay delay) c.wdactivelist =
      deltaInsert w (adjustDelay delay) c.wdactivelist := by
    rw [adjustDelay_eq h0 hm]
    exact wdInsert_eq w (by omega) (by omega) hc.bounded
  refine ⟨?_, ?_, ?_, ?_, ?_, ?_, hc.runs, ?_⟩
  · show deadlines c.ticks (wdInsert w (adjustDelay delay) c.wdactivelist) = _
    rw [hins, deadlines_deltaInsert, hc.list, map_arm, hdue]
    rfl
  · rw [arm, ((insertWhere_perm _ _ _).map Prod.fst).nodup_iff, map_cons, nodup_cons]
    refine ⟨fun hmem => ?_, hc.nodup⟩
    obtain ⟨⟨v, st⟩, ha, rfl⟩ := mem_map.1 hmem
    exact hnot st ha
  · intro v st
    show _ ↔ pendingStart (.start w s.ticks delay f parm :: c.history) v = some st
    rw [arm, mem_insertWhere, pendingStart_start]
    by_cases hv : w = v
    · subst hv
      simp [hnot, eq_comm]
    · simp [hv, Ne.symm hv, hc.mem]
  · refine insertWhere_pairwise (fun a b => Earlier.trans) hc.sorted ?_ ?_
    · intro a ha hle
      have hlt := pendingStart_index_lt ((hc.mem a.1 a.2).1 ha)
      have hle := of_decide_eq_true hle
      simp only [Earlier]
      omega
    · intro a _ hlt
      have hlt := of_decide_eq_false hlt
      simp only [Earlier]
      omega
  · intro v
    show (update c.wdog w _ v).active = true ↔ _
    by_cases hv : v = w
    · subst hv
      simp [arm]
    · rw [update_of_ne hv, hc.flag]
      simp [arm, hv]
  · intro a ha
    rcases mem_insertWhere.1 ha with rfl | ha
    · refine ⟨by simpa [State.record, State.setWdog] using hp, ?_, ?_⟩
      · show (c.ticks : Int) ≤ s.ticks + delay + 1
        omega
      · show (s.ticks : Int) + delay + 1 ≤ c.ticks + int32Max
        omega
    · have hne : a.1 ≠ w := fun haw => hnot a.2 (haw ▸ ha)
      refine { hc.armed a ha with call := ?_ }
      show (update c.wdog w _ a.1).func = _ ∧ (update c.wdog w _ a.1).parm = _ ∧ _
      rw [update_of_ne hne]
      exact (hc.armed a ha).call
  · intro e he
    rcases mem_cons.1 he with rfl | he
    · exact ht.ge
    · exact hc.past e he

/-! ## Requests -/

/-- The number of armed watchdogs that are due by tick `n`. -/
def overdue (n : Nat) (A : List (WdogId × Started)) : Nat :=
  A.countP fun a => decide (a.2.due ≤ (n : Int))

theorem overdue_eq_zero : overdue n A = 0 ↔ ∀ a ∈ A, (n : Int) < a.2.due := by
  simp [overdue, countP_eq_zero]

theorem overdue_disarm (n : Nat) (w : WdogId) (A : List (WdogId × Started)) :
    overdue n (disarm w A) ≤ overdue n A :=
  filter_sublist.countP_le

theorem overdue_arm {st : Started} (hst : (n : Int) < st.due) (w : WdogId)
    (A : List (WdogId × Started)) : overdue n (arm w st A) = overdue n A := by
  rw [overdue, arm, (insertWhere_perm _ _ _).countP_eq, countP_cons_of_neg]
  · rfl
  · simpa using hst

/-- The delays for which the deadline is promised: all below the largest `int32_t`. -/
def Request.InRange : Request → Prop
  | .start _ delay _ _ => delay < int32Max
  | .cancel _ => True

/-- A request keeps the representation, takes no time and makes nothing due. -/
theorem serve_rep (h : Rep s A) (hr : r.InRange) :
    ∃ B, Rep (serve s r) B ∧ (serve s r).ticks = s.ticks ∧
      overdue s.ticks B ≤ overdue s.ticks A := by
  cases r with
  | start wdog delay f parm =>
    cases wdog with
    | none => exact ⟨A, h, rfl, le_rfl⟩
    | some w =>
      by_cases hbad : maxWdogparms < parm.length ∨ delay < 0
      · have hs : serve s (.start (some w) delay f parm) = s := by
          simp only [serve, wdStart, if_pos hbad]
        exact ⟨A, hs.symm ▸ h, by rw [hs], le_rfl⟩
      · refine ⟨_, wdStart_rep h w f (by omega) (by omega) hr, ?_, ?_⟩
        · rw [serve, wdStart_snd (by omega) (by omega)]
          exact cancelIfActive_ticks w s
        · rw [overdue_arm]
          · exact overdue_disarm s.ticks w A
          · simp only [Started.due]; omega
  | cancel wdog =>
    cases wdog with
    | none => exact ⟨A, h, rfl, le_rfl⟩
    | some w =>
      by_cases hw : (s.wdog w).active = true
      · refine ⟨_, wdCancel_rep h hw, ?_, overdue_disarm s.ticks w A⟩
        simp [serve, wdCancel, hw, State.record, State.setWdog]
      · have hs : serve s (.cancel (some w)) = s := by
          simp only [serve, wdCancel, if_neg hw]
        exact ⟨A, hs.symm ▸ h, by rw [hs], le_rfl⟩

theorem serve_all_rep : ∀ {body : List Request} {s : State} {A : List (WdogId × Started)},
    Rep s A → (∀ r ∈ body, r.InRange) →
      ∃ B, Rep (body.foldl serve s) B ∧ (body.foldl serve s).ticks = s.ticks ∧
        overdue s.ticks B ≤ overdue s.ticks A
  | [], _, A, h, _ => ⟨A, h, rfl, le_rfl⟩
  | r :: body, s, A, h, hr => by
    obtain ⟨B, hB, ht, ho⟩ := serve_rep h (hr r mem_cons_self)
    obtain ⟨C, hC, ht', ho'⟩ := serve_all_rep hB (forall_mem_cons.1 hr).2
    rw [ht] at ht' ho'
    exact ⟨C, hC, ht', ho'.trans ho⟩

/-! ## Expiry -/

section

variable (h : Rep s A) (hl : s.wdactivelist = (w, lag) :: rest)
include h hl

/-- The head of the active list is the watchdog that runs next. -/
theorem Rep.head :
    ∃ st B, A = (w, st) :: B ∧ st.due = s.ticks + lag ∧
      deadlines (s.ticks + lag) rest = B.map deadlineOf := by
  have hlist := h.list
  rw [hl, deadlines_cons] at hlist
  cases A with
  | nil => simp at hlist
  | cons a B =>
    obtain ⟨v, st⟩ := a
    simp only [map_cons, List.cons.injEq, deadlineOf, Prod.mk.injEq] at hlist
    obtain ⟨⟨rfl, hdue⟩, hB⟩ := hlist
    exact ⟨st, B, rfl, hdue.symm, hB⟩

/-- One round of the expiry loop runs the watchdog at the head, on its tick. -/
theorem expireHead_rep (hlag : lag ≤ 0) {body : List Request} (hbody : ∀ r ∈ body, r.InRange) :
    ∃ B, Rep (expireHead w lag rest body s) B ∧ (expireHead w lag rest body s).ticks = s.ticks ∧
      overdue s.ticks B < overdue s.ticks A := by
  obtain ⟨st, B, rfl, hdue, hB⟩ := h.head hl
  obtain ⟨⟨hfunc, hparm, hlen⟩, hlow, -⟩ := h.armed (w, st) mem_cons_self
  dsimp only at hlow
  obtain rfl : lag = 0 := by omega
  have hout : disarm w ((w, st) :: B) = B := by
    rw [disarm, filter_cons_of_neg (by simp)]
    refine disarm_of_not_armed fun st' hmem => (nodup_cons.1 h.nodup).1 ?_
    exact mem_map.2 ⟨_, hmem, rfl⟩
  have hinh : inheritLag 0 rest = rest := by
    have hb := hl ▸ h.bounded
    exact inheritLag_zero (by simp) hb.tail
  -- the state when the function is called
  have hrun : Rep (({ s with wdactivelist := inheritLag 0 rest }.setWdog w
      { s.wdog w with active := false }).record
        (.run w s.ticks (s.wdog w).func (s.wdog w).parm)) B := by
    rw [← hout]
    refine h.leave ?_ (fun _ => rfl) ⟨h.runs, st, ?_, ?_, hfunc.symm, hparm.symm, ?_⟩ rfl
    · rw [hinh, hout, ← hB, add_zero]
    · exact (h.mem w st).1 mem_cons_self
    · rw [hdue, add_zero]
    · intro v st' hv hvw
      rcases mem_cons.1 ((h.mem v st').2 hv) with heq | hmem
      · exact absurd (Prod.mk.inj heq).1 hvw
      · exact rel_of_pairwise_cons h.sorted hmem
  obtain ⟨C, hC, ht, ho⟩ := serve_all_rep hrun hbody
  have hcall : (s.wdog w).parm.length ≤ maxWdogparms := by rw [hparm]; exact hlen
  have heq : expireHead w 0 rest body s = body.foldl serve
      (({ s with wdactivelist := inheritLag 0 rest }.setWdog w
        { s.wdog w with active := false }).record
          (.run w s.ticks (s.wdog w).func (s.wdog w).parm)) := by
    simp only [expireHead]
    rw [if_pos hcall]
    rfl
  refine ⟨C, heq ▸ hC, by rw [heq]; exact ht, lt_of_le_of_lt ho ?_⟩
  have hcount : overdue s.ticks ((w, st) :: B) = overdue s.ticks B + 1 :=
    countP_cons_of_pos (by simp [hdue])
  rw [hcount]
  exact Nat.lt_succ_self _

end

end Rep

variable {body : Nat → List Request}

/-- The expiry loop ends because nothing is due any more, not because its rounds are used up. -/
theorem expirationLoop_rep (hbody : ∀ k, ∀ r ∈ body k, r.InRange) :
    ∀ (fuel k : Nat) {s : State} {A : List (WdogId × Started)}, Rep s A →
      overdue s.ticks A ≤ fuel →
      ∃ B, Rep (expirationLoop body fuel k s) B ∧ (expirationLoop body fuel k s).ticks = s.ticks ∧
        overdue s.ticks B = 0
  | 0, _, s, A, h, hf => ⟨A, h, rfl, Nat.le_zero.1 hf⟩
  | fuel + 1, k, s, A, h, hf => by
    unfold expirationLoop
    split
    · next hl =>
        have hA : A = [] := by
          have hk := hl ▸ h.keys
          exact map_eq_nil_iff.1 hk.symm
        exact ⟨A, h, rfl, by rw [hA]; rfl⟩
    · next w lag rest hl =>
        split
        · next hlag =>
            obtain ⟨B, hB, ht, ho⟩ := expireHead_rep h hl hlag (hbody k)
            rw [← ht] at ho hf ⊢
            exact expirationLoop_rep hbody fuel (k + 1) hB (by omega)
        · next hlag =>
            obtain ⟨st, B, rfl, hdue, -⟩ := h.head hl
            refine ⟨_, h, rfl, overdue_eq_zero.2 ?_⟩
            intro a ha
            rcases mem_cons.1 ha with rfl | ha
            · show (s.ticks : Int) < st.due
              omega
            · have hearly := rel_of_pairwise_cons h.sorted ha
              simp only [Earlier] at hearly
              omega

/-! ## Between two ticks -/

/-- Between two ticks the active list represents armed watchdogs that are all due later. -/
def OnTime (s : State) : Prop :=
  ∃ A, Rep s A ∧ ∀ a ∈ A, (s.ticks : Int) < a.2.due

variable {s : State}

theorem serve_onTime (h : OnTime s) (hr : r.InRange) : OnTime (serve s r) := by
  obtain ⟨A, hA, hdue⟩ := h
  obtain ⟨B, hB, ht, ho⟩ := serve_rep hA hr
  rw [overdue_eq_zero.2 hdue, Nat.le_zero, overdue_eq_zero] at ho
  exact ⟨B, hB, by rw [ht]; exact ho⟩

theorem Rep.tick (hA : Rep s A) (hdue : ∀ a ∈ A, (s.ticks : Int) < a.2.due)
    (hl : s.wdactivelist = (w, lag) :: rest) :
    Rep { s with ticks := s.ticks + 1, wdactivelist := (w, i32 (lag - 1)) :: rest } A := by
  have hb := hl ▸ hA.bounded
  obtain ⟨h0, hm⟩ := hb.head
  unfold int32Max at hm
  have hlag : i32 (lag - 1) = lag - 1 := i32_eq_self (by omega) (by omega)
  refine { hA with list := ?_, armed := ?_, past := ?_ }
  · rw [hlag, Nat.cast_succ, deadlines_tick, ← hl, hA.list]
  · intro a ha
    have hlow := hdue a ha
    obtain ⟨hcall, -, hup⟩ := hA.armed a ha
    refine ⟨hcall, ?_, ?_⟩
    · show ((s.ticks + 1 : Nat) : Int) ≤ a.2.due
      omega
    · show a.2.due ≤ ((s.ticks + 1 : Nat) : Int) + int32Max
      omega
  · exact fun e he => Nat.le_succ_of_le (hA.past e he)

theorem wdTimer_onTime (h : OnTime s) (hbody : ∀ k, ∀ r ∈ body k, r.InRange) :
    OnTime (wdTimer body s) := by
  obtain ⟨A, hA, hdue⟩ := h
  have hpast : ∀ e ∈ s.history, e.tick ≤ s.ticks + 1 := fun e he => Nat.le_succ_of_le (hA.past e he)
  simp only [wdTimer]
  split
  · next hl =>
      have hk := hl ▸ hA.keys
      obtain rfl : A = [] := map_eq_nil_iff.1 hk.symm
      exact ⟨[], { hA with list := by simp [hl], armed := by simp, past := hpast }, by simp⟩
  · next w lag rest hl =>
      have hfuel : overdue (s.ticks + 1) A ≤ ((w, i32 (lag - 1)) :: rest).length := by
        have hlen := congrArg length hA.keys
        rw [hl, length_map, length_map] at hlen
        exact countP_le_length.trans hlen.ge
      obtain ⟨B, hB, ht, ho⟩ := expirationLoop_rep hbody _ 0 (hA.tick hdue hl) hfuel
      refine ⟨B, hB, ?_⟩
      have ho := overdue_eq_zero.1 ho
      unfold wdExpiration
      rw [ht]
      exact ho

/-! ## Runs -/

/-- What can happen: any caller makes a request, or the timer interrupt ticks and the functions it
runs make requests of their own. -/
inductive Step : State → State → Prop
  | request {s : State} (r : Request) : r.InRange → Step s (serve s r)
  | tick {s : State} (body : Nat → List Request) :
      (∀ k, ∀ r ∈ body k, r.InRange) → Step s (wdTimer body s)

/-- No watchdog is active and nothing has happened. -/
def Init (s : State) : Prop :=
  s.wdactivelist = [] ∧ (∀ w, (s.wdog w).active = false) ∧ s.history = []

theorem init_onTime (h : Init s) : OnTime s := by
  obtain ⟨hl, hactive, hh⟩ := h
  refine ⟨[], ⟨?_, nodup_nil, ?_, List.Pairwise.nil, ?_, ?_, ?_, ?_⟩, ?_⟩
  · simp [hl]
  · simp [hh, pendingStart]
  · simp [hactive]
  all_goals simp [hh, RunsOnTime]

theorem reach_onTime (h : Reach Init Step s) : OnTime s := by
  refine Reach.invariant (P := OnTime) (fun _ => init_onTime) ?_ h
  intro s t hs hst
  cases hst with
  | request r hr => exact serve_onTime hs hr
  | tick body hbody => exact wdTimer_onTime hs hbody

/-- The event runs the function of `w`. -/
def Event.runs (w : WdogId) : Event → Bool
  | .run v _ _ _ => decide (v = w)
  | _ => false

/-- The event cancels or restarts `w`. -/
def Event.rearms (w : WdogId) : Event → Bool
  | .start v _ _ _ _ => decide (v = w)
  | .cancel v _ => decide (v = w)
  | .run _ _ _ _ => false

variable {earlier : List Event} {p : List Nat}

/-- After a start that is not taken back, the watchdog is pending until it runs, and it runs once,
on the tick it asked for and with its arguments. -/
theorem runs_after_start {d : Int} :
    ∀ later : List Event,
    RunsOnTime (later ++ .start w n d f p :: earlier) →
    (∀ e ∈ later, e.rearms w = false) →
    (later.filter (Event.runs w) = [] ∧
      pendingStart (later ++ .start w n d f p :: earlier) w = some ⟨earlier.length, n, d, f, p⟩) ∨
    (∃ m : Nat, (m : Int) = n + d + 1 ∧ later.filter (Event.runs w) = [.run w m f p] ∧
      pendingStart (later ++ .start w n d f p :: earlier) w = none)
  | [], _, _ => Or.inl ⟨rfl, by simp [pendingStart]⟩
  | e :: later, hruns, hno => by
    have hno' : ∀ x ∈ later, x.rearms w = false := fun x hx => hno x (mem_cons_of_mem _ hx)
    have he := hno e mem_cons_self
    cases e with
    | start v m d' f' p' =>
      have hv : v ≠ w := of_decide_eq_false he
      simpa [pendingStart_start, Event.runs, hv] using runs_after_start later hruns hno'
    | cancel v m =>
      have hv : v ≠ w := of_decide_eq_false he
      simpa [pendingStart_cancel, Event.runs, hv] using runs_after_start later hruns hno'
    | run v m g q =>
      rw [cons_append] at hruns
      obtain ⟨hruns, st, hst, hdue, hf, hp, -⟩ := hruns
      have ih := runs_after_start later hruns hno'
      by_cases hv : v = w
      · subst hv
        rcases ih with ⟨hnone, hpend⟩ | ⟨m', -, -, hpend⟩
        · right
          obtain rfl := Option.some.inj (hpend.symm.trans hst)
          refine ⟨m, hdue.symm, ?_, ?_⟩
          · simp [Event.runs, hnone, ← hf, ← hp]
          · simp [pendingStart_run]
        · rw [hpend] at hst
          cases hst
      · simpa [pendingStart_run, Event.runs, hv] using ih

theorem pendingStart_append : ∀ {later earlier : List Event} {w : WdogId} {st : Started},
    pendingStart (later ++ earlier) w = some st →
      pendingStart earlier w = some st ∨ earlier.length ≤ st.index
  | [], _, _, _, h => Or.inl h
  | .start v n d f p :: later, earlier, w, st, h => by
    rw [cons_append, pendingStart_start] at h
    split at h
    · obtain rfl := Option.some.inj h
      right
      simp
    · exact pendingStart_append h
  | .cancel v n :: later, earlier, w, st, h => by
    rw [cons_append, pendingStart_cancel] at h
    split at h
    · cases h
    · exact pendingStart_append h
  | .run v n f p :: later, earlier, w, st, h => by
    rw [cons_append, pendingStart_run] at h
    split at h
    · cases h
    · exact pendingStart_append h

theorem RunsOnTime.of_append :
    ∀ later : List Event, RunsOnTime (later ++ earlier) → RunsOnTime earlier
  | [], h => h
  | .start .. :: later, h => RunsOnTime.of_append later h
  | .cancel .. :: later, h => RunsOnTime.of_append later h
  | .run .. :: later, h => RunsOnTime.of_append later h.1

/-- Of two functions that ran on the same tick, the one that was started first ran first. -/
theorem runs_in_start_order {later mid : List Event} {v w : WdogId} {g : Nat} {q : List Nat}
    (h : RunsOnTime (later ++ .run v n g q :: (mid ++ .run w n f p :: earlier))) :
    ∃ a b, pendingStart earlier w = some a ∧
      pendingStart (mid ++ .run w n f p :: earlier) v = some b ∧ a.index < b.index := by
  obtain ⟨hmid, b, hb, hbdue, -⟩ := h.of_append later
  obtain ⟨-, a, ha, hadue, -, -, hfirst⟩ := hmid.of_append mid
  refine ⟨a, b, ha, hb, ?_⟩
  have ha' := pendingStart_index_lt ha
  rcases pendingStart_append hb with hold | hnew
  · rw [pendingStart_run] at hold
    split at hold
    · cases hold
    · next hne =>
        have hearly := hfirst v b hold (Ne.symm hne)
        simp only [Earlier] at hearly
        omega
  · rw [length_cons] at hnew
    omega

theorem wdGettime_eq (h : OnTime s) (w : WdogId) :
    wdGettime (some w) s =
      match pendingStart s.history w with
      | some st => st.due - s.ticks
      | none => 0 := by
  obtain ⟨A, hA, -⟩ := h
  unfold wdGettime
  cases hp : pendingStart s.history w with
  | none =>
    have hact : ¬ (s.wdog w).active = true := by
      rintro hact
      obtain ⟨st, hst⟩ := (hA.flag w).1 hact
      rw [hA.mem, hp] at hst
      cases hst
    exact if_neg hact
  | some st =>
    have hst := (hA.mem w st).2 hp
    simp only
    rw [if_pos ((hA.flag w).2 ⟨st, hst⟩)]
    refine accumulateLag_eq w 0 _ _ le_rfl hA.bounded (hA.keys ▸ hA.nodup) ?_
    rw [deadlines_shift 0 s.ticks, hA.list, map_map]
    refine mem_map.2 ⟨(w, st), hst, ?_⟩
    simp [deadlineOf, sub_eq_add_neg]

/-- Between two ticks of any run: a watchdog started at tick `n` with delay `d`, and since then
neither cancelled nor restarted, has run exactly once if tick `n + d + 1` has come, during that tick
and with its own function and parameters, and has not run before; functions that ran on the same
tick ran in the order of their starts; and `wd_gettime` is the number of ticks left. -/
theorem watchdog_keeps_every_deadline (hs : Reach Init Step s) :
    (∀ (later earlier : List Event) (w : WdogId) (n : Nat) (d : Int) (f : Nat) (p : List Nat),
      s.history = later ++ .start w n d f p :: earlier → (∀ e ∈ later, e.rearms w = false) →
        later.filter (Event.runs w) =
          if (n : Int) + d + 1 ≤ s.ticks then [.run w (n + d + 1).toNat f p] else []) ∧
    (∀ (later mid earlier : List Event) (v w : WdogId) (n f g : Nat) (p q : List Nat),
      s.history = later ++ .run v n g q :: (mid ++ .run w n f p :: earlier) →
        ∃ a b, pendingStart earlier w = some a ∧
          pendingStart (mid ++ .run w n f p :: earlier) v = some b ∧ a.index < b.index) ∧
    ∀ w, wdGettime (some w) s =
      match pendingStart s.history w with
      | some st => st.tick + st.delay + 1 - s.ticks
      | none => 0 := by
  have hon := reach_onTime hs
  obtain ⟨A, hA, hdue⟩ := reach_onTime hs
  refine ⟨?_, ?_, wdGettime_eq hon⟩
  · intro later earlier w n d f p hh hno
    have hruns := hh ▸ hA.runs
    rcases runs_after_start later hruns hno with ⟨hnone, hpend⟩ | ⟨m, hm, hone, -⟩
    · rw [← hh, ← hA.mem] at hpend
      have := hdue _ hpend
      simp only [Started.due] at this
      rw [hnone, if_neg (by omega)]
    · have hmem : Event.run w m f p ∈ s.history := by
        rw [hh]
        refine mem_append_left _ (mem_of_mem_filter (p := Event.runs w) ?_)
        rw [hone]
        exact mem_singleton_self _
      have hpast : m ≤ s.ticks := hA.past _ hmem
      rw [hone, if_pos (by omega), ← hm, Int.toNat_natCast]
  · intro later mid earlier v w n f g p q hh
    have hruns := hh ▸ hA.runs
    exact runs_in_start_order hruns

/-- No watchdog is active at boot. -/
def boot : State := ⟨fun _ => ⟨0, [], false⟩, [], 0, []⟩

/-- Watchdogs 1 and 2 are started with delays 1 and 0 and the first function restarts watchdog 2. -/
def sampleRun : State :=
  wdTimer (fun _ => []) (wdTimer (fun _ => [.start (some 2) 3 9 []])
    (serve (serve boot (.start (some 1) 1 7 [])) (.start (some 2) 0 8 [])))

theorem sampleRun_reach : Reach Init Step sampleRun := by
  refine .next (.next (.next (.next (.start (s := boot) ⟨rfl, fun _ => rfl, rfl⟩)
    (.request _ ?_)) (.request _ ?_)) (.tick _ ?_)) (.tick _ ?_)
  · show (1 : Int) < int32Max
    decide
  · show (0 : Int) < int32Max
    decide
  · intro k r hr
    obtain rfl := mem_singleton.1 hr
    show (3 : Int) < int32Max
    decide
  · intro k r hr
    exact absurd hr not_mem_nil

/-- In that run watchdog 1 has run once, on tick 2, and watchdog 2 has three ticks left. -/
theorem watchdog_keeps_every_deadline_sample :
    (Reach Init Step sampleRun) ∧
      [Event.run 1 2 7 []] = [Event.run 1 2 7 [], .start 2 1 3 9 [], .run 2 1 8 [],
        .start 2 0 0 8 []].filter (Event.runs 1) ∧
      wdGettime (some 2) sampleRun = 3 :=
  ⟨sampleRun_reach,
    ((watchdog_keeps_every_deadline sampleRun_reach).1 _ [] 1 0 1 7 [] rfl (by decide)).symm,
    (watchdog_keeps_every_deadline sampleRun_reach).2.2 2⟩

end BaseNx.Wdog
