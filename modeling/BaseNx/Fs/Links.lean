import BaseNx.Fs.Inode
import Mathlib.Data.Char
import Mathlib.Data.List.TakeWhile
import Mathlib.Logic.Relation

/-!
# Soft links and the depth of a search

`resolveAt` is what `_inode_search` computes when only the node that it finds is of interest; the
way there depends on the components of the path alone (`inodeSearchAt_outcome`).

`_inode_linktarget` counts the links of one chain, not the searches below it, so a search has a
depth, and one that ends gives the same result at every greater depth (`resolveAt_mono`).
-/

namespace BaseNx.Fs

open List

/-! ## Components -/

def comps (path : Path) : List Path := (names path).map component

theorem comps_eq_nil {path : Path} : comps path = [] ↔ names path = [] := by
  simp [comps]

theorem inodeCompare_component (name n : Path) :
    inodeCompare name n = inodeCompare (component name) n := by
  induction name generalizing n with
  | nil => rfl
  | cons f fs ih =>
    by_cases hf : f = '/'
    · subst hf
      cases n <;> simp [component, inodeCompare]
    · have hc : component (f :: fs) = f :: component fs := by
        simp [component, hf]
      cases n with
      | nil => simp [hc, inodeCompare]
      | cons n ns => simp only [hc, inodeCompare, ih ns]

variable {name : Path}

theorem scan_component (name : Path) (left : Option InodeId) (f : Forest) :
    scan name left f = scan (component name) left f := by
  induction f generalizing left with
  | nil => rfl
  | node i c p _ ihp => simp only [scan, ← inodeCompare_component, ihp]

theorem component_component (name : Path) : component (component name) = component name := by
  rw [component, component, takeWhile_idem]

variable {i : Inode} {root : Forest} {c p : Forest}

variable {f : Forest}

/-! ## The search without its descriptor -/

/-- The node that a search finds, or its error. -/
def outcome (r : Int × Desc) : Except Int Forest :=
  if r.1 < 0 then .error r.1 else .ok r.2.node

variable {ret : Int}

theorem outcome_of_nonneg (h : 0 ≤ ret) (desc : Desc) : outcome (ret, desc) = .ok desc.node :=
  if_neg (Int.not_lt.mpr h)

variable {desc : Desc}

theorem outcome_eq_ok : outcome (ret, desc) = .ok f ↔ 0 ≤ ret ∧ desc.node = f := by
  by_cases h : ret < 0
  · simp [outcome, h, Int.not_le.mpr h]
  · simp [outcome, h, Int.not_lt.mp h]

def Forest.link? (f : Forest) : Option Path := f.inode?.bind Inode.link?

/-- `_inode_linktarget` of a soft link, over the searches for targets. -/
def chase (search : Path → Option (Except Int Forest)) :
    Nat → Path → Option (Except Int Forest)
  | left, link =>
    match search link with
    | none => none
    | some (.error e) => some (.error e)
    | some (.ok node) =>
      match left with
      | 0 => some (.error (-ELOOP))
      | left + 1 =>
        match node.link? with
        | none => some (.ok node)
        | some link => chase search left link

/-- The loop of `_inode_search`, over the components of the path. -/
def resolve (search : Path → Option (Except Int Forest)) :
    List Path → Forest → Option (Except Int Forest)
  | [], _ => some (.error (-ENOENT))
  | name :: more, siblings =>
    match (scan name none siblings).2 with
    | .nil => some (.error (-ENOENT))
    | .node i child peer =>
      if more = [] ∨ i.isMountpt then some (.ok (.node i child peer))
      else
        match i.link? with
        | none => resolve search more child
        | some link =>
          match chase search symloopMax link with
          | none => none
          | some (.error e) => some (.error e)
          | some (.ok .nil) => none
          | some (.ok (.node j jchild jpeer)) =>
            if j.ino ≠ i.ino ∧ j.isMountpt then some (.ok (.node j jchild jpeer))
            else resolve search more jchild

/-- `_inode_search` for the node it finds -/
def resolveAt (root : Forest) : Nat → Path → Option (Except Int Forest)
  | 0, _ => none
  | depth + 1, path =>
    if path.head? ≠ some '/' then some (.error (-EINVAL))
    else if comps path = [] then some (.error (-ENOSYS))
    else resolve (resolveAt root depth) (comps path) root

section Outcome

variable {search : Desc → Option (Int × Desc)} {find : Path → Option (Except Int Forest)}

section

variable (hs : ∀ p, (search (.setup p true)).map outcome = find p)
include hs

theorem linkLoop_outcome (left : Nat) (ret : Int) (node : Forest) (desc : Desc) (link : Path)
    (hl : node.link? = some link) :
    (linkLoop search left ret node desc).map outcome = chase find left link := by
  fun_induction linkLoop search left ret node desc generalizing link with
  | case1 left ret node desc hnone => exact nomatch hnone.symm.trans hl
  | case2 left ret node desc link' hl' hr =>
    obtain rfl : link' = link := Option.some.inj (hl'.symm.trans hl)
    simp [chase, ← hs, hr]
  | case3 left ret node desc link' hl' ret' desc' hr hneg =>
    obtain rfl : link' = link := Option.some.inj (hl'.symm.trans hl)
    simp [chase, ← hs, hr, outcome, hneg]
  | case4 ret node desc link' hl' ret' desc' hr hneg =>
    obtain rfl : link' = link := Option.some.inj (hl'.symm.trans hl)
    simp [chase, ← hs, hr, outcome, hneg, ELOOP]
  | case5 ret node desc link' hl' ret' desc' hr hneg left ih =>
    obtain rfl : link' = link := Option.some.inj (hl'.symm.trans hl)
    rw [chase, ← hs, hr]
    cases hn : desc'.node.link? with
    | none =>
      have hn' : desc'.node.inode?.bind Inode.link? = none := hn
      unfold linkLoop
      simp [outcome, hneg, hn, hn']
    | some link => simpa [outcome, hneg, hn] using ih link hn

theorem inodeLinktarget_outcome
    (node : Forest) (desc : Desc) (link : Path) (hl : node.link? = some link) :
    (inodeLinktarget search node desc).map outcome = chase find symloopMax link := by
  rw [← linkLoop_outcome hs symloopMax (-ENOENT) node desc link hl, inodeLinktarget,
    Option.map_map]
  rfl

/-- The node that the walk finds does not depend on the descriptor. -/
theorem walk_outcome (ns : List Path) (siblings : Forest) (above : Option InodeId) (desc : Desc) :
    (walk search ns siblings above desc).map outcome
      = resolve find (ns.map component) siblings := by
  induction ns generalizing siblings above desc with
  | nil => rfl
  | cons name more ih =>
    rw [map_cons, walk, resolve, ← scan_component]
    obtain ⟨left, node⟩ := scan name none siblings
    cases node with
    | nil => rfl
    | node i child peer =>
      simp only [map_eq_nil_iff]
      by_cases hend : more = [] ∨ i.isMountpt
      · rw [if_pos hend, if_pos hend]
        rfl
      rw [if_neg hend, if_neg hend]
      cases hl : i.link? with
      | none => exact ih child (some i.ino) desc
      | some link =>
        have htarget := inodeLinktarget_outcome hs (.node i child peer) desc link hl
        dsimp only
        rw [← htarget]
        cases hr : inodeLinktarget search (.node i child peer) desc with
        | none => rfl
        | some r =>
          obtain ⟨status, desc'⟩ := r
          by_cases hneg : status < 0
          · simp [hneg, outcome]
          · simp only [hneg, outcome, Option.map_some, if_false]
            cases hn : desc'.node with
            | nil => rfl
            | node j jchild jpeer =>
              dsimp only
              by_cases hm : j.ino ≠ i.ino ∧ j.isMountpt
              · rw [if_pos hm, if_pos hm]
                rfl
              · rw [if_neg hm, if_neg hm]
                exact ih jchild (some j.ino) desc'

end

end Outcome

theorem inodeSearchAt_outcome (root : Forest) (depth : Nat) (desc : Desc) (hn : desc.node = .nil) :
    (inodeSearchAt root depth desc).map outcome = resolveAt root depth desc.path := by
  induction depth generalizing desc with
  | zero => rfl
  | succ depth ih =>
    rw [inodeSearchAt, resolveAt]
    by_cases hroot : desc.path.head? ≠ some '/'
    · rw [if_pos hroot, if_pos hroot]
      rfl
    rw [if_neg hroot, if_neg hroot]
    by_cases hnames : names desc.path = []
    · rw [if_pos hnames, if_pos (comps_eq_nil.mpr hnames)]
      rfl
    rw [if_neg hnames, if_neg (mt comps_eq_nil.mp hnames)]
    exact walk_outcome (fun p => ih (.setup p true) rfl) (names desc.path) root none desc

/-! ## More depth does not change a result -/

/-- `find'` answers whatever `find` answers. -/
def Extends (find find' : Path → Option (Except Int Forest)) : Prop :=
  ∀ p o, find p = some o → find' p = some o

section Extends

variable {find find' : Path → Option (Except Int Forest)}

theorem chase_extends (h : Extends find find') (left : Nat) (link : Path)
    (o : Except Int Forest) (ho : chase find left link = some o) :
    chase find' left link = some o := by
  fun_induction chase find left link with
  | case1 => cases ho
  | case2 _ _ _ hf => rwa [chase, h _ _ hf]
  | case3 _ _ hf => rwa [chase, h _ _ hf]
  | case4 _ _ hf _ hn => simpa [chase, h _ _ hf, hn] using ho
  | case5 _ _ hf _ _ hn ih =>
    rw [chase, h _ _ hf]
    simpa only [hn] using ih ho

theorem resolve_extends (h : Extends find find') (cs : List Path) (siblings : Forest)
    (o : Except Int Forest) (ho : resolve find cs siblings = some o) :
    resolve find' cs siblings = some o := by
  have hchase := chase_extends h symloopMax
  fun_induction resolve find cs siblings with
  | case1 => exact ho
  | case2 _ _ _ hscan => simpa [resolve, hscan] using ho
  | case3 _ _ _ _ _ _ hscan hend => simpa [resolve, hscan, hend] using ho
  | case4 _ _ _ _ _ _ hscan hend hl ih => simpa [resolve, hscan, hend, hl] using ih ho
  | case5 => cases ho
  | case6 _ _ _ _ _ _ hscan hend _ hl _ hc =>
    simpa [resolve, hscan, hend, hl, hchase _ _ hc] using ho
  | case7 => cases ho
  | case8 _ _ _ _ _ _ hscan hend _ hl _ _ _ hc hm =>
    simpa [resolve, hscan, hend, hl, hchase _ _ hc, hm] using ho
  | case9 _ _ _ _ _ _ hscan hend _ hl _ _ _ hc hm ih =>
    simpa [resolve, hscan, hend, hl, hchase _ _ hc, hm] using ih ho

end Extends

theorem resolveAt_extends (root : Forest) (depth : Nat) :
    Extends (resolveAt root depth) (resolveAt root (depth + 1)) := by
  induction depth with
  | zero => exact fun p o ho => nomatch ho
  | succ depth ih =>
    intro p o ho
    rw [resolveAt] at ho ⊢
    split_ifs at ho ⊢ with h1 h2
    · exact ho
    · exact ho
    · exact resolve_extends ih _ _ _ ho

theorem resolveAt_mono {depth depth' : Nat} (h : depth ≤ depth') :
    Extends (resolveAt root depth) (resolveAt root depth') := by
  induction h with
  | refl => exact fun _ _ ho => ho
  | step _ ih => exact fun p o ho => resolveAt_extends root _ p o (ih p o ho)

/-! ## The whole search -/

variable {depth : Nat} {desc' : Desc}

theorem walk_nofollow {search : Desc → Option (Int × Desc)} (ns : List Path) (siblings : Forest)
    (above : Option InodeId) (desc : Desc)
    (h : walk search ns siblings above desc = some (ret, desc')) :
    desc'.nofollow = desc.nofollow := by
  -- `_inode_linktarget` puts the saved flag back
  have hsaved : ∀ {node desc r}, inodeLinktarget search node desc = some r →
      r.2.nofollow = desc.nofollow := by
    intro node desc r hr
    rw [inodeLinktarget, Option.map_eq_some_iff] at hr
    obtain ⟨r', -, rfl⟩ := hr
    rfl
  fun_induction walk search ns siblings above desc with
  | case1 | case2 | case3 =>
    cases h
    rfl
  | case4 =>
    rename_i ih
    exact ih h
  | case5 | case7 => cases h
  | case6 | case8 =>
    cases h
    exact hsaved ‹inodeLinktarget _ _ _ = some _›
  | case9 =>
    rename_i ih
    exact (ih h).trans (hsaved ‹inodeLinktarget _ _ _ = some _›)

theorem inodeSearchAt_nofollow (h : inodeSearchAt root depth desc = some (ret, desc')) :
    desc'.nofollow = desc.nofollow := by
  cases depth with
  | zero => nomatch h
  | succ depth =>
    rw [inodeSearchAt] at h
    split_ifs at h with h1 h2
    · cases h
      rfl
    · cases h
      rfl
    · exact walk_nofollow _ _ _ _ h

end BaseNx.Fs
