import BaseNx.Fs.PathMap

/-!
# Searching a path is resolving it in the map

What a path names is said over the map from locations to inodes alone: a trail goes down through
nodes that are neither links nor mountpoints and jumps to the targets of links (`Trail`), and a path
names the node at the end of its trail, or a mountpoint on the way (`Route`). `_inode_search` finds
exactly what its path names (`resolveAt_ok_iff`); how it ends, with the place that it leaves in the
descriptor, is `WalkEnd`, and how `inode_search` ends is `SearchEnd`.
-/

namespace BaseNx.Fs

open Forest

/-! ## What a path names -/

section Spec

variable (m : Loc → Option Inode) (find : Path → Loc → Prop)

/-- A chain of at most so many links leads from a target to a node that is no link. -/
inductive Hops : Nat → Path → Loc → Prop
  | arrive {n : Nat} {link : Path} {loc : Loc} {j : Inode} (found : find link loc)
      (node : m loc = some j) (noLink : j.link? = none) : Hops (n + 1) link loc
  | hop {n : Nat} {link link' : Path} {loc loc' : Loc} {j : Inode} (found : find link loc)
      (node : m loc = some j) (isLink : j.link? = some link') (rest : Hops n link' loc') :
      Hops (n + 1) link loc'

/-- From one directory to another along components; the flag tells whether over a link. -/
inductive Trail : Loc → List Path → Bool → Loc → Prop
  | stay {base : Loc} : Trail base [] false base
  | down {base dir : Loc} {c : Path} {cs : List Path} {linked : Bool} {i : Inode}
      (node : m (base ++ [c]) = some i) (plain : i.isMountpt = false) (noLink : i.link? = none)
      (rest : Trail (base ++ [c]) cs linked dir) : Trail base (c :: cs) linked dir
  | jump {base dir target : Loc} {c link : Path} {cs : List Path} {linked : Bool} {i j : Inode}
      (node : m (base ++ [c]) = some i) (isLink : i.link? = some link)
      (hops : Hops m find symloopMax link target) (goal : m target = some j)
      (plain : j.isMountpt = false) (rest : Trail target cs linked dir) :
      Trail base (c :: cs) true dir

/-- The location that components name, from a directory: the end of the trail, or a mountpoint that
takes the rest of the path. -/
inductive Route : Loc → List Path → Loc → Prop
  | here {base dir : Loc} {pre more : List Path} {c : Path} {linked : Bool} {i : Inode}
      (trail : Trail m find base pre linked dir) (node : m (dir ++ [c]) = some i)
      (last : more = [] ∨ i.isMountpt) : Route base (pre ++ c :: more) (dir ++ [c])
  | mount {base dir loc : Loc} {pre more : List Path} {c link : Path} {linked : Bool} {i j : Inode}
      (trail : Trail m find base pre linked dir) (node : m (dir ++ [c]) = some i)
      (isLink : i.link? = some link) (middle : more ≠ [])
      (hops : Hops m find symloopMax link loc) (goal : m loc = some j)
      (isMount : j.isMountpt) : Route base (pre ++ c :: more) loc

end Spec

/-- The location that an absolute path names, where links are nested less than `depth` deep. -/
def Reaches (m : Loc → Option Inode) : Nat → Path → Loc → Prop
  | 0, _, _ => False
  | depth + 1, path, loc => path.head? = some '/' ∧ Route m (Reaches m depth) [] (comps path) loc

/-- No chain of links leads from a target to a node. -/
def Lost (m : Loc → Option Inode) (link : Path) : Prop :=
  ∀ depth loc, ¬ Hops m (Reaches m depth) symloopMax link loc

variable {loc : Loc} {cs : List Path} {depth : Nat} {base dir : Loc} {link path : Path}
  {dir base : Loc} {n : Nat} {loc : Loc}

section Spec

variable {m m' : Loc → Option Inode} {find find' : Path → Loc → Prop}

theorem Hops.exists_node (h : Hops m find n link loc) : ∃ j, m loc = some j ∧ j.link? = none := by
  induction h with
  | arrive _ node noLink => exact ⟨_, node, noLink⟩
  | hop _ _ _ _ ih => exact ih

section

variable (hm : ∀ loc i, m loc = some i → m' loc = some i) (hf : ∀ p loc, find p loc → find' p loc)
include hm hf

theorem Hops.mono (h : Hops m find n link loc) : Hops m' find' n link loc := by
  induction h with
  | arrive found node noLink => exact .arrive (hf _ _ found) (hm _ _ node) noLink
  | hop found node isLink _ ih => exact .hop (hf _ _ found) (hm _ _ node) isLink ih

theorem Trail.mono {linked : Bool} (h : Trail m find base cs linked dir) :
    Trail m' find' base cs linked dir := by
  induction h with
  | stay => exact .stay
  | down node plain noLink _ ih => exact .down (hm _ _ node) plain noLink ih
  | jump node isLink hops goal plain _ ih =>
    exact .jump (hm _ _ node) isLink (hops.mono hm hf) (hm _ _ goal) plain ih

end

theorem Trail.append {mid : Loc} {cs cs' : List Path} {linked linked' : Bool}
    (h : Trail m find base cs linked mid) (h' : Trail m find mid cs' linked' dir) :
    Trail m find base (cs ++ cs') (linked || linked') dir := by
  induction h with
  | stay => exact h'
  | down node plain noLink _ ih => exact .down node plain noLink (ih h')
  | jump node isLink hops goal plain _ ih => exact .jump node isLink hops goal plain (ih h')

theorem Route.mono (hm : ∀ loc i, m loc = some i → m' loc = some i)
    (hf : ∀ p loc, find p loc → find' p loc) (h : Route m find base cs loc) :
    Route m' find' base cs loc := by
  cases h with
  | here trail node last => exact .here (trail.mono hm hf) (hm _ _ node) last
  | mount trail node isLink middle hops goal isMount =>
    exact .mount (trail.mono hm hf) (hm _ _ node) isLink middle (hops.mono hm hf) (hm _ _ goal)
      isMount

/-- What a path names stays when the map grows. -/
theorem Reaches.mono (hm : ∀ loc i, m loc = some i → m' loc = some i)
    (h : Reaches m depth path loc) : Reaches m' depth path loc := by
  induction depth generalizing path loc with
  | zero => exact h
  | succ depth ih => exact ⟨h.1, h.2.mono hm fun p loc => ih⟩

theorem Reaches.succ (h : Reaches m depth path loc) : Reaches m (depth + 1) path loc := by
  induction depth generalizing path loc with
  | zero => exact h.elim
  | succ depth ih => exact ⟨h.1, h.2.mono (fun _ _ hi => hi) fun p loc => ih⟩

theorem Reaches.depth_mono {depth depth' : Nat} (hle : depth ≤ depth')
    (h : Reaches m depth path loc) : Reaches m depth' path loc := by
  induction hle with
  | refl => exact h
  | step _ ih => exact ih.succ

theorem Route.exists_node (h : Route m find base cs loc) : ∃ i, m loc = some i := by
  cases h with
  | here _ node _ => exact ⟨_, node⟩
  | mount _ _ _ _ _ goal _ => exact ⟨_, goal⟩

theorem Reaches.exists_node (h : Reaches m depth path loc) : ∃ i, m loc = some i := by
  cases depth with
  | zero => exact h.elim
  | succ depth => exact h.2.exists_node

end Spec

/-! ## Well-formed trees -/

/-- Siblings are sorted, names are components, and no inode occurs twice. -/
structure WellFormed (root : Forest) : Prop where
  sorted : root.Sorted
  named : ∀ i ∈ root.inodes, i.name ≠ [] ∧ '/' ∉ i.name
  nodup : root.inos.Nodup

theorem Inode.not_isMountpt_of_link (i : Inode) (h : i.link? = some link) :
    i.isMountpt = false := by
  cases hk : i.kind <;> simp [Inode.link?, Inode.isMountpt, hk] at h ⊢

theorem slash_notMem_component (n : Path) : '/' ∉ component n := by
  intro h
  simpa using List.mem_takeWhile_imp h

variable {i : Inode} {c : Path} {j : Inode} {i : Inode}

section Tree

variable {root : Forest}

theorem Forest.atLoc_concat (root : Forest) (dir : Loc) (c : Path) :
    root.atLoc (dir ++ [c]) = ((root.dirAt dir).sibling c).inode? := by
  rw [atLoc, nodeAt_concat]

theorem Forest.sibling_of_atLoc (h : root.atLoc (dir ++ [c]) = some i) :
    ∃ child peer, (root.dirAt dir).sibling c = .node i child peer := by
  rw [atLoc_concat] at h
  cases hn : (root.dirAt dir).sibling c with
  | nil => simp [hn, inode?] at h
  | node j child peer =>
    obtain rfl : j = i := by simpa [hn, inode?] using h
    exact ⟨child, peer, rfl⟩

theorem Forest.dirAt_concat {child peer : Forest}
    (h : (root.dirAt dir).sibling c = .node i child peer) : root.dirAt (dir ++ [c]) = child := by
  rw [dirAt_append, dirAt, h]
  rfl

theorem Forest.ne_nil_of_atLoc (h : root.atLoc loc = some i) : loc ≠ [] := by
  rintro rfl
  nomatch h

theorem WellFormed.inode_eq (hw : WellFormed root) (hi : i ∈ root.inodes) (hj : j ∈ root.inodes)
    (h : i.ino = j.ino) : i = j :=
  List.inj_on_of_nodup_map hw.nodup hi hj h

theorem WellFormed.scan (hw : WellFormed root) (dir : Loc) (hc : '/' ∉ c) :
    scan c none (root.dirAt dir) = ((root.dirAt dir).leftOf c none, (root.dirAt dir).sibling c) :=
  scan_eq (hw.sorted.dirAt dir) hc none

theorem WellFormed.slash_notMem (hw : WellFormed root) (h : root.atLoc (dir ++ [c]) = some i) :
    '/' ∉ c := by
  obtain ⟨child, peer, hs⟩ := sibling_of_atLoc h
  rw [← sibling_name hs]
  exact (hw.named i (mem_of_atLoc h)).2

theorem Trail.isDir {find : Path → Loc → Prop} {linked : Bool}
    (h : Trail root.atLoc find base cs linked dir) (hb : root.IsDir base) : root.IsDir dir := by
  induction h with
  | stay => exact hb
  | down node _ _ _ ih => exact ih (Or.inr ⟨_, node⟩)
  | jump _ _ _ goal _ _ ih => exact ih (Or.inr ⟨_, goal⟩)

end Tree

/-! ## The search finds what the path names -/

variable {rest pre : List Path} {left : Nat}

section Resolve

variable {root : Forest} {find : Path → Option (Except Int Forest)} {named : Path → Loc → Prop}

theorem Forest.link?_nodeAt (h : root.atLoc loc = some j) : (root.nodeAt loc).link? = j.link? := by
  rw [Forest.link?, show (root.nodeAt loc).inode? = some j from h]
  rfl

/-- Links are followed to where their chains lead. -/
theorem chase_of_hops (hfind : ∀ p loc, named p loc → find p = some (.ok (root.nodeAt loc)))
    (h : Hops root.atLoc named left link loc) :
    chase find left link = some (.ok (root.nodeAt loc)) := by
  induction h with
  | arrive found node noLink =>
    unfold chase
    rw [hfind _ _ found]
    simp [link?_nodeAt node, noLink]
  | hop found node isLink _ ih =>
    unfold chase
    rw [hfind _ _ found]
    simpa [link?_nodeAt node, isLink] using ih

theorem hops_of_chase (hn : ∀ p loc, named p loc → ∃ i, root.atLoc loc = some i)
    (hfind : ∀ p f, find p = some (.ok f) → ∃ loc, named p loc ∧ root.nodeAt loc = f) {f : Forest}
    (h : chase find left link = some (.ok f)) :
    ∃ loc, Hops root.atLoc named left link loc ∧ root.nodeAt loc = f := by
  fun_induction chase find left link with
  | case1 | case2 | case3 => cases h
  | case4 link g hf left hnone =>
    obtain ⟨loc, hloc, rfl⟩ := hfind link g hf
    obtain ⟨j, hj⟩ := hn link loc hloc
    cases h
    exact ⟨loc, .arrive hloc hj (link?_nodeAt hj ▸ hnone), rfl⟩
  | case5 link g hf left link' hsome ih =>
    obtain ⟨loc, hloc, rfl⟩ := hfind link g hf
    obtain ⟨j, hj⟩ := hn link loc hloc
    obtain ⟨loc', hops, hf'⟩ := ih h
    exact ⟨loc', .hop hloc hj (link?_nodeAt hj ▸ hsome) hops, hf'⟩

theorem Forest.nodeAt_of_atLoc (h : root.atLoc loc = some i) :
    ∃ c p, root.nodeAt loc = .node i c p := by
  cases hn : root.nodeAt loc with
  | nil => simp [Forest.atLoc, hn, Forest.inode?] at h
  | node k c p =>
    obtain rfl : k = i := by simpa [Forest.atLoc, hn, Forest.inode?] using h
    exact ⟨c, p, rfl⟩

section

variable (hw : WellFormed root)
  (hfind : ∀ p loc, named p loc → find p = some (.ok (root.nodeAt loc)))
include hw hfind

theorem resolve_trail {linked : Bool} (h : Trail root.atLoc named base pre linked dir)
    (hrest : rest ≠ []) :
    resolve find (pre ++ rest) (root.dirAt base) = resolve find rest (root.dirAt dir) := by
  induction h with
  | stay => rfl
  | @down base dir c cs linked i node plain noLink _ ih =>
    obtain ⟨child, peer, hs⟩ := sibling_of_atLoc node
    rw [List.cons_append, resolve, hw.scan base (hw.slash_notMem node), hs]
    dsimp only
    rw [if_neg (by simp [hrest, plain]), noLink]
    rw [← ih, dirAt_concat hs]
  | @jump base dir target c link cs linked i j node isLink hops goal plain _ ih =>
    obtain ⟨child, peer, hs⟩ := sibling_of_atLoc node
    have hchase := chase_of_hops hfind hops
    rw [List.cons_append, resolve, hw.scan base (hw.slash_notMem node), hs]
    dsimp only
    rw [if_neg (by simp [hrest, i.not_isMountpt_of_link isLink]), isLink]
    dsimp only
    rw [hchase]
    have hchild := dirAt_eq_child root (ne_nil_of_atLoc goal)
    obtain ⟨kc, kp, hnode⟩ := Forest.nodeAt_of_atLoc goal
    rw [hnode]
    dsimp only
    rw [if_neg (by simp [plain]), ← ih, hchild, hnode]
    rfl

/-- The walk finds the location that the components name. -/
theorem resolve_route (h : Route root.atLoc named base cs loc) :
    resolve find cs (root.dirAt base) = some (.ok (root.nodeAt loc)) := by
  cases h with
  | @here dir pre more c linked i trail node last =>
    obtain ⟨child, peer, hs⟩ := sibling_of_atLoc node
    rw [resolve_trail hw hfind trail (by simp), resolve, hw.scan dir (hw.slash_notMem node), hs]
    dsimp only
    rw [if_pos last, nodeAt_concat, hs]
  | @mount dir _ pre more c link linked i j trail node isLink middle hops goal isMount =>
    obtain ⟨child, peer, hs⟩ := sibling_of_atLoc node
    have hchase := chase_of_hops hfind hops
    rw [resolve_trail hw hfind trail (by simp), resolve, hw.scan dir (hw.slash_notMem node), hs]
    dsimp only
    rw [if_neg (by simp [middle, i.not_isMountpt_of_link isLink]), isLink]
    dsimp only
    rw [hchase]
    obtain ⟨kc, kp, hnode⟩ := Forest.nodeAt_of_atLoc goal
    have hne : j.ino ≠ i.ino := by
      intro he
      have hji := hw.inode_eq (mem_of_atLoc goal) (mem_of_atLoc node) he
      rw [hji, i.not_isMountpt_of_link isLink] at isMount
      cases isMount
    rw [hnode]
    dsimp only
    rw [if_pos ⟨hne, isMount⟩]

end

end Resolve

/-! ## How a walk ends -/

/-- The ends of the loop of `_inode_search` in the directory `dir` at the component at `name`, with
what it leaves in the descriptor. -/
inductive Stop (root : Forest) (named : Path → Loc → Prop) (start : Desc) (linked : Bool)
    (dir : Loc) (name : Path) (rest : List Path) (ret : Int) (desc : Desc) : Prop
  | missing (absent : root.atLoc (dir ++ [component name]) = none) (error : ret < 0)
      (path : desc.path = name)
      (peer : desc.peer = (root.dirAt dir).leftOf (component name) none)
      (parent : desc.parent = root.inoAt dir)
  | dangling {i : Inode} {link : Path} (node : root.atLoc (dir ++ [component name]) = some i)
      (isLink : i.link? = some link) (middle : rest ≠ []) (lost : Lost root.atLoc link)
      (error : ret < 0)
  | found {i : Inode} (node : root.atLoc (dir ++ [component name]) = some i)
      (last : rest = [] ∨ i.isMountpt) (ok : ret = OK)
      (result : desc.node = root.nodeAt (dir ++ [component name]))
      (peer : desc.peer = (root.dirAt dir).leftOf (component name) none)
      (parent : desc.parent = root.inoAt dir)
      (linktgt : linked = false → desc.linktgt = start.linktgt)
  | mount {i j : Inode} {link : Path} {loc : Loc}
      (node : root.atLoc (dir ++ [component name]) = some i) (isLink : i.link? = some link)
      (middle : rest ≠ []) (hops : Hops root.atLoc named symloopMax link loc)
      (goal : root.atLoc loc = some j) (isMount : j.isMountpt) (ok : ret = OK)
      (result : desc.node = root.nodeAt loc) (peer : desc.peer = none) (parent : desc.parent = none)

/-- A walk from the directory `base` comes along a trail to such an end. -/
def WalkEnd (root : Forest) (named : Path → Loc → Prop) (base : Loc) (ns : List Path)
    (start : Desc) (ret : Int) (desc : Desc) : Prop :=
  ∃ pre name rest linked dir, ns = pre ++ name :: rest ∧
    Trail root.atLoc named base (pre.map component) linked dir ∧
    Stop root named start linked dir name rest ret desc

variable {start' : Desc}

section Walk

variable {root : Forest} {named : Path → Loc → Prop} {more : List Path} {name : Path} {start : Desc}
  {ret : Int} {desc : Desc}

theorem WalkEnd.down (node : root.atLoc (base ++ [component name]) = some i)
    (plain : i.isMountpt = false) (noLink : i.link? = none)
    (h : WalkEnd root named (base ++ [component name]) more start ret desc) :
    WalkEnd root named base (name :: more) start ret desc := by
  obtain ⟨pre, n, rest, linked, dir, rfl, trail, stop⟩ := h
  exact ⟨name :: pre, n, rest, linked, dir, rfl, .down node plain noLink trail, stop⟩

/-- Once a link was followed nothing is said about `linktgt`. -/
theorem Stop.linked {linked : Bool} (h : Stop root named start' linked dir name rest ret desc) :
    Stop root named start true dir name rest ret desc := by
  cases h with
  | missing absent error path peer parent => exact .missing absent error path peer parent
  | dangling node isLink middle lost error => exact .dangling node isLink middle lost error
  | found node last ok result peer parent _ => exact .found node last ok result peer parent nofun
  | mount node isLink middle hops goal isMount ok result peer parent =>
    exact .mount node isLink middle hops goal isMount ok result peer parent

theorem WalkEnd.jump {target : Loc} (node : root.atLoc (base ++ [component name]) = some i)
    (isLink : i.link? = some link) (hops : Hops root.atLoc named symloopMax link target)
    (goal : root.atLoc target = some j) (plain : j.isMountpt = false)
    (h : WalkEnd root named target more start' ret desc) :
    WalkEnd root named base (name :: more) start ret desc := by
  obtain ⟨pre, n, rest, linked, dir, rfl, trail, stop⟩ := h
  exact ⟨name :: pre, n, rest, true, dir, rfl, .jump node isLink hops goal plain trail, stop.linked⟩

/-- What `_inode_linktarget` returns, in terms of the map. -/
def LinksFollowed (root : Forest) (named : Path → Loc → Prop)
    (search : Desc → Option (Int × Desc)) : Prop :=
  ∀ (i : Inode) (child peer : Forest) (desc : Desc) (link : Path) (r : Int × Desc),
    i.link? = some link → inodeLinktarget search (.node i child peer) desc = some r →
    (r.1 < 0 ∧ Lost root.atLoc link) ∨
    (0 ≤ r.1 ∧ ∃ loc, Hops root.atLoc named symloopMax link loc ∧ r.2.node = root.nodeAt loc)

theorem walk_end (hw : WellFormed root) {search : Desc → Option (Int × Desc)}
    (hl : LinksFollowed root named search) (ns : List Path) (hne : ns ≠ []) (base : Loc)
    (hd : root.IsDir base) (start : Desc)
    (h : walk search ns (root.dirAt base) (root.inoAt base) start = some (ret, desc)) :
    WalkEnd root named base ns start ret desc := by
  induction ns generalizing base start with
  | nil => exact absurd rfl hne
  | cons name more ih =>
    rw [walk, scan_component, hw.scan base (slash_notMem_component name)] at h
    cases hs : (root.dirAt base).sibling (component name) with
    | nil =>
      rw [hs] at h
      cases h
      have habsent : root.atLoc (base ++ [component name]) = none := by
        rw [atLoc_concat, hs]
        rfl
      exact ⟨[], name, more, false, base, rfl, .stay,
        .missing habsent (by decide) rfl rfl rfl⟩
    | node i child peer =>
      have node : root.atLoc (base ++ [component name]) = some i := by
        rw [atLoc_concat, hs]
        rfl
      rw [hs] at h
      dsimp only at h
      by_cases hend : more = [] ∨ i.isMountpt
      · rw [if_pos hend] at h
        cases h
        refine ⟨[], name, more, false, base, rfl, .stay,
          .found node hend rfl ?_ rfl rfl fun _ => rfl⟩
        rw [nodeAt_concat, hs]
        rfl
      rw [if_neg hend] at h
      obtain ⟨hmore, hplain⟩ := not_or.mp hend
      have plain : i.isMountpt = false := by simpa using hplain
      cases hlink : i.link? with
      | none =>
        rw [hlink] at h
        have hino : some i.ino = root.inoAt (base ++ [component name]) := by
          simp [Forest.inoAt, node]
        rw [hino, ← dirAt_concat hs] at h
        exact (ih hmore _ (Or.inr ⟨i, node⟩) start h).down node plain hlink
      | some link =>
        rw [hlink] at h
        cases hr : inodeLinktarget search (.node i child peer) start with
        | none => simp [hr] at h
        | some r =>
          obtain ⟨status, tdesc⟩ := r
          rw [hr] at h
          dsimp only at h
          rcases hl i child peer start link _ hlink hr with ⟨hneg, hlost⟩ | ⟨hpos, loc, hops, hnode⟩
          · rw [if_pos hneg] at h
            cases h
            exact ⟨[], name, more, false, base, rfl, .stay, .dangling node hlink hmore hlost hneg⟩
          rw [if_neg (Int.not_lt.mpr hpos)] at h
          obtain ⟨j, goal, -⟩ := hops.exists_node
          have hchild := dirAt_eq_child root (ne_nil_of_atLoc goal)
          cases hn : root.nodeAt loc with
          | nil => simp [Forest.atLoc, hn, Forest.inode?] at goal
          | node k kc kp =>
            obtain rfl : k = j := by simpa [Forest.atLoc, hn, Forest.inode?] using goal
            rw [hnode, hn] at h
            dsimp only at h
            by_cases hm : k.isMountpt
            · have hino : k.ino ≠ i.ino := by
                intro he
                have hki := hw.inode_eq (mem_of_atLoc goal) (mem_of_atLoc node) he
                rw [hki, plain] at hm
                cases hm
              rw [if_pos ⟨hino, hm⟩] at h
              cases h
              exact ⟨[], name, more, false, base, rfl, .stay,
                .mount node hlink hmore hops goal hm rfl hn.symm rfl rfl⟩
            · rw [if_neg (by simp [hm])] at h
              have hino : some k.ino = root.inoAt loc := by simp [Forest.inoAt, goal]
              rw [hn] at hchild
              rw [hino, show kc = root.dirAt loc from hchild.symm] at h
              exact (ih hmore loc (Or.inr ⟨k, goal⟩) tdesc h).jump node hlink hops goal
                (by simpa using hm)

end Walk

/-! ## How a search ends -/

variable {ret : Int} {start : Desc} {desc : Desc}

section Search

variable {root : Forest}

theorem comps_eq_of_names {name : Path} (h : names path = pre ++ name :: rest) :
    comps path = pre.map component ++ component name :: rest.map component := by
  simp [comps, h]

/-- A path that names a location is found there. -/
theorem resolveAt_of_reaches (hw : WellFormed root) (h : Reaches root.atLoc depth path loc) :
    resolveAt root depth path = some (.ok (root.nodeAt loc)) := by
  induction depth generalizing path loc with
  | zero => exact h.elim
  | succ depth ih =>
    obtain ⟨habs, route⟩ := h
    have hne : comps path ≠ [] := by
      intro he
      rw [he] at route
      generalize hcs : ([] : List Path) = cs at route
      cases route <;> simp at hcs
    rw [resolveAt, if_neg (not_not_intro habs), if_neg hne]
    exact resolve_route hw (fun p loc h => ih h) route

theorem linksFollowed (hw : WellFormed root) (hfind : ∀ p f, resolveAt root depth p = some (.ok f) →
      ∃ loc, Reaches root.atLoc depth p loc ∧ root.nodeAt loc = f) :
    LinksFollowed root (Reaches root.atLoc depth) (inodeSearchAt root depth) := by
  intro i child peer desc link r hl hr
  have hout := inodeLinktarget_outcome
    (fun p => inodeSearchAt_outcome root depth (.setup p true) rfl)
    (.node i child peer) desc link hl
  rw [hr, Option.map_some] at hout
  have hchase : chase (resolveAt root depth) symloopMax link = some (outcome r) := hout.symm
  by_cases hneg : r.1 < 0
  · refine Or.inl ⟨hneg, fun depth' loc hops => ?_⟩
    -- a chain found at any depth is found at the greater of the two
    have hup := chase_extends (resolveAt_mono (le_max_left depth depth')) _ _ _ hchase
    have hops' : Hops root.atLoc (Reaches root.atLoc (max depth depth')) symloopMax link loc :=
      hops.mono (fun _ _ hi => hi) fun p loc => Reaches.depth_mono (le_max_right depth depth')
    rw [chase_of_hops (fun p loc h => resolveAt_of_reaches hw h) hops', outcome, if_pos hneg] at hup
    cases hup
  · have hpos : 0 ≤ r.1 := Int.not_lt.mp hneg
    have hok : outcome r = .ok r.2.node := outcome_of_nonneg hpos r.2
    rw [hok] at hchase
    obtain ⟨loc, hops, hnode⟩ := hops_of_chase (fun p loc => Reaches.exists_node) hfind hchase
    exact Or.inr ⟨hpos, loc, hops, hnode.symm⟩

theorem WalkEnd.route {named : Path → Loc → Prop}
    (h : WalkEnd root named [] (names path) start ret desc) (hret : 0 ≤ ret) :
    ∃ loc, Route root.atLoc named [] (comps path) loc ∧ root.nodeAt loc = desc.node := by
  obtain ⟨pre, name, rest, linked, dir, split, trail, stop⟩ := h
  rw [comps_eq_of_names split]
  cases stop with
  | missing absent error path peer parent => exact absurd error (Int.not_lt.mpr hret)
  | dangling node isLink middle lost error => exact absurd error (Int.not_lt.mpr hret)
  | found node last ok result peer parent linktgt =>
    exact ⟨_, .here trail node (last.imp_left fun h => by simp [h]), result.symm⟩
  | mount node isLink middle hops goal isMount ok result =>
    exact ⟨_, .mount trail node isLink (by simp [middle]) hops goal isMount, result.symm⟩

theorem inodeSearchAt_end (hw : WellFormed root)
    (hfind : ∀ p f, resolveAt root depth p = some (.ok f) →
      ∃ loc, Reaches root.atLoc depth p loc ∧ root.nodeAt loc = f)
    (h : inodeSearchAt root (depth + 1) start = some (ret, desc)) :
    (ret < 0 ∧ (start.path.head? ≠ some '/' ∨ names start.path = [])) ∨
    (start.path.head? = some '/' ∧
      WalkEnd root (Reaches root.atLoc depth) [] (names start.path) start ret desc) := by
  rw [inodeSearchAt] at h
  by_cases habs : start.path.head? ≠ some '/'
  · rw [if_pos habs] at h
    cases h
    exact Or.inl ⟨by decide, Or.inl habs⟩
  rw [if_neg habs] at h
  by_cases hnames : names start.path = []
  · rw [if_pos hnames] at h
    cases h
    exact Or.inl ⟨by decide, Or.inr hnames⟩
  rw [if_neg hnames] at h
  exact Or.inr ⟨not_not.mp habs,
    walk_end hw (linksFollowed hw hfind) _ hnames [] (Or.inl rfl) start h⟩

theorem resolveAt_ok_iff (hw : WellFormed root) (depth : Nat) (path : Path) (f : Forest) :
    resolveAt root depth path = some (.ok f)
      ↔ ∃ loc, Reaches root.atLoc depth path loc ∧ root.nodeAt loc = f := by
  constructor
  · induction depth generalizing path f with
    | zero => exact fun h => nomatch h
    | succ depth ih =>
      intro h
      have hout := inodeSearchAt_outcome root (depth + 1) (.setup path true) rfl
      rw [show (Desc.setup path true).path = path from rfl, h] at hout
      obtain ⟨⟨ret, desc⟩, hres, hok⟩ := Option.map_eq_some_iff.mp hout
      obtain ⟨hret, rfl⟩ := outcome_eq_ok.mp hok
      rcases inodeSearchAt_end hw ih hres with ⟨hneg, -⟩ | ⟨habs, hend⟩
      · exact absurd hneg (Int.not_lt.mpr hret)
      · obtain ⟨loc, route, hnode⟩ := hend.route hret
        exact ⟨loc, ⟨habs, route⟩, hnode⟩
  · rintro ⟨loc, h, rfl⟩
    exact resolveAt_of_reaches hw h

end Search

/-! ## What `inode_search` finds -/

section Finds

variable (m : Loc → Option Inode)

/-- The search for a path comes to a location with the components `more` behind it. -/
def ComesTo (depth : Nat) (path : Path) (linked : Bool) (more : List Path) (loc : Loc) : Prop :=
  ∃ pre c dir, comps path = pre ++ c :: more ∧ Trail m (Reaches m depth) [] pre linked dir ∧
    loc = dir ++ [c]

/-- The search comes to a mountpoint over a soft link. -/
def OverMount (path : Path) (follow : Bool) : Prop :=
  ∃ depth linked more loc i, ComesTo m depth path linked more loc ∧ m loc = some i ∧
    ((linked = true ∧ i.isMountpt = true) ∨
      ((more ≠ [] ∨ follow = true) ∧ ∃ link target j, i.link? = some link ∧
        Hops m (Reaches m depth) symloopMax link target ∧ m target = some j ∧ j.isMountpt = true))

/-- The search comes to a soft link that it has to follow and that leads to no node. -/
def Dangling (path : Path) (follow : Bool) : Prop :=
  ∃ depth linked more loc i link, ComesTo m depth path linked more loc ∧ m loc = some i ∧
    (more ≠ [] ∨ follow = true) ∧ i.link? = some link ∧ Lost m link

/-- The location that a path names, with a link at its end replaced (`follow`) or not. -/
def Finds (depth : Nat) (path : Path) (follow : Bool) (loc : Loc) : Prop :=
  ∃ loc' i, Reaches m depth path loc' ∧ m loc' = some i ∧
    ((follow = true ∧ ∃ link, i.link? = some link ∧
        Hops m (Reaches m depth) symloopMax link loc) ∨
      ((follow = false ∨ i.link? = none) ∧ loc = loc'))

/-- The search comes to a component that no node has. -/
def Misses (depth : Nat) (path : Path) : Prop :=
  path.head? = some '/' ∧ ∃ linked more loc, ComesTo m depth path linked more loc ∧ m loc = none

end Finds

/-- The ends of `inode_search` when no mountpoint lies behind a link. -/
inductive SearchEnd (root : Forest) (depth : Nat) (path : Path) (nofollow : Bool) (ret : Int)
    (desc : Desc) : Prop
  | bad (error : ret < 0) (path : path.head? ≠ some '/' ∨ names path = [])
  | missing {pre rest : List Path} {name : Path} {linked : Bool} {dir : Loc}
      (split : names path = pre ++ name :: rest)
      (trail : Trail root.atLoc (Reaches root.atLoc depth) [] (pre.map component) linked dir)
      (absent : root.atLoc (dir ++ [component name]) = none) (error : ret < 0)
      (residual : desc.path = name)
      (peer : desc.peer = (root.dirAt dir).leftOf (component name) none)
      (parent : desc.parent = root.inoAt dir)
  | dangling (error : ret < 0) (lost : Dangling root.atLoc path (!nofollow))
  | found {pre rest : List Path} {name : Path} {linked : Bool} {dir : Loc} {i : Inode}
      (split : names path = pre ++ name :: rest)
      (trail : Trail root.atLoc (Reaches root.atLoc depth) [] (pre.map component) linked dir)
      (node : root.atLoc (dir ++ [component name]) = some i) (last : rest = [] ∨ i.isMountpt)
      (absolute : path.head? = some '/') (stays : nofollow = true ∨ i.link? = none) (ok : ret = OK)
      (result : desc.node = root.nodeAt (dir ++ [component name]))
      (peer : desc.peer = (root.dirAt dir).leftOf (component name) none)
      (parent : desc.parent = root.inoAt dir)
  | followed {loc : Loc} (follow : nofollow = false)
      (finds : Finds root.atLoc (depth + 1) path true loc) (ok : 0 ≤ ret)
      (result : desc.node = root.nodeAt loc)

variable {d : Desc}

section SearchEnd

variable {root : Forest} {memory : Bool} {nofollow : Bool}

theorem ComesTo.succ {m : Loc → Option Inode} {linked : Bool} {more : List Path}
    (h : ComesTo m depth path linked more loc) : ComesTo m (depth + 1) path linked more loc := by
  obtain ⟨pre, c, dir, hsplit, trail, hloc⟩ := h
  exact ⟨pre, c, dir, hsplit, trail.mono (fun _ _ hi => hi) fun p loc => Reaches.succ, hloc⟩

theorem not_finds_of_error (hw : WellFormed root) (hneg : ret < 0)
    (hpath : resolveAt root depth path = some (outcome (ret, d))) (follow : Bool) (loc : Loc) :
    ¬ Finds root.atLoc depth path follow loc := by
  rintro ⟨loc', i, hreach, -⟩
  rw [resolveAt_of_reaches hw hreach, outcome, if_pos hneg] at hpath
  cases hpath

/-- Nothing is looked up again unless a link led to a mountpoint. -/
theorem followMountpt_eq
    (h : d.linktgt = none ∨ ∃ j, d.node.inode? = some j ∧ j.isMountpt = false) :
    followMountpt root memory depth ret d = some (ret, d) := by
  rw [followMountpt]
  rcases h with h | ⟨j, hj, hm⟩
  · rw [h]
  · cases d.linktgt with
    | none => rfl
    | some linktgt => simp [hj, hm]

/-- The two ways to go on from a node that `_inode_search` found. -/
theorem followTerminal_cases (hw : WellFormed root) (node : root.atLoc loc = some i)
    (result : d.node = root.nodeAt loc) {r : Bool × Int × Desc}
    (h : followTerminal root depth ret d = some r) :
    ((d.nofollow = true ∨ i.link? = none) ∧ r = (false, ret, d)) ∨
    (∃ link, d.nofollow = false ∧ i.link? = some link ∧
      ((r.1 = true ∧ r.2.1 < 0 ∧ Lost root.atLoc link) ∨
        (r.1 = false ∧ 0 ≤ r.2.1 ∧ ∃ target,
          Hops root.atLoc (Reaches root.atLoc depth) symloopMax link target ∧
          r.2.2.node = root.nodeAt target))) := by
  have hinode : d.node.inode? = some i := by rw [result]; exact node
  rw [followTerminal, hinode, Option.bind_some] at h
  by_cases hfollow : d.nofollow = false ∧ i.link?.isSome
  · rw [if_pos hfollow] at h
    obtain ⟨link, hl⟩ := Option.isSome_iff_exists.mp hfollow.2
    obtain ⟨t, ht, rfl⟩ := Option.map_eq_some_iff.mp h
    refine Or.inr ⟨link, hfollow.1, hl, ?_⟩
    have hlinks := linksFollowed hw fun p f => (resolveAt_ok_iff hw depth p f).mp
    cases hn : d.node with
    | nil => simp [hn, Forest.inode?] at hinode
    | node k kc kp =>
      obtain rfl : k = i := by simpa [hn, Forest.inode?] using hinode
      rw [hn] at ht
      rcases hlinks k kc kp d link t hl ht with ⟨hneg, hlost⟩ | ⟨hpos, target, hops, hnode⟩
      · rw [if_pos hneg]
        exact Or.inl ⟨rfl, hneg, hlost⟩
      · rw [if_neg (Int.not_lt.mpr hpos)]
        split_ifs
        · exact Or.inr ⟨rfl, hpos, target, hops, hnode⟩
        · exact Or.inr ⟨rfl, hpos, target, hops, hnode⟩
  · rw [if_neg hfollow] at h
    refine Or.inl ⟨?_, (Option.some.inj h).symm⟩
    by_contra hno
    obtain ⟨h1, h2⟩ := not_or.mp hno
    exact hfollow ⟨by simpa using h1, Option.isSome_iff_ne_none.mpr h2⟩

theorem searchEnd_of_error (hneg : ret < 0)
    (h : WalkEnd root (Reaches root.atLoc depth) [] (names path) start ret d) :
    SearchEnd root depth path nofollow ret d := by
  obtain ⟨pre, name, rest, linked, dir, split, trail, stop⟩ := h
  cases stop with
  | missing absent error residual peer parent =>
    exact .missing split trail absent error residual peer parent
  | dangling node isLink middle lost error =>
    exact .dangling error ⟨depth, linked, rest.map component, _, _, _,
      ⟨_, _, dir, comps_eq_of_names split, trail, rfl⟩, node, Or.inl (by simp [middle]), isLink,
      lost⟩
  | found node last ok => exact absurd (ok ▸ hneg) (by decide)
  | mount node isLink middle hops goal isMount ok => exact absurd (ok ▸ hneg) (by decide)

theorem not_finds_of_lost (hw : WellFormed root) (hreach : Reaches root.atLoc depth path loc)
    (node : root.atLoc loc = some i) (hlink : i.link? = some link) (hlost : Lost root.atLoc link)
    (loc' : Loc) : ¬ Finds root.atLoc depth path true loc' := by
  rintro ⟨loc₁, i', hreach', node', hfinds⟩
  have hsame : root.nodeAt loc₁ = root.nodeAt loc := by
    have h := (resolveAt_of_reaches hw hreach').symm.trans (resolveAt_of_reaches hw hreach)
    simpa using h
  obtain rfl : i' = i := by
    rw [Forest.atLoc, hsame] at node'
    exact Option.some.inj (node'.symm.trans node)
  rcases hfinds with ⟨-, link', hlink', hops⟩ | ⟨hno, -⟩
  · obtain rfl : link = link' := Option.some.inj (hlink.symm.trans hlink')
    exact hlost _ _ hops
  · simp [hlink] at hno

theorem searchEnd_of_found (hw : WellFormed root) (hom : ¬ OverMount root.atLoc path (!nofollow))
    {r : Int} (hpos : 0 ≤ r) (habs : path.head? = some '/')
    (hend : WalkEnd root (Reaches root.atLoc depth) [] (names path) start r d)
    (hstart : start.linktgt = none) (hflag : d.nofollow = nofollow) {stop : Bool}
    (hterm : followTerminal root (depth + 1) r d = some (stop, ret, desc)) :
    (stop = false → ∀ memory, followMountpt root memory (depth + 1) ret desc = some (ret, desc)) ∧
    SearchEnd root depth path nofollow ret desc ∧
      (ret < 0 → ∀ loc, ¬ Finds root.atLoc (depth + 1) path (!nofollow) loc) := by
  obtain ⟨pre, name, rest, linked, dir, split, trail, stop⟩ := hend
  have hsplit := comps_eq_of_names split
  have hcomes : ComesTo root.atLoc depth path linked (rest.map component)
      (dir ++ [component name]) :=
    ⟨_, _, dir, hsplit, trail, rfl⟩
  cases stop with
  | missing absent error => exact absurd error (Int.not_lt.mpr hpos)
  | dangling node isLink middle lost error => exact absurd error (Int.not_lt.mpr hpos)
  | mount node isLink middle hops goal isMount =>
    exact absurd ⟨depth, linked, _, _, _, hcomes, node, Or.inr ⟨Or.inl (by simp [middle]), _, _, _,
      isLink, hops, goal, isMount⟩⟩ hom
  | @found i node last ok result peer parent linktgt =>
    have hreach : Reaches root.atLoc (depth + 1) path (dir ++ [component name]) := by
      refine ⟨habs, ?_⟩
      rw [hsplit]
      exact .here trail node (last.imp_left fun h => by simp [h])
    have hcases := hflag ▸ followTerminal_cases hw node result hterm
    rcases hcases with ⟨hstay, ht⟩ |
      ⟨link, hfollow, hlink, ⟨hstop, hneg, hlost⟩ | ⟨hstop, hpos', target, hops, hnode⟩⟩
    · -- the node itself; a mountpoint would have been looked up again only behind a link
      cases ht
      refine ⟨fun _ _ => followMountpt_eq ?_, .found split trail node last habs hstay ok result peer
        parent, fun h => absurd h (Int.not_lt.mpr hpos)⟩
      cases linked with
      | false => exact Or.inl ((linktgt rfl).trans hstart)
      | true =>
        refine Or.inr ⟨i, by rw [result]; exact node, ?_⟩
        by_contra hm
        exact hom ⟨depth, true, _, _, i, hcomes, node, Or.inl ⟨rfl, by simpa using hm⟩⟩
    · -- a link without a target
      subst hfollow
      exact ⟨fun h => absurd (hstop.symm.trans h) (by decide),
        .dangling hneg ⟨depth, linked, _, _, i, link, hcomes, node, Or.inr rfl, hlink, hlost⟩,
        fun _ => not_finds_of_lost hw hreach node hlink hlost⟩
    · -- the target of the link
      subst hfollow
      obtain ⟨j, goal, -⟩ := hops.exists_node
      have hplain : j.isMountpt = false := by
        by_contra hm
        exact hom ⟨depth + 1, linked, _, _, i, hcomes.succ, node,
          Or.inr ⟨Or.inr rfl, link, target, j, hlink, hops, goal, by simpa using hm⟩⟩
      exact ⟨fun _ _ => followMountpt_eq (Or.inr ⟨j, by rw [hnode]; exact goal, hplain⟩),
        .followed rfl ⟨_, i, hreach, node, Or.inl ⟨rfl, link, hlink, hops⟩⟩ hpos' hnode,
        fun h => absurd h (Int.not_lt.mpr hpos')⟩

theorem SearchEnd.finds (h : SearchEnd root depth path nofollow ret desc) (hret : 0 ≤ ret) :
    ∃ loc, Finds root.atLoc (depth + 1) path (!nofollow) loc ∧ desc.node = root.nodeAt loc := by
  cases h with
  | bad error => exact absurd error (Int.not_lt.mpr hret)
  | missing split trail absent error => exact absurd error (Int.not_lt.mpr hret)
  | dangling error => exact absurd error (Int.not_lt.mpr hret)
  | @found pre rest name linked dir i split trail node last absolute stays ok result =>
    have hroute : Route root.atLoc (Reaches root.atLoc depth) [] (comps path)
        (dir ++ [component name]) := by
      rw [comps_eq_of_names split]
      exact .here trail node (last.imp_left fun h => by simp [h])
    exact ⟨_, ⟨_, i, ⟨absolute, hroute⟩, node, Or.inr ⟨stays.imp_left fun h => by simp [h], rfl⟩⟩,
      result⟩
  | followed follow finds ok result =>
    subst follow
    exact ⟨_, finds, result⟩

theorem inodeSearch_of_walk (h : inodeSearchAt root depth (.setup path nofollow) = some (ret, d)) :
    inodeSearch root memory depth (.setup path nofollow) =
      if ret < 0 then some (ret, d)
      else (followTerminal root depth ret d).bind fun x =>
        if x.1 then some x.2 else followMountpt root memory depth x.2.1 x.2.2 := by
  have hstart : ({ Desc.setup path nofollow with linktgt := none } : Desc) = .setup path nofollow :=
    rfl
  rw [inodeSearch, hstart, h]
  dsimp only
  rcases followTerminal root depth ret d with _ | ⟨_ | _, r, desc⟩
  · rfl
  · rfl
  · rfl

theorem inodeSearch_end (hw : WellFormed root) (hom : ¬ OverMount root.atLoc path (!nofollow))
    (h : inodeSearch root memory (depth + 1) (.setup path nofollow) = some (ret, desc)) :
    SearchEnd root depth path nofollow ret desc ∧
      (ret < 0 → ∀ loc, ¬ Finds root.atLoc (depth + 1) path (!nofollow) loc) := by
  cases hsearch : inodeSearchAt root (depth + 1) (.setup path nofollow) with
  | none =>
    simp [inodeSearch, show inodeSearchAt root (depth + 1) { Desc.setup path nofollow with
      linktgt := none } = none from hsearch] at h
  | some r =>
  obtain ⟨r, d⟩ := r
  have hend := inodeSearchAt_end hw (fun p f => (resolveAt_ok_iff hw depth p f).mp) hsearch
  rw [inodeSearch_of_walk hsearch] at h
  by_cases hneg : r < 0
  · rw [if_pos hneg] at h
    cases h
    have hpath : resolveAt root (depth + 1) path = some (outcome (ret, desc)) := by
      have hout := hsearch ▸ inodeSearchAt_outcome root (depth + 1) (.setup path nofollow) rfl
      exact hout.symm
    refine ⟨?_, fun _ loc => not_finds_of_error hw hneg hpath _ loc⟩
    rcases hend with ⟨-, hbad⟩ | ⟨-, hend⟩
    · exact .bad hneg hbad
    · exact searchEnd_of_error hneg hend
  · rw [if_neg hneg] at h
    rcases hend with ⟨hneg', -⟩ | ⟨habs, hend⟩
    · exact absurd hneg' hneg
    cases hterm : followTerminal root (depth + 1) r d with
    | none => simp [hterm] at h
    | some t =>
    obtain ⟨stop, ret', desc'⟩ := t
    obtain ⟨hmount, hfound⟩ := searchEnd_of_found hw hom (Int.not_lt.mp hneg) habs hend rfl
      (inodeSearchAt_nofollow hsearch) hterm
    rw [hterm] at h
    cases stop with
    | true =>
      cases h
      exact hfound
    | false =>
      rw [Option.bind_some, if_neg Bool.false_ne_true, hmount rfl] at h
      cases h
      exact hfound

/-! ## When a search returns -/

theorem inodeSearchAt_of_reaches (hw : WellFormed root) (h : Reaches root.atLoc depth path loc)
    (nofollow : Bool) :
    ∃ ret desc, inodeSearchAt root depth (.setup path nofollow) = some (ret, desc) ∧ 0 ≤ ret ∧
      desc.node = root.nodeAt loc := by
  have hout := inodeSearchAt_outcome root depth (.setup path nofollow) rfl
  rw [show (Desc.setup path nofollow).path = path from rfl, resolveAt_of_reaches hw h] at hout
  obtain ⟨⟨ret, desc⟩, hsearch, hok⟩ := Option.map_eq_some_iff.mp hout
  exact ⟨ret, desc, hsearch, outcome_eq_ok.mp hok⟩

theorem inodeSearch_of_finds (hw : WellFormed root) (hom : ¬ OverMount root.atLoc path (!nofollow))
    (h : Finds root.atLoc (depth + 1) path (!nofollow) loc) :
    ∃ ret desc, inodeSearch root memory (depth + 1) (.setup path nofollow) = some (ret, desc) := by
  obtain ⟨loc', i, hreach, node, hfinds⟩ := h
  obtain ⟨r, d, hsearch, hr, hnode⟩ := inodeSearchAt_of_reaches hw hreach nofollow
  have hlink : d.node.link? = i.link? := hnode ▸ link?_nodeAt node
  have hterm : ∃ t, followTerminal root (depth + 1) r d = some t := by
    rw [followTerminal]
    split_ifs with hfollow
    · rcases hfinds with ⟨-, link, hl, hops⟩ | ⟨hno, -⟩
      · -- the chain of links ends within the depth
        have hchase := (inodeLinktarget_outcome
          (fun p => inodeSearchAt_outcome root (depth + 1) (.setup p true) rfl) d.node d link
          (hlink.trans hl)).trans (chase_of_hops (fun p loc h => resolveAt_of_reaches hw h) hops)
        obtain ⟨t, ht, -⟩ := Option.map_eq_some_iff.mp hchase
        exact ⟨_, Option.map_eq_some_iff.mpr ⟨t, ht, rfl⟩⟩
      · rcases hno with hno | hno
        · have hflag : nofollow = false := (inodeSearchAt_nofollow hsearch).symm.trans hfollow.1
          simp [hflag] at hno
        · exact absurd (hlink.trans hno) (Option.isSome_iff_ne_none.mp hfollow.2)
    · exact ⟨_, rfl⟩
  obtain ⟨⟨stop, ret, desc⟩, hterm⟩ := hterm
  refine ⟨ret, desc, ?_⟩
  rcases inodeSearchAt_end hw (fun p f => (resolveAt_ok_iff hw depth p f).mp) hsearch with
    ⟨hneg, -⟩ | ⟨habs, hend⟩
  · exact absurd hneg (Int.not_lt.mpr hr)
  have hmount :=
    (searchEnd_of_found hw hom hr habs hend rfl (inodeSearchAt_nofollow hsearch) hterm).1
  rw [inodeSearch_of_walk hsearch, if_neg (Int.not_lt.mpr hr), hterm]
  cases stop with
  | true => rfl
  | false => exact hmount rfl memory

theorem inodeSearch_of_misses (hw : WellFormed root) (h : Misses root.atLoc depth path) :
    ∃ ret desc, inodeSearch root memory (depth + 1) (.setup path nofollow) = some (ret, desc) := by
  obtain ⟨habs, linked, more, loc, ⟨pre, c, dir, hsplit, trail, rfl⟩, absent⟩ := h
  have hc : '/' ∉ c := by
    have hmem : c ∈ comps path := by simp [hsplit]
    obtain ⟨n, -, rfl⟩ := List.mem_map.mp hmem
    exact slash_notMem_component n
  have hnil : (root.dirAt dir).sibling c = .nil := by
    rw [atLoc_concat] at absent
    cases hs : (root.dirAt dir).sibling c with
    | nil => rfl
    | node => simp [hs, Forest.inode?] at absent
  have hres : resolveAt root (depth + 1) path = some (.error (-ENOENT)) := by
    have htrail := resolve_trail hw (fun p loc h => resolveAt_of_reaches hw h) trail
      (List.cons_ne_nil c more)
    rw [resolve, hw.scan dir hc, hnil] at htrail
    rw [resolveAt, if_neg (not_not_intro habs), if_neg (by simp [hsplit]), hsplit]
    exact htrail
  have hout := inodeSearchAt_outcome root (depth + 1) (.setup path nofollow) rfl
  rw [show (Desc.setup path nofollow).path = path from rfl, hres] at hout
  obtain ⟨⟨ret, desc⟩, hsearch, herr⟩ := Option.map_eq_some_iff.mp hout
  have hneg : ret < 0 := by
    by_contra hpos
    rw [outcome_of_nonneg (Int.not_lt.mp hpos)] at herr
    cases herr
  exact ⟨ret, desc, (inodeSearch_of_walk hsearch).trans (if_pos hneg)⟩

end SearchEnd

end BaseNx.Fs
