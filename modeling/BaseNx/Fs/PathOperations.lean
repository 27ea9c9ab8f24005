import BaseNx.Fs.Resolution
import BaseNx.Lib.Reach
import Mathlib.Data.List.Infix

/-!
# Reserving and removing paths

Runs of `inode_reserve` and `inode_unlink` on an empty tree, where the caller of `inode_reserve`
makes the new inode a mountpoint or a soft link later. In every state of such a run the tree is a
map from locations to inodes: `inode_search` finds what a path names, `inode_reserve` adds the nodes
on the rest of the path and `inode_unlink` takes out one node with all below it (`pathMap_laws`).

The calls have to keep to some conditions. `inode_search` loses the place in the tree when a soft
link leads to a mountpoint or to nothing, and `inode_reserve` uses that place all the same; it also
takes `/` for the name of a node and keeps the directories it made when the memory runs out in the
middle (`reserve_breaks_map`).
-/

namespace BaseNx.Fs

open Lib List Forest
open Function (comp_def update update_of_ne update_self)

/-! ## The rest of a path -/

theorem namesFrom_dropSlashes (s : Path) :
    namesFrom true (s.dropWhile (· = '/')) = namesFrom true s := by
  induction s with
  | nil => rfl
  | cons c cs ih =>
    by_cases hc : c = '/'
    · simp [hc, namesFrom, ih]
    · simp [hc]

theorem names_inodeNextname (s : Path) : names (inodeNextname s) = namesFrom false s := by
  induction s with
  | nil => rfl
  | cons c cs ih =>
    by_cases hc : c = '/'
    · have hdrop : inodeNextname (c :: cs) = cs.dropWhile (· = '/') := by
        simp [inodeNextname, hc]
      rw [hdrop, names, namesFrom_dropSlashes, namesFrom, if_pos hc]
    · have hdrop : inodeNextname (c :: cs) = inodeNextname cs := by
        simp [inodeNextname, hc]
      rw [hdrop, ih, namesFrom, if_neg hc]
      rfl

variable {name : Path}

theorem namesFrom_split {slash : Bool} {s : Path} {pre rest : List Path}
    (h : namesFrom slash s = pre ++ name :: rest) :
    ∃ c cs, name = c :: cs ∧ c ≠ '/' ∧ rest = namesFrom false cs := by
  induction s generalizing slash pre with
  | nil => simp [namesFrom] at h
  | cons c cs ih =>
    rw [namesFrom] at h
    split_ifs at h with hc hs
    · exact ih h
    · cases pre with
      | nil =>
        obtain ⟨rfl, rfl⟩ : c :: cs = name ∧ namesFrom false cs = rest := by simpa using h
        exact ⟨c, cs, rfl, hc, rfl⟩
      | cons p pre =>
        exact ih (List.cons.inj h).2
    · exact ih h

variable {path : Path}

theorem names_rest {pre rest : List Path} (h : names path = pre ++ name :: rest) :
    names (inodeNextname name) = rest := by
  obtain ⟨c, cs, rfl, hc, rfl⟩ := namesFrom_split h
  rw [names_inodeNextname, namesFrom, if_neg hc]
  rfl

theorem component_ne_nil {n : Path} (h : n ∈ names path) : component n ≠ [] := by
  obtain ⟨pre, rest, hsplit⟩ := append_of_mem h
  obtain ⟨c, cs, rfl, hc, -⟩ := namesFrom_split hsplit
  simp [component, hc]

/-! ## One new node -/

variable {c : Path} {f : Forest}

namespace Forest

variable {root : Forest} {dir : Loc}

theorem eq_nil_of_atLoc (h : ∀ c, f.atLoc [c] = none) : f = nil := by
  cases f with
  | nil => rfl
  | node i child peer =>
    have hi := h i.name
    simp [atLoc_node] at hi

/-- Nothing lies below a location without a node. -/
theorem atLoc_below_none (h : root.atLoc (dir ++ [c]) = none) (cs : Loc) :
    root.atLoc (dir ++ c :: cs) = none := by
  cases cs with
  | nil => exact h
  | cons d ds =>
    have hs : (root.dirAt dir).sibling c = nil := by
      rw [atLoc_append root dir (by simp)] at h
      exact atLoc_sibling.mp h
    rw [show dir ++ c :: d :: ds = (dir ++ [c]) ++ d :: ds by simp, atLoc_append _ _ (by simp),
      dirAt_append, dirAt, hs]
    exact atLoc_nil _

end Forest

section Insert

variable {root : Forest} {dir : Loc} {x : Inode}

open Forest

/-- The map after a new node was put in. -/
theorem atLoc_insert (hd : root.IsDir dir) (habsent : root.atLoc (dir ++ [x.name]) = none) :
    (root.updateDir dir (insertSibling x)).atLoc
      = update root.atLoc (dir ++ [x.name]) (some x) := by
  have hs : (root.dirAt dir).sibling x.name = .nil := by
    rw [atLoc_append root dir (by simp)] at habsent
    exact atLoc_sibling.mp habsent
  funext loc
  by_cases hpre : ∃ cs, cs ≠ [] ∧ loc = dir ++ cs
  · obtain ⟨cs, hcs, rfl⟩ := hpre
    obtain ⟨c, cs, rfl⟩ := exists_cons_of_ne_nil hcs
    rw [atLoc_updateDir_below _ hd (by simp), atLoc_insertSibling hs, ← atLoc_append _ _ (by simp)]
    by_cases hc : x.name = c
    · subst hc
      cases cs with
      | nil => simp
      | cons d ds => simp [update_of_ne, atLoc_below_none habsent]
    · rw [if_neg hc, update_of_ne]
      simp only [ne_eq, append_cancel_left_eq, List.cons.injEq, not_and]
      exact fun he => absurd he.symm hc
  · rw [atLoc_updateDir_other, update_of_ne]
    · rintro rfl
      exact hpre ⟨[x.name], by simp, rfl⟩
    · exact fun cs hcs he => hpre ⟨cs, hcs, he⟩

theorem inodes_insert (hd : root.IsDir dir) :
    (root.updateDir dir (insertSibling x)).inodes.Perm (x :: root.inodes) := by
  have h1 := inodes_updateDir hd (insertSibling x)
  have h2 : (root.inodes ++ ((root.dirAt dir).insertSibling x).inodes).Perm
      (x :: root.inodes ++ (root.dirAt dir).inodes) :=
    ((inodes_insertSibling _ x).append_left _).trans perm_middle
  exact (perm_append_right_iff _).mp (h1.trans h2)

theorem WellFormed.insert (hw : WellFormed root) (hd : root.IsDir dir)
    (habsent : root.atLoc (dir ++ [x.name]) = none) (hname : x.name ≠ [] ∧ '/' ∉ x.name)
    (hfresh : x.ino ∉ root.inos) : WellFormed (root.updateDir dir (insertSibling x)) := by
  have hs : (root.dirAt dir).sibling x.name = .nil := by
    rw [atLoc_append root dir (by simp)] at habsent
    exact atLoc_sibling.mp habsent
  refine ⟨hw.sorted.updateDir ((hw.sorted.dirAt dir).insertSibling hs), fun i hi => ?_, ?_⟩
  · rcases mem_cons.mp ((inodes_insert hd).mem_iff.mp hi) with rfl | hi
    · exact hname
    · exact hw.named i hi
  · refine ((inodes_insert hd).map Inode.ino).nodup_iff.mpr ?_
    exact nodup_cons.mpr ⟨hfresh, hw.nodup⟩

end Insert

/-! ## Reserving a path -/

/-- The map with new nodes on the components `cs` below `dir`, numbered from `ino`. -/
def created (m : Loc → Option Inode) (dir : Loc) : List Path → InodeId → Loc → Option Inode
  | [], _ => m
  | c :: cs, ino =>
    created (update m (dir ++ [c]) (some (newInode ino c))) (dir ++ [c]) cs (ino + 1)

/-- The tree is well formed and the next number is free. -/
structure PseudoFs.Valid (s : PseudoFs) : Prop where
  wellFormed : WellFormed s.root
  fresh : ∀ n ∈ s.root.inos, n < s.next

/-- What the loop of `inode_reserve` has done at its end. -/
structure Reserved (s s' : PseudoFs) (dir : Loc) (cs : List Path) : Prop where
  valid : s'.Valid
  map : s'.root.atLoc = created s.root.atLoc dir cs s.next
  keeps : ∀ loc i, s.root.atLoc loc = some i → s'.root.atLoc loc = some i
  trail : ∀ find, ∃ d c, cs.getLast? = some c ∧ Trail s'.root.atLoc find dir cs.dropLast false d ∧
    s'.root.atLoc (d ++ [c]) = some (newInode (s.next + (cs.length - 1)) c)

theorem component_newInode (ino : InodeId) (name : Path) :
    newInode ino (component name) = newInode ino name := by
  simp [newInode, component_component]

variable {s : PseudoFs} {dir : Loc}

theorem insert_reserved (hv : s.Valid) (hd : s.root.IsDir dir)
    (habsent : s.root.atLoc (dir ++ [component name]) = none) (hname : component name ≠ []) :
    Reserved s ⟨inodeInsert s.root (newInode s.next name)
        ((s.root.dirAt dir).leftOf (component name) none) (s.root.inoAt dir), s.next + 1⟩
      dir [component name] := by
  have hx : (newInode s.next name).name = component name := rfl
  have hsib : (s.root.dirAt dir).sibling (newInode s.next name).name = .nil := by
    rw [atLoc_append _ _ (by simp)] at habsent
    exact Forest.atLoc_sibling.mp habsent
  have hfresh : (newInode s.next name).ino ∉ s.root.inos := fun h => lt_irrefl _ (hv.fresh _ h)
  have heq := hx ▸ inodeInsert_eq hv.wellFormed.nodup hd hsib
  rw [heq]
  have hmap := atLoc_insert hd (x := newInode s.next name) habsent
  refine ⟨⟨hv.wellFormed.insert hd habsent ⟨hname, slash_notMem_component name⟩ hfresh, ?_⟩, ?_, ?_,
    ?_⟩
  · intro n hn
    have hperm := (inodes_insert (x := newInode s.next name) hd).map Inode.ino
    rcases mem_cons.mp (hperm.mem_iff.mp hn) with rfl | hn
    · exact Nat.lt_succ_self _
    · exact Nat.lt_succ_of_lt (hv.fresh n hn)
  · rw [created, created, component_newInode, hmap, hx]
  · intro loc i hi
    rw [hmap, update_of_ne, hi]
    rintro rfl
    rw [hx, habsent] at hi
    nomatch hi
  · intro find
    refine ⟨dir, component name, rfl, .stay, ?_⟩
    rw [hmap, hx, component_newInode]
    simp

/-- Nothing lies below the new node yet. -/
theorem Reserved.empty {s s' : PseudoFs} (h : Reserved s s' dir [c])
    (habsent : s.root.atLoc (dir ++ [c]) = none) : s'.root.dirAt (dir ++ [c]) = .nil := by
  refine eq_nil_of_atLoc fun d => ?_
  rw [← atLoc_append _ _ (by simp), h.map, created, created, update_of_ne (by simp)]
  simpa using atLoc_below_none habsent [d]

theorem Reserved.node {s s' : PseudoFs} (h : Reserved s s' dir [c]) :
    s'.root.atLoc (dir ++ [c]) = some (newInode s.next c) := by
  rw [h.map, created, created, update_self]

variable {cs : List Path}

/-- The loop goes on below the node that it made. -/
theorem Reserved.cons {s s₁ s₂ : PseudoFs} (h₁ : Reserved s s₁ dir [c])
    (hnext : s₁.next = s.next + 1) (hcs : cs ≠ []) (h₂ : Reserved s₁ s₂ (dir ++ [c]) cs) :
    Reserved s s₂ dir (c :: cs) := by
  have hnode : s₂.root.atLoc (dir ++ [c]) = some (newInode s.next c) := h₂.keeps _ _ h₁.node
  refine ⟨h₂.valid, ?_, fun loc i hi => h₂.keeps loc i (h₁.keeps loc i hi), fun find => ?_⟩
  · rw [h₂.map, h₁.map, hnext]
    rfl
  · obtain ⟨d, c', hlast, trail, hd⟩ := h₂.trail find
    refine ⟨d, c', ?_, ?_, ?_⟩
    · rw [getLast?_cons_of_ne_nil hcs, hlast]
    · rw [dropLast_cons_of_ne_nil hcs]
      exact .down hnode rfl rfl trail
    · have hlen : 1 + (cs.length - 1) = (c :: cs).length - 1 := by
        have hpos := length_pos_of_ne_nil hcs
        rw [length_cons]
        omega
      rw [hd, hnext, Nat.add_assoc, hlen]

/-- With memory for all nodes, the loop of `inode_reserve` makes the rest of the path. -/
theorem reserveLoop_reserved {alloc : Nat → Bool} (halloc : ∀ n, alloc n = true)
    (more : List Path) (hmore : ∀ m ∈ more, component m ≠ []) (hv : s.Valid) (n : Nat)
    (hname : component name ≠ []) (hd : s.root.IsDir dir)
    (habsent : s.root.atLoc (dir ++ [component name]) = none) :
    ∃ s', reserveLoop alloc s n name more ((s.root.dirAt dir).leftOf (component name) none)
        (s.root.inoAt dir) = (OK, some (s.next + more.length), s') ∧
      Reserved s s' dir (component name :: more.map component) := by
  induction more generalizing s n name dir with
  | nil =>
    unfold reserveLoop
    rw [if_pos (halloc n)]
    exact ⟨_, rfl, insert_reserved hv hd habsent hname⟩
  | cons m more ih =>
    unfold reserveLoop
    rw [if_pos (halloc n)]
    have hone := insert_reserved hv hd habsent hname
    set s₁ : PseudoFs := ⟨inodeInsert s.root (newInode s.next name)
      ((s.root.dirAt dir).leftOf (component name) none) (s.root.inoAt dir), s.next + 1⟩
    have hempty := hone.empty habsent
    have hleft : (s₁.root.dirAt (dir ++ [component name])).leftOf (component m) none = none := by
      rw [hempty]
      rfl
    have hparent : s₁.root.inoAt (dir ++ [component name]) = some s.next := by
      rw [Forest.inoAt, hone.node]
      rfl
    have habsent₁ : s₁.root.atLoc (dir ++ [component name] ++ [component m]) = none := by
      rw [atLoc_append _ _ (by simp), hempty]
      exact atLoc_nil _
    obtain ⟨s', hloop, hres⟩ := ih (forall_mem_cons.1 hmore).2 hone.valid (n + 1)
      (hmore m mem_cons_self) (Or.inr ⟨_, hone.node⟩) habsent₁
    rw [hleft, hparent] at hloop
    refine ⟨s', ?_, hone.cons rfl (by simp) hres⟩
    have hnum : s₁.next + more.length = s.next + (m :: more).length := by
      rw [length_cons, Nat.add_comm more.length 1, ← Nat.add_assoc]
    rw [← hnum]
    exact hloop

/-! ## One node less -/

variable {t : Inode}

section Remove

variable {root : Forest}

open Forest

theorem atLoc_remove (hs : root.Sorted) (hd : root.IsDir dir) (loc : Loc) :
    (root.updateDir dir (removeSibling c)).atLoc loc
      = if dir ++ [c] <+: loc then none else root.atLoc loc := by
  by_cases hpre : ∃ cs, cs ≠ [] ∧ loc = dir ++ cs
  · obtain ⟨cs, hcs, rfl⟩ := hpre
    obtain ⟨d, ds, rfl⟩ := exists_cons_of_ne_nil hcs
    have hbelow : dir ++ [c] <+: dir ++ d :: ds ↔ d = c := by
      simp [prefix_append_right_inj, cons_prefix_cons, eq_comm]
    simp only [hbelow]
    rw [atLoc_updateDir_below _ hd (by simp), atLoc_removeSibling (hs.dirAt dir),
      ← atLoc_append _ _ (by simp)]
  · have hno : ¬ dir ++ [c] <+: loc := by
      rintro ⟨t, rfl⟩
      exact hpre ⟨c :: t, by simp, by simp⟩
    rw [if_neg hno, atLoc_updateDir_other]
    exact fun cs hcs he => hpre ⟨cs, hcs, he⟩

theorem inodes_remove {tc tp : Forest} (hd : root.IsDir dir)
    (ht : (root.dirAt dir).sibling c = .node t tc tp) :
    root.inodes.Perm
    ((Forest.node t tc .nil).inodes ++ (root.updateDir dir (removeSibling c)).inodes) := by
  have h1 := inodes_updateDir hd (removeSibling c)
  have h2 := inodes_removeSibling ht
  refine (perm_append_right_iff ((root.dirAt dir).removeSibling c).inodes).mp ?_
  refine h1.symm.trans ((h2.append_left _).trans ?_)
  rw [append_assoc]
  exact perm_append_comm_assoc _ _ _

theorem WellFormed.remove (hw : WellFormed root) {tc tp : Forest} (hd : root.IsDir dir)
    (ht : (root.dirAt dir).sibling c = .node t tc tp) :
    WellFormed (root.updateDir dir (removeSibling c)) := by
  have hperm := inodes_remove hd ht
  refine ⟨hw.sorted.updateDir ((hw.sorted.dirAt dir).removeSibling c), fun i hi => ?_, ?_⟩
  · exact hw.named i (hperm.mem_iff.mpr (mem_append_right _ hi))
  · have hnodup := map_append ▸ (hperm.map Inode.ino).nodup_iff.mp hw.nodup
    exact hnodup.of_append_right

end Remove

/-! ## The operations and their conditions -/

/-- The calls of a run; `depth` is how deep a search may recurse. -/
inductive Op
  | reserve (alloc : Nat → Bool) (memory : Bool) (depth : Nat) (path : Path)
  | unlink (memory : Bool) (depth : Nat) (path : Path)
  | setup (ino : InodeId) (kind : Kind)

/-- The tree after a call; a call that does not return has no next state. -/
def Op.apply (s : PseudoFs) : Op → Option PseudoFs
  | .reserve alloc memory depth path =>
    (inodeReserve alloc memory depth s path).map fun r => r.2.2
  | .unlink memory depth path =>
    (inodeUnlink memory depth s.root path).map fun r => { s with root := r.2 }
  | .setup ino kind => some { s with root := s.root.modify ino fun i => { i with kind := kind } }

/-- The memory runs out at the first node or not at all. -/
def AllOrNothing (alloc : Nat → Bool) : Prop := alloc 0 = false ∨ ∀ n, alloc n = true

/-- The condition on a call of `inode_reserve`: an absolute path has a component, no soft link on it
leads to a mountpoint or to nothing, and the memory runs out at once or not at all. -/
structure ReserveOk (s : PseudoFs) (alloc : Nat → Bool) (path : Path) : Prop where
  named : path.head? = some '/' → names path ≠ []
  noMount : ¬ OverMount s.root.atLoc path true
  noDangling : ¬ Dangling s.root.atLoc path true
  memory : AllOrNothing alloc

/-- The conditions on the calls. -/
def Op.Ok (s : PseudoFs) : Op → Prop
  | .reserve alloc _ _ path => ReserveOk s alloc path
  | .unlink _ _ path => ¬ OverMount s.root.atLoc path false
  | .setup _ _ => True

/-! ## What the operations do -/

variable {root : Forest}

section Laws

variable {s s' : PseudoFs} {alloc : Nat → Bool} {memory : Bool} {depth : Nat}

theorem inodeSearch_of_reaches (hw : WellFormed root) {loc : Loc} {i : Inode}
    (hreach : Reaches root.atLoc depth path loc) (node : root.atLoc loc = some i)
    (plain : i.isMountpt = false) (noLink : i.link? = none) (memory nofollow : Bool) :
    ∃ ret desc, inodeSearch root memory depth (.setup path nofollow) = some (ret, desc) ∧
      0 ≤ ret ∧ desc.node = root.nodeAt loc := by
  obtain ⟨ret, desc, hsearch, hret, hnode⟩ := inodeSearchAt_of_reaches hw hreach nofollow
  have hinode : desc.node.inode? = some i := by
    rw [hnode]
    exact node
  have hterm : followTerminal root depth ret desc = some (false, ret, desc) := by
    rw [followTerminal, hinode, Option.bind_some, noLink]
    simp
  refine ⟨ret, desc, ?_, hret, hnode⟩
  rw [inodeSearch_of_walk hsearch, if_neg (Int.not_lt.mpr hret), hterm]
  exact followMountpt_eq (Or.inr ⟨i, hinode, plain⟩)

theorem inodeReserve_cases (hv : s.Valid) (hok : ReserveOk s alloc path) {ret : Int}
    {ino : Option InodeId} (h : inodeReserve alloc memory depth s path = some (ret, ino, s')) :
    (ret < 0 ∧ s' = s ∧ (path.head? ≠ some '/' ∨
      (∃ loc, Finds s.root.atLoc depth path true loc) ∨ alloc 0 = false)) ∨
    (ret = OK ∧ ∃ d pre cs linked dir, depth = d + 1 ∧ path.head? = some '/' ∧
      comps path = pre ++ cs ∧ cs ≠ [] ∧
      Trail s.root.atLoc (Reaches s.root.atLoc d) [] pre linked dir ∧
      s.root.atLoc (dir ++ cs.take 1) = none ∧ ino = some (s.next + (cs.length - 1)) ∧
      Reserved s s' dir cs) := by
  rw [inodeReserve] at h
  by_cases habs : path.head? ≠ some '/'
  · rw [if_pos habs] at h
    cases h
    exact Or.inl ⟨by decide, rfl, Or.inl habs⟩
  rw [if_neg habs] at h
  cases hsearch : inodeSearch s.root memory depth (.setup path false) with
  | none => simp [hsearch] at h
  | some r =>
  obtain ⟨r, desc⟩ := r
  rw [hsearch] at h
  dsimp only at h
  obtain ⟨d, rfl⟩ : ∃ d, depth = d + 1 := by
    cases depth with
    | zero => nomatch hsearch
    | succ d => exact ⟨d, rfl⟩
  have hend := (inodeSearch_end hv.wellFormed hok.noMount hsearch).1
  by_cases hpos : 0 ≤ r
  · rw [if_pos hpos] at h
    cases h
    obtain ⟨loc, hfinds, -⟩ := hend.finds hpos
    exact Or.inl ⟨by decide, rfl, Or.inr (Or.inl ⟨loc, hfinds⟩)⟩
  rw [if_neg hpos] at h
  cases hend with
  | bad error hbad =>
    rcases hbad with hbad | hbad
    · exact absurd hbad habs
    · exact absurd hbad (hok.named (not_not.mp habs))
  | dangling error lost => exact absurd lost hok.noDangling
  | found split trail node last absolute stays ok => exact absurd (ok ▸ hpos) (by decide)
  | followed follow finds ok => exact absurd ok hpos
  | @missing pre rest name linked dir split trail absent error residual peer parent =>
    rw [residual, peer, parent, names_rest split] at h
    have hne : ∀ m ∈ name :: rest, component m ≠ [] := by
      intro m hm
      have hmem : m ∈ names path := split ▸ mem_append_right pre hm
      exact component_ne_nil hmem
    rcases hok.memory with hnone | hall
    · unfold reserveLoop at h
      rw [if_neg (by simp [hnone])] at h
      cases h
      exact Or.inl ⟨by decide, rfl, Or.inr (Or.inr hnone)⟩
    · obtain ⟨t, hloop, hres⟩ := reserveLoop_reserved hall rest
        (forall_mem_cons.1 hne).2 hv 0 (hne name mem_cons_self)
        (trail.isDir (Or.inl rfl)) absent
      rw [hloop] at h
      cases h
      exact Or.inr ⟨rfl, d, _, _, linked, dir, rfl, not_not.mp habs,
        comps_eq_of_names split, by simp, trail, absent, by simp, hres⟩

theorem Reserved.search {pre : List Path} {linked : Bool} (h : Reserved s s' dir cs)
    (habs : path.head? = some '/') (hsplit : comps path = pre ++ cs)
    (trail : Trail s.root.atLoc (Reaches s.root.atLoc depth) [] pre linked dir)
    (memory nofollow : Bool) :
    ∃ ret desc c, inodeSearch s'.root memory (depth + 1) (.setup path nofollow) = some (ret, desc) ∧
      0 ≤ ret ∧ cs.getLast? = some c ∧
      desc.node.inode? = some (newInode (s.next + (cs.length - 1)) c) := by
  obtain ⟨d, c, hlast, trail', hnode⟩ := h.trail (Reaches s'.root.atLoc depth)
  have hfirst := trail.mono h.keeps fun p loc => Reaches.mono h.keeps
  have hcs : cs = cs.dropLast ++ [c] := (dropLast_append_getLast? c hlast).symm
  have hreach : Reaches s'.root.atLoc (depth + 1) path (d ++ [c]) := by
    refine ⟨habs, ?_⟩
    rw [hsplit, hcs, ← append_assoc]
    exact .here (hfirst.append trail') hnode (Or.inl rfl)
  obtain ⟨ret, desc, hsearch, hret, hdesc⟩ :=
    inodeSearch_of_reaches h.valid.wellFormed hreach hnode rfl rfl memory nofollow
  refine ⟨ret, desc, c, hsearch, hret, hlast, ?_⟩
  rw [hdesc]
  exact hnode

theorem inodeUnlink_cases {root' node : Forest} (hw : WellFormed root)
    (hom : ¬ OverMount root.atLoc path false)
    (h : inodeUnlink memory depth root path = some (node, root')) :
    (node = .nil ∧ root' = root ∧ ∀ loc, ¬ Finds root.atLoc depth path false loc) ∨
    (∃ loc i child peer, Finds root.atLoc depth path false loc ∧
      root.nodeAt loc = .node i child peer ∧ node = .node i child .nil ∧
      (∀ loc', root'.atLoc loc' = if loc <+: loc' then none else root.atLoc loc') ∧
      WellFormed root' ∧ root.inodes.Perm (node.inodes ++ root'.inodes)) := by
  rw [inodeUnlink] at h
  by_cases habs : path.head? ≠ some '/'
  · rw [if_pos habs] at h
    cases h
    refine Or.inl ⟨rfl, rfl, ?_⟩
    rintro loc ⟨loc', i, hreach, -⟩
    cases depth with
    | zero => exact hreach
    | succ d => exact habs hreach.1
  rw [if_neg habs] at h
  cases hsearch : inodeSearch root memory depth (.setup path true) with
  | none => simp [hsearch] at h
  | some r =>
  obtain ⟨r, desc⟩ := r
  rw [hsearch] at h
  dsimp only at h
  obtain ⟨d, rfl⟩ : ∃ d, depth = d + 1 := by
    cases depth with
    | zero => nomatch hsearch
    | succ d => exact ⟨d, rfl⟩
  obtain ⟨hend, hnone⟩ := inodeSearch_end hw hom hsearch
  by_cases hpos : 0 ≤ r
  · rw [if_pos hpos] at h
    cases hend with
    | bad error => exact absurd error (Int.not_lt.mpr hpos)
    | missing split trail absent error => exact absurd error (Int.not_lt.mpr hpos)
    | dangling error => exact absurd error (Int.not_lt.mpr hpos)
    | followed follow => nomatch follow
    | @found pre rest name linked dir i split trail node last absolute stays ok result peer
        parent =>
      obtain ⟨child, tp, hs⟩ := sibling_of_atLoc node
      have hd : root.IsDir dir := trail.isDir (Or.inl rfl)
      have hnode : root.nodeAt (dir ++ [component name]) = .node i child tp := by
        rw [nodeAt_concat, hs]
      rw [result, hnode, peer, parent] at h
      dsimp only at h
      rw [takeOut_eq hw.sorted hw.nodup hd hs] at h
      cases h
      refine Or.inr ⟨_, i, child, tp, ?_, hnode, rfl, atLoc_remove hw.sorted hd, hw.remove hd hs,
        inodes_remove hd hs⟩
      refine ⟨_, i, ⟨absolute, ?_⟩, node, Or.inr ⟨Or.inl rfl, rfl⟩⟩
      rw [comps_eq_of_names split]
      exact .here trail node (last.imp_left fun h => by simp [h])
  · rw [if_neg hpos] at h
    cases h
    exact Or.inl ⟨rfl, rfl, hnone (Int.not_le.mp hpos)⟩

end Laws

/-! ## Changes to the fields of an inode -/

section Modify

variable {g : Inode → Inode} (hg : ∀ i, (g i).ino = i.ino ∧ (g i).name = i.name) (ino : InodeId)

include hg

theorem siblingNames_modify (f : Forest) : (f.modify ino g).siblingNames = f.siblingNames := by
  induction f with
  | nil => rfl
  | node i child peer _ ih =>
    rw [Forest.modify] at ih ⊢
    rw [Forest.edit]
    split_ifs
    · rw [Forest.siblingNames, Forest.siblingNames, (hg i).2]
    · rw [Forest.siblingNames, ih, Forest.siblingNames]

theorem Forest.Sorted.modify (h : f.Sorted) : (f.modify ino g).Sorted := by
  induction f with
  | nil => exact h
  | node i child peer ihc ihp =>
    have hnames := siblingNames_modify hg ino peer
    rw [Forest.modify] at ihc ihp hnames ⊢
    rw [Forest.edit]
    split_ifs
    · refine ⟨?_, h.2⟩
      rw [(hg i).2]
      exact h.1
    · exact ⟨hnames ▸ h.1, ihc h.2.1, ihp h.2.2⟩

theorem labels_modify (f : Forest) :
    (f.modify ino g).inodes.map (fun i => (i.ino, i.name))
      = f.inodes.map fun i => (i.ino, i.name) := by
  induction f with
  | nil => rfl
  | node i child peer ihc ihp =>
    rw [Forest.modify] at ihc ihp ⊢
    rw [Forest.edit]
    split_ifs
    · simp only [Forest.inodes, map_cons, (hg i).1, (hg i).2]
    · simp only [Forest.inodes, map_cons, map_append, ihc, ihp]

theorem inos_modify (f : Forest) : (f.modify ino g).inos = f.inos := by
  have h := congrArg (List.map Prod.fst) (labels_modify hg ino f)
  simpa [Forest.inos, comp_def] using h

theorem WellFormed.modify (hw : WellFormed f) : WellFormed (f.modify ino g) := by
  refine ⟨hw.sorted.modify hg ino, fun i hi => ?_, ?_⟩
  · have hlabel := mem_map_of_mem (f := fun i : Inode => (i.ino, i.name)) hi
    rw [labels_modify hg] at hlabel
    obtain ⟨j, hj, heq⟩ := mem_map.mp hlabel
    have hname : j.name = i.name := (Prod.mk.inj heq).2
    exact hname ▸ hw.named j hj
  · exact (inos_modify hg ino f).symm ▸ hw.nodup

end Modify

/-- Setting up a node after it was reserved keeps the tree valid. -/
theorem PseudoFs.Valid.setKind (hv : s.Valid) (ino : InodeId) (kind : Kind) :
    ({ s with root := s.root.modify ino fun i => { i with kind := kind } } : PseudoFs).Valid := by
  have hg : ∀ i : Inode, ({ i with kind := kind } : Inode).ino = i.ino ∧
      ({ i with kind := kind } : Inode).name = i.name := fun i => ⟨rfl, rfl⟩
  refine ⟨hv.wellFormed.modify hg ino, ?_⟩
  rw [inos_modify hg ino s.root]
  exact hv.fresh

/-! ## Runs -/

/-- The laws of the map in one state. -/
structure MapLaws (s : PseudoFs) : Prop where
  /-- Every list of siblings is strictly sorted. -/
  sorted : s.root.Sorted
  /-- Names are components. -/
  named : ∀ i ∈ s.root.inodes, i.name ≠ [] ∧ '/' ∉ i.name
  /-- A search succeeds exactly if the path names a location, and returns the node there. -/
  search :
    ∀ (memory : Bool) (depth : Nat) (path : Path) (nofollow : Bool) (ret : Int) (desc : Desc),
    ¬ OverMount s.root.atLoc path (!nofollow) →
    inodeSearch s.root memory (depth + 1) (.setup path nofollow) = some (ret, desc) →
    (0 ≤ ret ↔ ∃ loc, Finds s.root.atLoc (depth + 1) path (!nofollow) loc) ∧
    (0 ≤ ret → ∃ loc, Finds s.root.atLoc (depth + 1) path (!nofollow) loc ∧
      desc.node = s.root.nodeAt loc)
  /-- Reserving makes the nodes on the rest of the path and no others, and the last of them is then
  found under the path; it fails and changes nothing if the path names a node already, does not
  begin with a slash, or there is no memory. -/
  reserve : ∀ (alloc : Nat → Bool) (memory : Bool) (depth : Nat) (path : Path) (ret : Int)
      (ino : Option InodeId) (s' : PseudoFs), ReserveOk s alloc path →
    inodeReserve alloc memory depth s path = some (ret, ino, s') →
    (ret < 0 ∧ s' = s ∧ (path.head? ≠ some '/' ∨
      (∃ loc, Finds s.root.atLoc depth path true loc) ∨ alloc 0 = false)) ∨
    (ret = OK ∧ ∃ pre cs dir linked, comps path = pre ++ cs ∧ cs ≠ [] ∧
      Trail s.root.atLoc (Reaches s.root.atLoc (depth - 1)) [] pre linked dir ∧
      s.root.atLoc (dir ++ cs.take 1) = none ∧
      s'.root.atLoc = created s.root.atLoc dir cs s.next ∧
      ∀ memory' nofollow, ∃ ret' desc i,
        inodeSearch s'.root memory' depth (.setup path nofollow) = some (ret', desc) ∧ 0 ≤ ret' ∧
        desc.node.inode? = some i ∧ ino = some i.ino)
  /-- Unlinking takes out the node that the path names and all below it, or nothing. -/
  unlink : ∀ (memory : Bool) (depth : Nat) (path : Path) (node root' : Forest),
    ¬ OverMount s.root.atLoc path false →
    inodeUnlink memory depth s.root path = some (node, root') →
    (node = .nil ∧ root' = s.root ∧ ∀ loc, ¬ Finds s.root.atLoc depth path false loc) ∨
    (∃ loc i child peer, Finds s.root.atLoc depth path false loc ∧
      s.root.nodeAt loc = .node i child peer ∧ node = .node i child .nil ∧
      ∀ loc', root'.atLoc loc' = if loc <+: loc' then none else s.root.atLoc loc')
  /-- All three return where the path names a location or a component is missing within the depth of
  the recursion. -/
  returns : ∀ (alloc : Nat → Bool) (memory : Bool) (depth : Nat) (path : Path) (nofollow : Bool),
    ¬ OverMount s.root.atLoc path (!nofollow) →
    (∃ loc, Finds s.root.atLoc (depth + 1) path (!nofollow) loc) ∨ Misses s.root.atLoc depth path →
    (∃ r, inodeSearch s.root memory (depth + 1) (.setup path nofollow) = some r) ∧
    (nofollow = false → ∃ r, inodeReserve alloc memory (depth + 1) s path = some r) ∧
    (nofollow = true → ∃ r, inodeUnlink memory (depth + 1) s.root path = some r)

theorem PseudoFs.Valid.laws (hv : s.Valid) : MapLaws s where
  sorted := hv.wellFormed.sorted
  named := hv.wellFormed.named
  search := by
    intro memory depth path nofollow ret desc hom h
    obtain ⟨hend, hnone⟩ := inodeSearch_end hv.wellFormed hom h
    refine ⟨⟨fun hret => ?_, fun hloc => ?_⟩, fun hret => hend.finds hret⟩
    · obtain ⟨loc, hloc, -⟩ := hend.finds hret
      exact ⟨loc, hloc⟩
    · by_contra hneg
      obtain ⟨loc, hloc⟩ := hloc
      exact hnone (Int.not_le.mp hneg) loc hloc
  reserve := by
    intro alloc memory depth path ret ino s' hok h
    rcases inodeReserve_cases hv hok h with hfail |
      ⟨hret, d, pre, cs, linked, dir, rfl, habs, hsplit, hcs, trail, absent, hino, hres⟩
    · exact Or.inl hfail
    · refine Or.inr ⟨hret, pre, cs, dir, linked, hsplit, hcs, trail, absent, hres.map, ?_⟩
      intro memory' nofollow
      obtain ⟨ret', desc, c, hsearch, hret', -, hnode⟩ :=
        hres.search habs hsplit trail memory' nofollow
      exact ⟨ret', desc, _, hsearch, hret', hnode, hino⟩
  unlink := by
    intro memory depth path node root' hom h
    rcases inodeUnlink_cases hv.wellFormed hom h with hnone |
      ⟨loc, i, child, peer, hfinds, hnode, rfl, hmap, -, -⟩
    · exact Or.inl hnone
    · exact Or.inr ⟨loc, i, child, peer, hfinds, hnode, rfl, hmap⟩
  returns := by
    intro alloc memory depth path nofollow hom h
    obtain ⟨ret, desc, hsearch⟩ : ∃ ret desc,
        inodeSearch s.root memory (depth + 1) (.setup path nofollow) = some (ret, desc) := by
      rcases h with ⟨loc, hfinds⟩ | hmiss
      · exact inodeSearch_of_finds hv.wellFormed hom hfinds
      · exact inodeSearch_of_misses hv.wellFormed hmiss
    refine ⟨⟨_, hsearch⟩, ?_, ?_⟩
    · rintro rfl
      rw [inodeReserve, hsearch]
      dsimp only
      split_ifs <;> exact ⟨_, rfl⟩
    · rintro rfl
      rw [inodeUnlink, hsearch]
      dsimp only
      split_ifs with habs hret
      · exact ⟨_, rfl⟩
      · -- a search that succeeds has a node
        obtain ⟨loc, ⟨loc', i, -, node, ⟨hfollow, -⟩ | ⟨-, rfl⟩⟩, hnode⟩ :=
          (inodeSearch_end hv.wellFormed hom hsearch).1.finds hret
        · cases hfollow
        · obtain ⟨child, peer, heq⟩ := nodeAt_of_atLoc node
          rw [hnode, heq]
          exact ⟨_, rfl⟩
      · exact ⟨_, rfl⟩

theorem Op.valid {s s' : PseudoFs} (hv : s.Valid) (op : Op) (hok : op.Ok s)
    (h : op.apply s = some s') : s'.Valid := by
  cases op with
  | reserve alloc memory depth path =>
    obtain ⟨⟨ret, ino, t⟩, hres, rfl⟩ := Option.map_eq_some_iff.mp h
    rcases inodeReserve_cases hv hok hres with
      ⟨-, rfl, -⟩ | ⟨-, d, pre, cs, linked, dir, -, -, -, -, -, -, -, hres⟩
    · exact hv
    · exact hres.valid
  | unlink memory depth path =>
    obtain ⟨⟨node, root'⟩, hres, rfl⟩ := Option.map_eq_some_iff.mp h
    rcases inodeUnlink_cases hv.wellFormed hok hres with
      ⟨-, rfl, -⟩ | ⟨loc, i, child, peer, -, -, -, -, hw, hperm⟩
    · exact hv
    · refine ⟨hw, fun n hn => hv.fresh n ?_⟩
      obtain ⟨i, hi, rfl⟩ := mem_map.mp hn
      exact mem_map_of_mem (hperm.mem_iff.mpr (mem_append_right _ hi))
  | setup ino kind =>
    cases h
    exact hv.setKind ino kind

def PseudoFs.empty : PseudoFs := ⟨.nil, 0⟩

theorem PseudoFs.empty_valid : PseudoFs.empty.Valid :=
  ⟨⟨trivial, nofun, nodup_nil⟩, nofun⟩

/-- The states of the runs whose calls keep to the conditions. -/
def PathRun : PseudoFs → Prop :=
  Reach (fun s => s = .empty) (LabelledStep (fun s op => op.Ok s) Op.apply)

/-- In every state of a run the tree is a map from paths to inodes. -/
theorem pathMap_laws (h : PathRun s) : MapLaws s := by
  have hv : s.Valid := by
    refine Reach.invariant ?_ ?_ h
    · rintro s rfl
      exact PseudoFs.empty_valid
    · rintro s t hs ⟨op, hok, hop⟩
      exact op.valid hs hok hop
  exact hv.laws

/-- A tree without mountpoints has none behind a link. -/
theorem not_overMount (h : ∀ i ∈ root.inodes, i.isMountpt = false) (path : Path) (follow : Bool) :
    ¬ OverMount root.atLoc path follow := by
  rintro ⟨depth, linked, more, loc, i, -, node, ⟨-, hm⟩ | ⟨-, link, target, j, -, -, goal, hm⟩⟩
  · simp [h i (mem_of_atLoc node)] at hm
  · simp [h j (mem_of_atLoc goal)] at hm

/-- A tree without links has none that leads nowhere. -/
theorem not_dangling (h : ∀ i ∈ root.inodes, i.link? = none) (path : Path) (follow : Bool) :
    ¬ Dangling root.atLoc path follow := by
  rintro ⟨depth, linked, more, loc, i, link, -, node, -, hl, -⟩
  simp [h i (mem_of_atLoc node)] at hl

/-- A device in a directory. -/
def oneDevice : PseudoFs :=
  ⟨.node ⟨0, "dev".toList, .driver, 0, false⟩
    (.node ⟨1, "a".toList, .driver, 0, false⟩ .nil .nil) .nil, 2⟩

/-- The directory without the device, as a link. -/
def devLink : PseudoFs :=
  ⟨.node ⟨0, "dev".toList, .softlink "/x".toList, 0, false⟩ .nil .nil, 2⟩

/-- A device is made and removed, and its directory becomes a link. -/
theorem pathMap_laws_sample : PathRun devLink ∧ MapLaws devLink := by
  have hmake : Op.apply .empty (.reserve (fun _ => true) true 1 "/dev//a/".toList)
      = some oneDevice := by decide +kernel
  have hremove : Op.apply oneDevice (.unlink true 1 "/dev/a".toList)
      = some ⟨.node ⟨0, "dev".toList, .driver, 0, false⟩ .nil .nil, 2⟩ := by decide
  have hok : ReserveOk .empty (fun _ => true) "/dev//a/".toList :=
    ⟨fun _ => by decide, not_overMount (by decide) _ _, not_dangling (by decide) _ _,
      Or.inr fun _ => rfl⟩
  have hrun : PathRun devLink := by
    refine .next (.next (.next (.start rfl) ⟨.reserve _ _ _ _, hok, hmake⟩)
      ⟨.unlink _ _ _, ?_, hremove⟩) ⟨.setup 0 (.softlink "/x".toList), trivial, rfl⟩
    exact not_overMount (by decide) _ _
  exact ⟨hrun, pathMap_laws hrun⟩

/-- A link that leads nowhere beside a device. -/
def brokenLink : PseudoFs :=
  ⟨.node ⟨0, "a".toList, .driver, 0, false⟩ .nil
    (.node ⟨1, "l".toList, .softlink "/no".toList, 0, false⟩ .nil .nil), 2⟩

/-- The path `/` becomes a node without a name, a path over the broken link becomes a node beside
the link at the wrong place, and a directory stays when the memory runs out. -/
theorem reserve_breaks_map :
    (∃ s, inodeReserve (fun _ => true) true 1 .empty "/".toList = some (OK, some 0, s) ∧
      s.root.inodes.map Inode.name = [[]]) ∧
    (∃ s, inodeReserve (fun _ => true) true 2 brokenLink "/l/x".toList = some (OK, some 2, s) ∧
      s.root.siblingNames = ["a".toList, "x".toList, "l".toList]) ∧
    (∃ s, inodeReserve (fun n => n = 0) true 1 .empty "/d/e".toList = some (-ENOMEM, none, s) ∧
      s.root.inodes.map Inode.name = ["d".toList]) :=
  ⟨⟨_, rfl, rfl⟩, ⟨_, rfl, rfl⟩, ⟨_, rfl, rfl⟩⟩

end BaseNx.Fs
