import BaseNx.Fs.PathOperations
import BaseNx.Lib.MachineInt

/-!
# References to inodes

`inode_find`, `inode_addref`, `inode_release` and `inode_remove` as steps on the tree, on the inodes
that were taken out of it, and on the memory. Each stretch under the inode semaphore is one step. An
`inode_release` that finds the last reference to a removed inode gone frees the inode after it gave
the semaphore back, so the free is a step of its own. Every call of `kmm_free` is recorded with the
reference count, the references really held, and whether the inode was still linked.

`inode_free` frees a whole subtree, but only the count of its topmost inode was looked at. With that
count zero and no reference to any inode below, nothing that is in use is freed
(`referenced_inodes_stay`).
-/

namespace BaseNx.Fs

open Lib List
open Function (update update_apply update_of_ne update_self)

/-! ## The functions of the source -/

/-- A call of `kmm_free` for an inode. -/
structure FreeCall where
  ino : InodeId
  crefs : Int
  held : Nat
  linked : Bool
  deriving DecidableEq

/-- The tree and what is beside it. -/
structure RefState where
  root : Forest
  /-- the trees unlinked while their topmost inode was in use -/
  removed : List Forest
  /-- the trees that a releasing thread is about to pass to `inode_free` -/
  doomed : List Forest
  /-- the inodes that an unlink over a link to a mountpoint left behind, linked to nothing -/
  stray : List Inode
  freed : List FreeCall
  /-- the references that the callers hold -/
  held : InodeId → Nat
  /-- the inodes that `inode_remove` found in use -/
  busy : List InodeId

/-- `inode->i_crefs++` -/
def Inode.addCref (i : Inode) : Inode := { i with crefs := i16 (i.crefs + 1) }

/-- "Decrement the references of the inode" -/
def Inode.dropCref (i : Inode) : Inode :=
  if i.crefs ≠ 0 then { i with crefs := i16 (i.crefs - 1) } else i

variable (ino : InodeId) (s : RefState)

/-- A change to an inode in a list. -/
def modifyInode (g : Inode → Inode) (l : List Inode) : List Inode :=
  l.map fun i => if i.ino = ino then g i else i

/-- A write through a pointer to an inode, wherever the inode is. -/
def RefState.write (s : RefState) (ino : InodeId) (g : Inode → Inode) : RefState :=
  { s with
    root := s.root.modify ino g
    removed := s.removed.map (·.modify ino g)
    stray := modifyInode ino g s.stray }

/-- The inode is allocated and no thread is about to free it. -/
def RefState.Has (s : RefState) (ino : InodeId) : Prop :=
  ino ∈ s.root.inos ∨ (∃ t ∈ s.removed, ino ∈ t.inos) ∨ ino ∈ s.stray.map Inode.ino

instance RefState.decidableHas (s : RefState) (ino : InodeId) : Decidable (s.Has ino) :=
  inferInstanceAs (Decidable (_ ∨ _ ∨ _))

/-- `inode_addref`; `none` is a write to memory that was given back. -/
def inodeAddref : Option RefState :=
  if s.Has ino then
    some { s.write ino Inode.addCref with held := update s.held ino (s.held ino + 1) }
  else none

/-- `inode_find` -/
def inodeFind (nofollow memory : Bool) (depth : Nat) (path : Path) (s : RefState) :
    Option RefState :=
  match inodeSearch s.root memory depth (.setup path nofollow) with
  | none => none
  | some (ret, desc) =>
    if 0 ≤ ret then
      match desc.node.inode? with
      | none => none
      | some i => inodeAddref i.ino s
    else some s

/-- The topmost inode of a removed tree is the one given and has to be freed: "If the subtree was
previously deleted and the reference count has decrement to zero, then delete the inode now." -/
def lastRelease (t : Forest) : Bool :=
  match t.inode? with
  | none => false
  | some i => decide (i.ino = ino ∧ i.crefs ≤ 0 ∧ i.deleted = true)

/-- `inode_release` up to its `inode_semgive`; `FSNODEFLAG_DELETED` is set in removed inodes
only. -/
def inodeRelease : Option RefState :=
  if s.Has ino then
    let s := { s.write ino Inode.dropCref with
      held := update s.held ino (s.held ino - 1) }
    some { s with
      removed := s.removed.filter (fun t => !lastRelease ino t)
      doomed := s.removed.filter (lastRelease ino) ++ s.doomed }
  else none

/-- The inodes in the order in which `inode_free` frees them. -/
def freeOrder : Forest → List Inode
  | .nil => []
  | .node i c p => freeOrder p ++ freeOrder c ++ [i]

/-- `inode_free` -/
def RefState.inodeFree (t : Forest) (s : RefState) : RefState :=
  { s with
    freed := s.freed ++ (freeOrder t).map fun i =>
      ⟨i.ino, i.crefs, s.held i.ino, decide (i.ino ∈ s.root.inos)⟩ }

/-- The end of `inode_release`: `inode_free` of a tree that was found to have no reference left. -/
def releaseFree : RefState :=
  match s.doomed.find? (fun t => decide (ino ∈ t.inos)) with
  | none => s
  | some t => { s with doomed := s.doomed.erase t }.inodeFree t

/-- The inodes of `root` that neither the node unlinked nor the new tree has. -/
def leftBehind (root node root' : Forest) : List Inode :=
  root.inodes.filter fun i => decide (i.ino ∉ node.inos ∧ i.ino ∉ root'.inos)

/-- `inode_remove` -/
def inodeRemove (memory : Bool) (depth : Nat) (path : Path) (s : RefState) :
    Option (Int × RefState) :=
  match inodeUnlink memory depth s.root path with
  | none => none
  | some (node, root) =>
    let s := { s with
      root := root
      stray := s.stray ++ leftBehind s.root node root }
    match node with
    | .nil => some (-ENOENT, s)
    | .node i c p =>
      if i.crefs ≠ 0 then
        some (-EBUSY, { s with
          removed := .node { i with deleted := true } c p :: s.removed
          busy := i.ino :: s.busy })
      else some (OK, s.inodeFree (.node i c p))

/-! ## Where a search ends -/

/-- The node of a descriptor is a node of the tree. -/
def Placed (root : Forest) (desc : Desc) : Prop :=
  ∃ loc i c p, root.nodeAt loc = .node i c p ∧ desc.node = .node i c p

/-- The descriptor has the node with the inodes that link to it, or, for a mountpoint behind a link,
without them. -/
inductive LinkedAt (root : Forest) (desc : Desc) : Prop
  | sibling {dir : Loc} {c : Path} {i : Inode} {child next : Forest} (isDir : root.IsDir dir)
      (node : (root.dirAt dir).sibling c = .node i child next)
      (result : desc.node = .node i child next)
      (peer : desc.peer = (root.dirAt dir).leftOf c none) (parent : desc.parent = root.inoAt dir)
  | mount {loc : Loc} {i : Inode} {child next : Forest}
      (node : root.nodeAt loc = .node i child next)
      (result : desc.node = .node i child next) (peer : desc.peer = none)
      (parent : desc.parent = none)

section Search

variable {root : Forest} {memory : Bool} {depth : Nat} {path : Path} {nofollow : Bool} {ret : Int}
  {desc : Desc}

theorem LinkedAt.placed (h : LinkedAt root desc) : Placed root desc := by
  cases h with
  | @sibling dir c i child next isDir node result peer parent =>
    exact ⟨dir ++ [c], i, child, next, by rw [Forest.nodeAt_concat, node], result⟩
  | @mount loc i child next node result peer parent => exact ⟨loc, i, child, next, node, result⟩

section

variable (hw : WellFormed root) (hret : 0 ≤ ret)
include hw hret

theorem inodeSearchAt_linkedAt {start : Desc}
    (h : inodeSearchAt root depth start = some (ret, desc)) : LinkedAt root desc := by
  cases depth with
  | zero => nomatch h
  | succ depth =>
    rcases inodeSearchAt_end hw (fun p f => (resolveAt_ok_iff hw depth p f).mp) h with
      ⟨hneg, -⟩ | ⟨-, pre, name, rest, linked, dir, -, trail, stop⟩
    · exact absurd hneg (not_lt.mpr hret)
    cases stop with
    | missing absent error => exact absurd error (not_lt.mpr hret)
    | dangling node isLink middle lost error => exact absurd error (not_lt.mpr hret)
    | found node last ok result peer parent =>
      obtain ⟨child, next, hs⟩ := Forest.sibling_of_atLoc node
      refine .sibling (trail.isDir (Or.inl rfl)) hs ?_ peer parent
      rw [result, Forest.nodeAt_concat, hs]
    | mount node isLink middle hops goal isMount ok result peer parent =>
      obtain ⟨c, p, hn⟩ := Forest.nodeAt_of_atLoc goal
      exact .mount hn (result.trans hn) peer parent

theorem followMountpt_linkedAt {d : Desc} {r : Int}
    {P : Desc → Prop} (hP : ∀ desc, LinkedAt root desc → P desc) (hd : P d)
    (h : followMountpt root memory depth r d = some (ret, desc)) : P desc := by
  unfold followMountpt at h
  split at h
  · cases h
    exact hd
  · split_ifs at h
    · exact hP desc (inodeSearchAt_linkedAt hw hret h)
    · cases h
      exact absurd hret (by decide)
    · cases h
      exact hd

theorem inodeSearch_linkedAt
    (h : inodeSearch root memory depth (.setup path true) = some (ret, desc)) :
    LinkedAt root desc := by
  unfold inodeSearch at h
  split at h
  · cases h
  · next r d hsearch =>
    split_ifs at h with hneg
    · cases h
      exact absurd hneg (not_lt.mpr hret)
    · have hlinked := inodeSearchAt_linkedAt hw (not_lt.mp hneg) hsearch
      have hflag : d.nofollow = true := inodeSearchAt_nofollow hsearch
      have hterm : followTerminal root depth r d = some (false, r, d) := by
        simp [followTerminal, hflag]
      rw [hterm] at h
      exact followMountpt_linkedAt hw hret (fun _ h => h) hlinked h

/-- Every search that succeeds ends with a node of the tree. -/
theorem inodeSearch_placed
    (h : inodeSearch root memory depth (.setup path nofollow) = some (ret, desc)) :
    Placed root desc := by
  unfold inodeSearch at h
  split at h
  · cases h
  · next r d hsearch =>
    split_ifs at h with hneg
    · cases h
      exact absurd hneg (not_lt.mpr hret)
    · have hplaced := (inodeSearchAt_linkedAt hw (not_lt.mp hneg) hsearch).placed
      obtain ⟨loc, i, c, p, hn, hd⟩ := hplaced
      have hnode : root.atLoc loc = some i := by rw [Forest.atLoc, hn]; rfl
      split at h
      · cases h
      · next r' d' hterm =>
        cases h
        rcases followTerminal_cases hw hnode (hd.trans hn.symm) hterm with
          ⟨-, heq⟩ | ⟨link, -, -, ⟨-, hneg', -⟩ | ⟨hstop, -⟩⟩
        · cases heq
        · exact absurd hneg' (not_lt.mpr hret)
        · cases hstop
      · next r' d' hterm =>
        refine followMountpt_linkedAt hw hret (fun _ h => h.placed) ?_ h
        rcases followTerminal_cases hw hnode (hd.trans hn.symm) hterm with
          ⟨-, heq⟩ | ⟨link, -, -, ⟨hstop, -⟩ | ⟨-, -, target, hops, hres⟩⟩
        · cases heq
          exact ⟨loc, i, c, p, hn, hd⟩
        · cases hstop
        · obtain ⟨j, goal, -⟩ := hops.exists_node
          obtain ⟨c', p', hn'⟩ := Forest.nodeAt_of_atLoc goal
          exact ⟨target, j, c', p', hn', hres.trans hn'⟩

end

end Search

/-! ## Taking a node out -/

variable {f : Forest}

section Unlink

variable {root root' node : Forest} {memory : Bool} {depth : Nat} {path : Path}

theorem Forest.nodeAt_inodes (f : Forest) (loc : Loc) : (f.nodeAt loc).inodes.Sublist f.inodes := by
  rcases eq_nil_or_concat loc with rfl | ⟨dir, c, rfl⟩
  · exact nil_sublist _
  · rw [concat_eq_append, Forest.nodeAt_concat]
    exact (Forest.sibling_inodes c _).trans (Forest.dirAt_inodes f dir)

theorem Forest.Sorted.nodeAt (h : f.Sorted) (loc : Loc) : (f.nodeAt loc).Sorted := by
  rcases eq_nil_or_concat loc with rfl | ⟨dir, c, rfl⟩
  · exact trivial
  · rw [concat_eq_append, Forest.nodeAt_concat]
    exact (h.dirAt dir).sibling c

theorem inodeUnlink_split (hw : WellFormed root)
    (h : inodeUnlink memory depth root path = some (node, root')) :
    (node = .nil ∧ root' = root) ∨
    ∃ i c, node = .node i c .nil ∧ WellFormed root' ∧
      (node.inodes ++ root'.inodes).Subperm root.inodes := by
  unfold inodeUnlink at h
  split_ifs at h with habs
  · cases h
    exact Or.inl ⟨rfl, rfl⟩
  split at h
  · cases h
  · next ret desc hsearch =>
    split_ifs at h with hret
    · right
      cases inodeSearch_linkedAt hw hret hsearch with
      | sibling isDir hnode result peer parent =>
        rw [result, peer, parent] at h
        simp only [takeOut_eq hw.sorted hw.nodup isDir hnode] at h
        cases h
        exact ⟨_, _, rfl, hw.remove isDir hnode, (inodes_remove isDir hnode).symm.subperm⟩
      | @mount loc i child next hnode result peer parent =>
        -- no inode that links to the node is known: the root is set to its peers
        rw [result, peer, parent] at h
        cases h
        have hsub := Forest.nodeAt_inodes root loc
        have hsorted := hw.sorted.nodeAt loc
        rw [hnode] at hsub hsorted
        have hpeers : next.inodes.Sublist root.inodes :=
          (((sublist_append_right child.inodes next.inodes).cons i)).trans hsub
        refine ⟨i, child, rfl, ⟨hsorted.2.2, ?_, ?_⟩, ?_⟩
        · exact fun j hj => hw.named j (hpeers.subset hj)
        · exact hw.nodup.sublist (hpeers.map Inode.ino)
        · show ((i :: (child.inodes ++ [])) ++ next.inodes).Subperm root.inodes
          rw [append_nil]
          exact hsub.subperm
    · cases h
      exact Or.inl ⟨rfl, rfl⟩

theorem count_split (hsub : (node.inodes ++ root'.inodes).Subperm root.inodes) (n : InodeId) :
    let parts := node.inos.count n + root'.inos.count n +
      ((leftBehind root node root').map Inode.ino).count n
    parts ≤ root.inos.count n ∧ (0 < root.inos.count n → 0 < parts) := by
  intro parts
  have hparts : node.inos.count n + root'.inos.count n ≤ root.inos.count n := by
    obtain ⟨l, hperm, hsub⟩ := hsub
    have hcount := (hperm.map Inode.ino).count_eq n
    rw [map_append, count_append] at hcount
    exact hcount.symm.le.trans ((hsub.map Inode.ino).count_le n)
  by_cases hmem : n ∈ node.inos ∨ n ∈ root'.inos
  · have hnone : n ∉ (leftBehind root node root').map Inode.ino := by
      simp only [leftBehind, mem_map, mem_filter, decide_eq_true_eq]
      rintro ⟨i, ⟨-, h1, h2⟩, rfl⟩
      exact hmem.elim h1 h2
    have hsome : 0 < node.inos.count n + root'.inos.count n := by
      rwa [Nat.add_pos_iff_pos_or_pos, count_pos_iff, count_pos_iff]
    simp only [parts, count_eq_zero_of_not_mem hnone]
    exact ⟨hparts, fun _ => hsome⟩
  · obtain ⟨h1, h2⟩ := not_or.1 hmem
    simp only [parts, count_eq_zero_of_not_mem h1, count_eq_zero_of_not_mem h2, Nat.zero_add]
    refine ⟨(filter_sublist.map Inode.ino).count_le n, fun hpos => ?_⟩
    obtain ⟨i, hi, rfl⟩ := mem_map.1 (count_pos_iff.1 hpos)
    exact count_pos_iff.2 (mem_map_of_mem (mem_filter.2 ⟨hi, by simp [h1, h2]⟩))

end Unlink

/-! ## Writing to an inode -/

section Write

variable {ino : InodeId} {g : Inode → Inode}

theorem modifyInode_of_notMem {l : List Inode} (h : ino ∉ l.map Inode.ino) :
    modifyInode ino g l = l := by
  refine (map_congr_left ?_).trans (map_id l)
  intro i hi
  rw [if_neg]
  · rfl
  · rintro rfl
    exact h (mem_map_of_mem hi)

theorem inodes_modify (hn : f.inos.Nodup) :
    (f.modify ino g).inodes = modifyInode ino g f.inodes := by
  induction f with
  | nil => rfl
  | node i child peer ihc ihp =>
    obtain ⟨hc, hp, hic, hip, -⟩ := Forest.nodup_node hn
    have hcons : modifyInode ino g (Forest.node i child peer).inodes =
        (if i.ino = ino then g i else i) ::
          (modifyInode ino g child.inodes ++ modifyInode ino g peer.inodes) := by
      simp [modifyInode, Forest.inodes]
    rw [hcons]
    unfold Forest.modify at ihc ihp ⊢
    rw [Forest.edit]
    split_ifs with hi
    · subst hi
      rw [modifyInode_of_notMem hic, modifyInode_of_notMem hip]
      rfl
    · rw [Forest.inodes, ihc hc, ihp hp]

theorem Forest.inode?_modify (f : Forest) :
    (f.modify ino g).inode? = f.inode?.map fun i => if i.ino = ino then g i else i := by
  cases f with
  | nil => rfl
  | node i c p =>
    unfold Forest.modify
    rw [Forest.edit]
    split_ifs with hi
    · simp [Forest.inode?, hi]
    · simp [Forest.inode?, hi]

end Write

/-! ## The books -/

/-- Nobody refers to an inode of the tree. -/
def Quiet (held : InodeId → Nat) (f : Forest) : Prop :=
  ∀ j ∈ f.inodes, j.crefs = 0 ∧ held j.ino = 0

/-- How often an inode is in the tree, in a removed tree, or left behind. -/
def RefState.alive (s : RefState) (n : InodeId) : Nat :=
  s.root.inos.count n + (s.removed.flatMap Forest.inos).count n + (s.stray.map Inode.ino).count n

/-- How often an inode is about to be freed, or was freed. -/
def RefState.dying (s : RefState) (n : InodeId) : Nat :=
  (s.doomed.flatMap Forest.inos).count n + (s.freed.map FreeCall.ino).count n

/-- Counts are the references held, and below the topmost inode of a removed tree there are none. -/
structure Booked (s : RefState) : Prop where
  wellFormed : WellFormed s.root
  once : ∀ n, s.alive n + s.dying n ≤ 1
  counts : ∀ i ∈ s.root.inodes ++ s.stray, i.crefs = s.held i.ino ∧ i.deleted = false
  removed : ∀ t ∈ s.removed, ∃ i c, t = .node i c .nil ∧ i.deleted = true ∧
    i.crefs = s.held i.ino ∧ Quiet s.held c
  doomed : ∀ t ∈ s.doomed, Quiet s.held t
  holders : ∀ n, 0 < s.held n → 0 < s.alive n
  bound : ∀ n, s.held n ≤ 32767
  freed : ∀ f ∈ s.freed, f.crefs = 0 ∧ f.held = 0 ∧ f.linked = false
  busy : ∀ n ∈ s.busy, (∃ t ∈ s.removed, ∃ i, t.inode? = some i ∧ i.ino = n) ∨ 0 < s.dying n

/-- The books of a state outside `inode_release`: a removed tree is still in use. -/
structure Sound (s : RefState) : Prop extends Booked s where
  inUse : ∀ t ∈ s.removed, ∀ i, t.inode? = some i → 0 < s.held i.ino

variable {t : Forest}

section Books

variable {s : RefState} {ino n : InodeId} {g : Inode → Inode}

theorem RefState.has_iff : s.Has n ↔ 0 < s.alive n := by
  simp only [RefState.Has, RefState.alive, Nat.add_pos_iff_pos_or_pos, count_pos_iff, mem_flatMap,
    or_assoc]

theorem RefState.dying_iff :
    0 < s.dying n ↔ n ∈ s.freed.map FreeCall.ino ∨ ∃ t ∈ s.doomed, n ∈ t.inos := by
  simp only [RefState.dying, Nat.add_pos_iff_pos_or_pos, count_pos_iff, mem_flatMap, or_comm]

theorem Booked.notMem_quiet (h : Booked s) (huse : 0 < s.held ino ∨ ino ∈ s.root.inos)
    (hf : Quiet s.held f)
    (hin : f.inos ⊆ s.removed.flatMap Forest.inos ∨ f.inos ⊆ s.doomed.flatMap Forest.inos) :
    ino ∉ f.inos := by
  intro hmem
  rcases huse with hheld | hroot
  · obtain ⟨j, hj, rfl⟩ := mem_map.1 hmem
    have := (hf j hj).2
    omega
  · have hle := h.once ino
    have hr := count_pos_iff.2 hroot
    simp only [RefState.alive, RefState.dying] at hle
    rcases hin with hsub | hsub
    · have := count_pos_iff.2 (hsub hmem)
      omega
    · have := count_pos_iff.2 (hsub hmem)
      omega

theorem Quiet.congr {held held' : InodeId → Nat} (h : Quiet held f)
    (hsame : ∀ n ∈ f.inos, held' n = held n) : Quiet held' f := by
  intro j hj
  rw [hsame j.ino (mem_map_of_mem hj)]
  exact h j hj

theorem mem_flatMap_inos {l : List Forest} (ht : t ∈ l) : t.inos ⊆ l.flatMap Forest.inos :=
  fun _ hn => mem_flatMap.2 ⟨t, ht, hn⟩

section

variable (hg : ∀ i, (g i).ino = i.ino ∧ (g i).name = i.name)
include hg

theorem map_ino_modifyInode (l : List Inode) :
    (modifyInode ino g l).map Inode.ino = l.map Inode.ino := by
  unfold modifyInode
  rw [map_map]
  refine map_congr_left fun i _ => ?_
  show (if i.ino = ino then g i else i).ino = i.ino
  split
  · exact (hg i).1
  · rfl

theorem RefState.alive_write (s : RefState) (ino : InodeId) :
    (s.write ino g).alive n = s.alive n := by
  have hremoved : (s.removed.map (·.modify ino g)).flatMap Forest.inos =
      s.removed.flatMap Forest.inos := by
    rw [flatMap_map]
    exact flatMap_congr fun t _ => inos_modify hg ino t
  simp only [RefState.alive, RefState.write, hremoved, inos_modify hg, map_ino_modifyInode hg]

end

/-- A write to one inode, with the references to it brought in line, keeps the books. -/
theorem Booked.write (h : Booked s) (hg : ∀ i, (g i).ino = i.ino ∧ (g i).name = i.name)
    (hdel : ∀ i, (g i).deleted = i.deleted) (held : InodeId → Nat)
    (hother : ∀ n, n ≠ ino → held n = s.held n)
    (hcount : ∀ i : Inode, i.crefs = s.held ino → (g i).crefs = held ino)
    (huse : 0 < s.held ino ∨ ino ∈ s.root.inos) (hbound : held ino ≤ 32767) :
    Booked { s.write ino g with held := held } := by
  -- the clause of the counts, for an inode and its image
  have himage : ∀ i : Inode, i.crefs = s.held i.ino ∧ i.deleted = false →
      (if i.ino = ino then g i else i).crefs = held (if i.ino = ino then g i else i).ino ∧
        (if i.ino = ino then g i else i).deleted = false := by
    intro i hi
    split
    · next heq =>
      subst heq
      rw [(hg i).1, hdel]
      exact ⟨hcount i hi.1, hi.2⟩
    · next hne =>
      rw [hother _ hne]
      exact hi
  have hquiet : ∀ f : Forest, Quiet s.held f →
      (f.inos ⊆ s.removed.flatMap Forest.inos ∨ f.inos ⊆ s.doomed.flatMap Forest.inos) →
      ino ∉ f.inos ∧ Quiet held f := by
    intro f hf hin
    have hnot := h.notMem_quiet huse hf hin
    exact ⟨hnot, hf.congr fun n hn => hother n fun heq => hnot (heq ▸ hn)⟩
  refine ⟨h.wellFormed.modify hg ino, ?_, ?_, ?_, ?_, ?_, ?_, h.freed, ?_⟩
  · intro n
    show (s.write ino g).alive n + s.dying n ≤ 1
    rw [RefState.alive_write hg]
    exact h.once n
  · intro i hi
    have hmem : i ∈ modifyInode ino g (s.root.inodes ++ s.stray) := by
      simp only [RefState.write, inodes_modify h.wellFormed.nodup] at hi
      rwa [modifyInode, map_append]
    obtain ⟨j, hj, rfl⟩ := mem_map.1 hmem
    exact himage j (h.counts j hj)
  · intro t ht
    obtain ⟨t, htm, rfl⟩ := mem_map.1 ht
    obtain ⟨i, c, rfl, hd, hi, hc⟩ := h.removed t htm
    have hsub : c.inos ⊆ s.removed.flatMap Forest.inos := by
      refine fun n hn => mem_flatMap_inos htm ?_
      simp [hn]
    obtain ⟨hnot, hc'⟩ := hquiet c hc (Or.inl hsub)
    show ∃ i' c', Forest.edit ino _ (.node i c .nil) = _ ∧ _
    rw [Forest.edit]
    split
    · next heq =>
      subst heq
      refine ⟨g i, c, rfl, by rw [hdel, hd], ?_, hc'⟩
      rw [(hg i).1]
      exact hcount i hi
    · next hne =>
      have hcrefs : i.crefs = held i.ino := hi.trans (congrArg Nat.cast (hother _ hne).symm)
      refine ⟨i, c, ?_, hd, hcrefs, hc'⟩
      rw [Forest.edit_of_notMem _ hnot]
      rfl
  · intro t ht
    exact (hquiet t (h.doomed t ht) (Or.inr (mem_flatMap_inos ht))).2
  · intro n hn
    show 0 < (s.write ino g).alive n
    rw [RefState.alive_write hg]
    by_cases hni : n = ino
    · rw [hni]
      exact huse.elim (h.holders ino) fun hroot => RefState.has_iff.1 (Or.inl hroot)
    · exact h.holders n (by rw [← hother n hni]; exact hn)
  · intro n
    by_cases hni : n = ino
    · rw [hni]
      exact hbound
    · exact (hother n hni).le.trans (h.bound n)
  · intro n hn
    rcases h.busy n hn with ⟨t, ht, i, hti, hin⟩ | hrest
    · refine Or.inl ⟨t.modify ino g, mem_map_of_mem ht, if i.ino = ino then g i else i,
        by rw [Forest.inode?_modify, hti]; rfl, ?_⟩
      split
      · exact (hg i).1.trans hin
      · exact hin
    · exact Or.inr hrest

theorem Sound.stillInUse (h : Sound s) (hg : ∀ i, (g i).ino = i.ino ∧ (g i).name = i.name) :
    ∀ t ∈ s.removed.map (·.modify ino g), ∀ i, t.inode? = some i → i.ino ≠ ino →
      0 < s.held i.ino := by
  intro t ht i hi hne
  obtain ⟨t, htm, rfl⟩ := mem_map.1 ht
  rw [Forest.inode?_modify] at hi
  obtain ⟨j, hj, rfl⟩ := Option.map_eq_some_iff.1 hi
  split at hne
  · next heq => exact absurd ((hg j).1.trans heq) hne
  · next hji =>
    rw [if_neg hji]
    exact h.inUse t htm j hj

end Books

/-! ## The steps -/

variable {path : Path} {depth : Nat} {memory : Bool} {root : Forest} {ret : Int}

section Steps

variable {s s' : RefState} {ino n : InodeId}

theorem Inode.addCref_label (i : Inode) : i.addCref.ino = i.ino ∧ i.addCref.name = i.name :=
  ⟨rfl, rfl⟩

theorem Inode.dropCref_label (i : Inode) : i.dropCref.ino = i.ino ∧ i.dropCref.name = i.name := by
  unfold Inode.dropCref
  split
  · exact ⟨rfl, rfl⟩
  · exact ⟨rfl, rfl⟩

/-- `inode_addref`, by a holder or for an inode just found in the tree. -/
theorem inodeAddref_sound (h : Sound s) (huse : 0 < s.held ino ∨ ino ∈ s.root.inos)
    (hlt : s.held ino < 32767) (hs : inodeAddref ino s = some s') : Sound s' := by
  have hhas : s.Has ino := huse.elim (fun hn => RefState.has_iff.2 (h.holders ino hn)) Or.inl
  rw [inodeAddref, if_pos hhas] at hs
  obtain rfl := Option.some.inj hs
  have hbooked := h.toBooked.write Inode.addCref_label (fun _ => rfl)
    (update s.held ino (s.held ino + 1)) (fun n hn => update_of_ne hn _ _)
    (fun i hi => by
      rw [update_self]
      show i16 (i.crefs + 1) = _
      rw [hi, i16_eq_self (by omega) (by omega)]
      rfl) huse (by rw [update_self]; omega)
  refine ⟨hbooked, ?_⟩
  intro t ht i hi
  show 0 < update s.held ino (s.held ino + 1) i.ino
  rw [update_apply]
  split
  · omega
  · next hne => exact h.stillInUse Inode.addCref_label t ht i hi hne

theorem inodeFind_sound (h : Sound s) {nofollow : Bool}
    (hlt : ∀ i ∈ s.root.inodes, s.held i.ino < 32767)
    (hs : inodeFind nofollow memory depth path s = some s') : Sound s' := by
  unfold inodeFind at hs
  split at hs
  · cases hs
  · next ret desc hsearch =>
    split_ifs at hs with hret
    · obtain ⟨loc, i, c, p, hn, hd⟩ := inodeSearch_placed h.wellFormed hret hsearch
      have hmem : i ∈ s.root.inodes := by
        refine (Forest.nodeAt_inodes s.root loc).subset ?_
        rw [hn]
        exact mem_cons_self
      rw [hd] at hs
      exact inodeAddref_sound h (Or.inr (mem_map_of_mem hmem)) (hlt i hmem) hs
    · obtain rfl := Option.some.inj hs
      exact h

theorem count_filter_flatMap (q : Forest → Bool) (l : List Forest) (n : InodeId) :
    ((l.filter (fun t => !q t)).flatMap Forest.inos).count n +
      ((l.filter q).flatMap Forest.inos).count n = (l.flatMap Forest.inos).count n := by
  induction l with
  | nil => rfl
  | cons t l ih =>
    by_cases hq : q t = true
    · simp only [filter_cons, hq, Bool.not_true, Bool.false_eq_true, if_false, if_true,
        flatMap_cons, count_append]
      omega
    · simp only [filter_cons, hq, Bool.not_false, Bool.false_eq_true, if_false, if_true,
        flatMap_cons, count_append]
      omega

/-- `inode_release`, by a holder: the last reference to a removed inode dooms its tree. -/
theorem inodeRelease_sound (h : Sound s) (huse : 0 < s.held ino)
    (hs : inodeRelease ino s = some s') : Sound s' := by
  rw [inodeRelease, if_pos (RefState.has_iff.2 (h.holders ino huse))] at hs
  obtain rfl := Option.some.inj hs
  have hdel : ∀ i : Inode, i.dropCref.deleted = i.deleted := by
    intro i
    unfold Inode.dropCref
    split
    · rfl
    · rfl
  have hbound := h.bound ino
  have hdrop : ∀ i : Inode, i.crefs = s.held ino →
      i.dropCref.crefs = (update s.held ino (s.held ino - 1) ino : Nat) := by
    intro i hi
    rw [update_self, Inode.dropCref, if_pos (by omega)]
    show i16 (i.crefs - 1) = _
    rw [hi, i16_eq_self (by omega) (by omega)]
    omega
  have hb := h.toBooked.write Inode.dropCref_label hdel
    (update s.held ino (s.held ino - 1)) (fun n hn => update_of_ne hn _ _) hdrop
    (Or.inl huse) (by rw [update_self]; omega)
  -- who is still in use after the write: all but, perhaps, the inode released
  have hstill : ∀ t ∈ s.removed.map (·.modify ino Inode.dropCref), ∀ i, t.inode? = some i →
      i.ino ≠ ino → 0 < s.held i.ino := h.stillInUse Inode.dropCref_label
  generalize hw : ({ s.write ino Inode.dropCref with
    held := update s.held ino (s.held ino - 1) } : RefState) = w at hb ⊢
  have hheld : w.held = update s.held ino (s.held ino - 1) := by rw [← hw]
  have hremoved : w.removed = s.removed.map (·.modify ino Inode.dropCref) := by rw [← hw]; rfl
  have hquiet : ∀ t ∈ w.removed, lastRelease ino t = true → Quiet w.held t := by
    intro t ht hlast
    obtain ⟨i, c, rfl, -, hi, hc⟩ := hb.removed t ht
    simp only [lastRelease, Forest.inode?, decide_eq_true_eq] at hlast
    intro j hj
    have hj' : j = i ∨ j ∈ c.inodes := by simpa [Forest.inodes] using hj
    rcases hj' with rfl | hj'
    · omega
    · exact hc j hj'
  refine ⟨⟨hb.wellFormed, ?_, hb.counts, ?_, ?_, ?_, hb.bound, hb.freed, ?_⟩, ?_⟩
  · intro n
    have hle := hb.once n
    have hsplit := count_filter_flatMap (lastRelease ino) w.removed n
    simp only [RefState.alive, RefState.dying, flatMap_append, count_append] at hle ⊢
    omega
  · exact fun t ht => hb.removed t (mem_of_mem_filter ht)
  · intro t ht
    rcases mem_append.1 ht with ht | ht
    · obtain ⟨htm, hlast⟩ := mem_filter.1 ht
      exact hquiet t htm hlast
    · exact hb.doomed t ht
  · intro n hn
    -- a doomed tree is quiet, and has no inode that is in use
    have hzero : ((w.removed.filter (lastRelease ino)).flatMap Forest.inos).count n = 0 := by
      refine count_eq_zero.2 fun hmem => ?_
      obtain ⟨t, ht, hnt⟩ := mem_flatMap.1 hmem
      obtain ⟨htm, hlast⟩ := mem_filter.1 ht
      obtain ⟨j, hj, rfl⟩ := mem_map.1 hnt
      exact hn.ne' (hquiet t htm hlast j hj).2
    have hpos := hb.holders n hn
    have hsplit := count_filter_flatMap (lastRelease ino) w.removed n
    simp only [RefState.alive] at hpos ⊢
    omega
  · intro n hn
    rcases hb.busy n hn with ⟨t, ht, i, hti, hin⟩ | hdying
    · by_cases hlast : lastRelease ino t = true
      · refine Or.inr (RefState.dying_iff.2 (Or.inr
          ⟨t, mem_append_left _ (mem_filter.2 ⟨ht, hlast⟩), ?_⟩))
        obtain ⟨j, c, rfl, -⟩ := hb.removed t ht
        obtain rfl := Option.some.inj hti
        simp [← hin]
      · exact Or.inl ⟨t, mem_filter.2 ⟨ht, by simpa using hlast⟩, i, hti, hin⟩
    · right
      simp only [RefState.dying, flatMap_append, count_append] at hdying ⊢
      omega
  · intro t ht i hti
    obtain ⟨htm, hlast⟩ := mem_filter.1 ht
    obtain ⟨j, c, rfl, hd, hj, -⟩ := hb.removed t htm
    obtain rfl := Option.some.inj hti
    by_cases hji : j.ino = ino
    · simp only [lastRelease, Forest.inode?, hd, hji, Bool.not_eq_true', decide_eq_false_iff_not,
        not_le, and_true, true_and] at hlast
      show 0 < w.held j.ino
      omega
    · rw [hheld, update_of_ne hji]
      exact hstill _ (hremoved ▸ htm) j rfl hji

/-! ### Freeing -/

theorem freeOrder_perm (t : Forest) : (freeOrder t).Perm t.inodes := by
  induction t with
  | nil => exact .nil
  | node i c p ihc ihp =>
    refine (perm_append_singleton i _).trans (List.Perm.cons i ?_)
    exact perm_append_comm.trans (ihc.append ihp)

/-- The inodes of a quiet tree that is linked nowhere are freed in good order. -/
theorem freed_inodeFree (hfreed : ∀ f ∈ s.freed, f.crefs = 0 ∧ f.held = 0 ∧ f.linked = false)
    (ht : Quiet s.held t) (hout : ∀ n ∈ t.inos, n ∉ s.root.inos) :
    ∀ f ∈ (s.inodeFree t).freed, f.crefs = 0 ∧ f.held = 0 ∧ f.linked = false := by
  intro f hf
  rcases mem_append.1 hf with hf | hf
  · exact hfreed f hf
  · obtain ⟨i, hi, rfl⟩ := mem_map.1 hf
    have hmem := (freeOrder_perm t).mem_iff.1 hi
    obtain ⟨hc, hh⟩ := ht i hmem
    exact ⟨hc, hh, decide_eq_false (hout i.ino (mem_map_of_mem hmem))⟩

theorem dying_inodeFree (t : Forest) (s : RefState) (n : InodeId) :
    (s.inodeFree t).dying n = s.dying n + t.inos.count n := by
  have hmap : ((freeOrder t).map fun i =>
      (⟨i.ino, i.crefs, s.held i.ino, decide (i.ino ∈ s.root.inos)⟩ : FreeCall)).map FreeCall.ino =
        (freeOrder t).map Inode.ino := by
    rw [map_map]
    rfl
  show _ + ((s.freed ++ _).map FreeCall.ino).count n = _
  rw [map_append, count_append, hmap, ((freeOrder_perm t).map Inode.ino).count_eq, ← add_assoc]
  rfl

theorem releaseFree_sound (h : Sound s) : Sound (releaseFree ino s) := by
  unfold releaseFree
  split
  · exact h
  · next t hfind =>
    have ht : t ∈ s.doomed := mem_of_find?_eq_some hfind
    -- what is about to be freed, or was freed, stays the same
    have hdying : ∀ n, ({ s with doomed := s.doomed.erase t }.inodeFree t).dying n = s.dying n := by
      intro n
      have hcount := ((perm_cons_erase ht).flatMap_right Forest.inos).count_eq n
      rw [flatMap_cons, count_append] at hcount
      rw [dying_inodeFree]
      simp only [RefState.dying]
      omega
    have hout : ∀ n ∈ t.inos, n ∉ s.root.inos := fun n hn hroot =>
      h.toBooked.notMem_quiet (Or.inr hroot) (h.doomed t ht) (Or.inr (mem_flatMap_inos ht)) hn
    refine ⟨{ h with once := ?_, doomed := ?_, freed := ?_, busy := ?_ }, h.inUse⟩
    · intro n
      rw [hdying]
      exact h.once n
    · exact fun u hu => h.doomed u (mem_of_mem_erase hu)
    · exact freed_inodeFree (s := { s with doomed := s.doomed.erase t }) h.freed
        (h.doomed t ht) hout
    · intro n hn
      rw [hdying]
      exact h.busy n hn

/-! ### Removing -/

theorem leftBehind_self (root : Forest) : leftBehind root .nil root = [] := by
  refine filter_eq_nil_iff.2 fun i hi => ?_
  have hmem : i.ino ∈ root.inos := mem_map_of_mem hi
  simp [hmem]

/-- The state without the node that was unlinked. -/
def RefState.without (s : RefState) (node root : Forest) : RefState :=
  { s with root := root, stray := s.stray ++ leftBehind s.root node root }

/-- The books without the node that was unlinked; its inodes count as references held say. -/
structure Unlinked (s : RefState) (node root : Forest) : Prop where
  wellFormed : WellFormed root
  counts : ∀ i ∈ root.inodes ++ (s.stray ++ leftBehind s.root node root),
    i.crefs = s.held i.ino ∧ i.deleted = false
  taken : ∀ i ∈ node.inodes, i.crefs = s.held i.ino
  split : ∀ n, node.inos.count n + (s.without node root).alive n ≤ s.alive n ∧
    (0 < s.alive n → 0 < node.inos.count n + (s.without node root).alive n)

theorem Sound.unlinked (h : Sound s) {node : Forest} (hw : WellFormed root)
    (hsub : (node.inodes ++ root.inodes).Subperm s.root.inodes) : Unlinked s node root := by
  have hmem : ∀ i ∈ node.inodes ++ root.inodes, i ∈ s.root.inodes := hsub.subset
  refine ⟨hw, ?_, ?_, ?_⟩
  · intro i hi
    simp only [mem_append] at hi
    rcases hi with hi | hi | hi
    · exact h.counts i (mem_append_left _ (hmem i (mem_append_right _ hi)))
    · exact h.counts i (mem_append_right _ hi)
    · exact h.counts i (mem_append_left _ (mem_of_mem_filter hi))
  · exact fun i hi =>
      (h.counts i (mem_append_left _ (hmem i (mem_append_left _ hi)))).1
  · intro n
    have hsplit := count_split hsub n
    simp only [RefState.alive, RefState.without, map_append, count_append]
    omega

theorem inodeRemove_sound (h : Sound s)
    (hquiet : ∀ node root, inodeUnlink memory depth s.root path = some (node, root) →
      ∀ j ∈ node.child.inodes, j.crefs = 0)
    (hs : inodeRemove memory depth path s = some (ret, s')) : Sound s' := by
  unfold inodeRemove at hs
  split at hs
  · cases hs
  next node root hunlink =>
  rcases inodeUnlink_split h.wellFormed hunlink with ⟨rfl, rfl⟩ | ⟨i, c, rfl, hw, hsub⟩
  · -- there is no such node
    obtain ⟨-, rfl⟩ := Prod.mk.inj (Option.some.inj hs)
    rw [leftBehind_self, append_nil]
    exact h
  have hu := h.unlinked hw hsub
  have hcrefs : i.crefs = s.held i.ino := hu.taken i mem_cons_self
  have hc : Quiet s.held c := by
    intro j hj
    have hj0 := hquiet _ _ hunlink j hj
    have hjh := hu.taken j (by simp [Forest.inodes, hj])
    exact ⟨hj0, by omega⟩
  dsimp only at hs
  split_ifs at hs with hzero
  · -- in use: the tree stays, marked
    obtain ⟨-, rfl⟩ := Prod.mk.inj (Option.some.inj hs)
    let s₁ : RefState := { s.without (.node i c .nil) root with
      removed := .node { i with deleted := true } c .nil :: s.removed, busy := i.ino :: s.busy }
    have halive : ∀ n, s₁.alive n =
        (Forest.node i c .nil).inos.count n + (s.without (.node i c .nil) root).alive n := by
      intro n
      have hinos : (Forest.node { i with deleted := true } c .nil).inos =
          (Forest.node i c .nil).inos := rfl
      simp only [s₁, RefState.alive, flatMap_cons, count_append, hinos]
      dsimp only [RefState.without]
      omega
    show Sound s₁
    refine ⟨⟨hw, ?_, hu.counts, ?_, h.doomed, ?_, h.bound, h.freed, ?_⟩, ?_⟩
    · intro n
      rw [halive]
      exact (Nat.add_le_add_right (hu.split n).1 _).trans (h.once n)
    · exact forall_mem_cons.2 ⟨⟨_, c, rfl, rfl, hcrefs, hc⟩, h.removed⟩
    · intro n hn
      rw [halive]
      exact (hu.split n).2 (h.holders n hn)
    · intro n hn
      rcases mem_cons.1 hn with rfl | hn
      · exact Or.inl ⟨_, mem_cons_self, _, rfl, rfl⟩
      · rcases h.busy n hn with ⟨t, ht, hti⟩ | hrest
        · exact Or.inl ⟨t, mem_cons_of_mem _ ht, hti⟩
        · exact Or.inr hrest
    · intro t ht j hj
      rcases mem_cons.1 ht with rfl | ht
      · obtain rfl := Option.some.inj hj
        show 0 < s.held i.ino
        omega
      · exact h.inUse t ht j hj
  · -- not in use: the whole tree is freed
    obtain ⟨-, rfl⟩ := Prod.mk.inj (Option.some.inj hs)
    have hnode : Quiet s.held (.node i c .nil) := by
      intro j hj
      have hj' : j = i ∨ j ∈ c.inodes := by simpa [Forest.inodes] using hj
      rcases hj' with rfl | hj'
      · exact ⟨not_not.1 hzero, by omega⟩
      · exact hc j hj'
    have hout : ∀ n ∈ (Forest.node i c .nil).inos, n ∉ root.inos := by
      intro n hn hroot
      have hle := h.once n
      have hsplit := (hu.split n).1
      have h1 := count_pos_iff.2 hn
      have h2 : 0 < (s.without (.node i c .nil) root).alive n := RefState.has_iff.1 (Or.inl hroot)
      omega
    refine ⟨⟨hw, ?_, hu.counts, h.removed, h.doomed, ?_, h.bound, ?_, ?_⟩, h.inUse⟩
    · intro n
      have hle := h.once n
      have hsplit := (hu.split n).1
      rw [dying_inodeFree]
      show (s.without (.node i c .nil) root).alive n + (s.dying n + _) ≤ 1
      omega
    · intro n hn
      have hzero : (Forest.node i c .nil).inos.count n = 0 := by
        refine count_eq_zero.2 fun hin => ?_
        obtain ⟨j, hj, rfl⟩ := mem_map.1 hin
        exact hn.ne' (hnode j hj).2
      have hpos := (hu.split n).2 (h.holders n hn)
      rwa [hzero, Nat.zero_add] at hpos
    · exact freed_inodeFree (s := { s with root := root, stray := _ }) h.freed hnode hout
    · intro n hn
      rw [dying_inodeFree]
      exact (h.busy n hn).imp_right fun hpos => Nat.add_pos_left hpos _

end Steps

/-! ## Runs -/

/-- The calls, and the free that ends an `inode_release`. -/
inductive RefOp
  | find (nofollow memory : Bool) (depth : Nat) (path : Path)
  | addref (ino : InodeId)
  | release (ino : InodeId)
  | free (ino : InodeId)
  | remove (memory : Bool) (depth : Nat) (path : Path)
  deriving DecidableEq

def RefOp.apply (s : RefState) : RefOp → Option RefState
  | .find nofollow memory depth path => inodeFind nofollow memory depth path s
  | .addref ino => inodeAddref ino s
  | .release ino => inodeRelease ino s
  | .free ino => some (releaseFree ino s)
  | .remove memory depth path => (inodeRemove memory depth path s).map Prod.snd

/-- References are added and released by those who hold one. -/
def RefOp.Enabled (s : RefState) : RefOp → Prop
  | .addref ino | .release ino => 0 < s.held ino
  | _ => True

/-- No reference to an inode below the node that a call unlinks, and room in `i_crefs`. -/
def RefOp.Orderly (s : RefState) : RefOp → Prop
  | .find _ _ _ _ => ∀ i ∈ s.root.inodes, s.held i.ino < 32767
  | .addref ino => 0 < s.held ino ∧ s.held ino < 32767
  | .release ino => 0 < s.held ino
  | .free _ => True
  | .remove memory depth path => ∀ p ∈ inodeUnlink memory depth s.root path,
      ∀ j ∈ p.1.child.inodes, j.crefs = 0

instance RefOp.decidableEnabled (s : RefState) (op : RefOp) : Decidable (op.Enabled s) := by
  cases op <;> unfold RefOp.Enabled <;> infer_instance

instance RefOp.decidableOrderly (s : RefState) (op : RefOp) : Decidable (op.Orderly s) := by
  cases op <;> unfold RefOp.Orderly <;> infer_instance

/-- A tree that nobody refers to. -/
structure Unreferenced (s : RefState) : Prop where
  wellFormed : WellFormed s.root
  root : ∀ i ∈ s.root.inodes, i.crefs = 0 ∧ i.deleted = false
  held : s.held = fun _ => 0
  rest : s.removed = [] ∧ s.doomed = [] ∧ s.stray = [] ∧ s.freed = [] ∧ s.busy = []

/-- The states on the runs whose steps are all orderly. -/
abbrev OrderlyRefs : RefState → Prop :=
  Reach Unreferenced (LabelledStep (fun s op => op.Orderly s) RefOp.apply)

variable {s : RefState}

theorem Unreferenced.sound (h : Unreferenced s) : Sound s := by
  obtain ⟨hrem, hdoom, hstray, hfreed, hbusy⟩ := h.rest
  refine ⟨⟨h.wellFormed, ?_, ?_, ?_, ?_, ?_, ?_, ?_, ?_⟩, ?_⟩
  · simpa [RefState.alive, RefState.dying, hrem, hdoom, hstray, hfreed] using
      nodup_iff_count_le_one.1 h.wellFormed.nodup
  · simpa [hstray, h.held] using h.root
  all_goals simp [hrem, hdoom, hfreed, hbusy, h.held]

theorem RefOp.sound {s' : RefState} (h : Sound s) (op : RefOp) (hok : op.Orderly s)
    (hs : op.apply s = some s') : Sound s' := by
  cases op with
  | find nofollow memory depth path => exact inodeFind_sound h hok hs
  | addref ino => exact inodeAddref_sound h (Or.inl hok.1) hok.2 hs
  | release ino => exact inodeRelease_sound h hok hs
  | free ino =>
    obtain rfl := Option.some.inj hs
    exact releaseFree_sound h
  | remove memory depth path =>
    obtain ⟨⟨ret, t⟩, ht, rfl⟩ := Option.map_eq_some_iff.1 hs
    exact inodeRemove_sound h (fun node root hu => hok (node, root) hu) ht

theorem orderlyRefs_sound (hs : OrderlyRefs s) : Sound s := by
  refine Reach.invariant (P := Sound) (fun _ => Unreferenced.sound) ?_ hs
  rintro s t h ⟨op, hok, hop⟩
  exact op.sound h hok hop

theorem Sound.notMem_freed (h : Sound s) {n : InodeId} (hn : 0 < s.held n) :
    n ∉ s.freed.map FreeCall.ino := by
  intro hmem
  have hle := h.once n
  have hpos := h.holders n hn
  have hdying := RefState.dying_iff.2 (Or.inl hmem)
  omega

/-- If no call of `inode_remove` unlinks a node with a reference below it, then in every state that
is reached every inode was freed without references and out of the tree, none was freed twice, an
inode with a reference is allocated, and an inode that was removed while in use has been freed, or
is about to be freed by the thread that released it, exactly if no reference to it is left. -/
theorem referenced_inodes_stay {s : RefState} (hs : OrderlyRefs s) :
    (∀ f ∈ s.freed, f.crefs = 0 ∧ f.held = 0 ∧ f.linked = false) ∧
    (s.freed.map FreeCall.ino).Nodup ∧
    (∀ n, 0 < s.held n → s.Has n ∧ n ∉ s.freed.map FreeCall.ino) ∧
    ∀ n ∈ s.busy, s.held n = 0 ↔
      n ∈ s.freed.map FreeCall.ino ∨ ∃ t ∈ s.doomed, n ∈ t.inos := by
  have h := orderlyRefs_sound hs
  refine ⟨h.freed, ?_, fun n hn => ⟨RefState.has_iff.2 (h.holders n hn), h.notMem_freed hn⟩, ?_⟩
  · refine nodup_iff_count_le_one.2 fun n => ?_
    have hle := h.once n
    simp only [RefState.dying] at hle
    omega
  · intro n hn
    rw [← RefState.dying_iff]
    constructor
    · intro hzero
      refine (h.busy n hn).resolve_left ?_
      rintro ⟨t, ht, i, hi, rfl⟩
      have := h.inUse t ht i hi
      omega
    · intro hdying
      by_contra hheld
      have hpos := h.holders n (pos_of_ne_zero hheld)
      have hle := h.once n
      omega

/-- A directory with one device. -/
def deviceTree : RefState :=
  { root := .node ⟨1, "dev".toList, .driver, 0, false⟩
      (.node ⟨2, "x".toList, .driver, 0, false⟩ .nil .nil) .nil
    removed := []
    doomed := []
    stray := []
    freed := []
    held := fun _ => 0
    busy := [] }

theorem deviceTree_unreferenced : Unreferenced deviceTree :=
  ⟨⟨by simp [deviceTree, Forest.Sorted, Forest.siblingNames], by decide, by decide⟩, by decide, rfl,
    rfl, rfl, rfl, rfl, rfl⟩

/-- A directory removed while in use is freed, with the device in it, by the last release. -/
theorem referenced_inodes_stay_sample :
    let s := after RefOp.apply deviceTree [.find true true 1 "/dev".toList,
      .remove true 1 "/dev".toList, .release 1, .free 1]
    OrderlyRefs s ∧ s.busy = [1] ∧ s.freed.map FreeCall.ino = [2, 1] ∧
      (s.freed.map FreeCall.ino).Nodup := by
  have hrun : OrderlyRefs (after RefOp.apply deviceTree [.find true true 1 "/dev".toList,
      .remove true 1 "/dev".toList, .release 1, .free 1]) :=
    Reach.after _ (.start deviceTree_unreferenced) (by decide)
  exact ⟨hrun, by decide, by decide, (referenced_inodes_stay hrun).2.1⟩

/-- A device that is in use is freed when the directory that holds it is removed. -/
theorem removed_directory_frees_device :
    let ops := [RefOp.find true true 1 "/dev/x".toList, .remove true 1 "/dev".toList]
    let s := after RefOp.apply deviceTree ops
    AllSteps RefOp.Enabled RefOp.apply deviceTree ops ∧ s.held 2 = 1 ∧
      s.freed = [⟨2, 1, 1, false⟩, ⟨1, 0, 0, false⟩] ∧ ¬ s.Has 2 := by
  decide

end BaseNx.Fs
