import BaseNx.Fs.Links
import Mathlib.Data.List.Nodup
import Mathlib.Data.List.Perm.Basic
import Mathlib.Data.List.Lex

/-!
# The tree as a map from locations to inodes

A location is the list of names from the root to a node; `Forest.atLoc` is the map from locations to
inodes that a tree stands for. Searching a list of siblings in order, inserting a node at the place
that the search left in `peer` and `parent`, and taking a node out there are shown to be the lookup,
the insertion and the removal of a location in that map.
-/

namespace BaseNx.Fs

open List

/-- A list of names from the root. -/
abbrev Loc := List Path

/-! ## The order of names -/

theorem inodeCompare_sign {a b : Path} (ha : '/' ∉ a) :
    (inodeCompare a b < 0 ↔ a < b) ∧ (0 < inodeCompare a b ↔ b < a) := by
  induction a generalizing b with
  | nil => cases b <;> simp [inodeCompare]
  | cons f fs ih =>
    obtain ⟨hf, hfs⟩ : f ≠ '/' ∧ '/' ∉ fs := by
      simpa [eq_comm] using ha
    cases b with
    | nil => simp [inodeCompare, hf]
    | cons n ns =>
      simp only [inodeCompare, hf, if_false, cons_lt_cons_iff]
      rcases lt_trichotomy f n with h | rfl | h
      · simp [h, not_lt.mpr h.le, h.ne']
      · simp [ih hfs]
      · simp [h, not_lt.mpr h.le, h.ne']

variable {f : Forest} {c : Path} {loc : Loc} {i : Inode} {x : Inode} {l : InodeId} {tc tp : Forest}
  {t : Inode} {ino : InodeId} {loc' cs : Loc} {peer : Forest} {h : Forest → Forest}
  {P : Forest → Prop}

namespace Forest

/-! ## Locations -/

def inos (f : Forest) : List InodeId := f.inodes.map Inode.ino

def sibling (c : Path) : Forest → Forest
  | nil => nil
  | node i child peer => if i.name = c then node i child peer else sibling c peer

/-- The list of children at a location. -/
def dirAt : Forest → Loc → Forest
  | f, [] => f
  | f, c :: cs => dirAt (f.sibling c).child cs

def nodeAt : Forest → Loc → Forest
  | _, [] => nil
  | f, [c] => f.sibling c
  | f, c :: d :: cs => nodeAt (f.sibling c).child (d :: cs)

/-- The map from locations to inodes. -/
def atLoc (f : Forest) (loc : Loc) : Option Inode := (f.nodeAt loc).inode?

def siblingNames : Forest → List Path
  | nil => []
  | node i _ peer => i.name :: peer.siblingNames

/-- Every list of siblings is strictly sorted by name. -/
def Sorted : Forest → Prop
  | nil => True
  | node i child peer => (∀ n ∈ peer.siblingNames, i.name < n) ∧ child.Sorted ∧ peer.Sorted

@[simp] theorem inos_node (i : Inode) (child peer : Forest) :
    inos (node i child peer) = i.ino :: (child.inos ++ peer.inos) := by
  simp [inos, inodes]

theorem sibling_inodes (c : Path) (f : Forest) : (f.sibling c).inodes.Sublist f.inodes := by
  induction f with
  | nil => exact .refl _
  | node i child peer _ ih =>
    rw [sibling]
    split_ifs
    · exact .refl _
    · exact (ih.trans (sublist_append_right _ _)).cons i

theorem child_inodes (f : Forest) : f.child.inodes.Sublist f.inodes := by
  cases f with
  | nil => exact .refl _
  | node i child peer => exact (sublist_append_left _ _).cons i

theorem dirAt_inodes (f : Forest) (loc : Loc) : (f.dirAt loc).inodes.Sublist f.inodes := by
  induction loc generalizing f with
  | nil => exact .refl _
  | cons c cs ih => exact (ih _).trans ((child_inodes _).trans (sibling_inodes c f))

theorem dirAt_inos (f : Forest) (loc : Loc) : (f.dirAt loc).inos.Sublist f.inos :=
  (dirAt_inodes f loc).map _

@[simp] theorem sibling_nil (c : Path) : sibling c nil = nil := rfl

@[simp] theorem child_nil : Forest.child nil = nil := rfl

section

variable (f : Forest)

theorem dirAt_append (loc loc' : Loc) : f.dirAt (loc ++ loc') = (f.dirAt loc).dirAt loc' := by
  induction loc generalizing f with
  | nil => rfl
  | cons c cs ih => exact ih _

theorem nodeAt_cons (c : Path) (h : cs ≠ []) :
    f.nodeAt (c :: cs) = (f.sibling c).child.nodeAt cs := by
  cases cs with
  | nil => exact absurd rfl h
  | cons d cs => rfl

theorem nodeAt_append (loc : Loc) (h : loc' ≠ []) :
    f.nodeAt (loc ++ loc') = (f.dirAt loc).nodeAt loc' := by
  induction loc generalizing f with
  | nil => rfl
  | cons c cs ih =>
    rw [cons_append, nodeAt_cons f c (by simp [h]), ih]
    rfl

theorem nodeAt_concat (loc : Loc) (c : Path) : f.nodeAt (loc ++ [c]) = (f.dirAt loc).sibling c :=
  nodeAt_append f loc (by simp)

theorem dirAt_eq_child (h : loc ≠ []) : f.dirAt loc = (f.nodeAt loc).child := by
  obtain ⟨base, c, rfl⟩ : ∃ base c, loc = base ++ [c] :=
    ⟨loc.dropLast, loc.getLast h, (dropLast_append_getLast h).symm⟩
  rw [nodeAt_concat, dirAt_append]
  rfl

end

theorem mem_of_atLoc (h : f.atLoc loc = some i) : i ∈ f.inodes := by
  have hne : loc ≠ [] := by
    rintro rfl
    simp [atLoc, nodeAt, inode?] at h
  obtain ⟨base, c, rfl⟩ : ∃ base c, loc = base ++ [c] :=
    ⟨loc.dropLast, loc.getLast hne, (dropLast_append_getLast hne).symm⟩
  rw [atLoc, nodeAt_concat] at h
  refine (dirAt_inodes f base).subset ((sibling_inodes c _).subset ?_)
  cases hn : (f.dirAt base).sibling c with
  | nil => simp [hn, inode?] at h
  | node j child peer =>
    obtain rfl : j = i := by simpa [hn, inode?] using h
    simp [inodes]

theorem sibling_name {child : Forest} (h : f.sibling c = node i child peer) : i.name = c := by
  induction f with
  | nil => nomatch h
  | node j jc jp _ ih =>
    rw [sibling] at h
    split_ifs at h with hc
    · cases h
      exact hc
    · exact ih h

theorem sibling_eq_nil : f.sibling c = nil ↔ c ∉ f.siblingNames := by
  induction f with
  | nil => simp [siblingNames]
  | node i child peer _ ih =>
    rw [sibling]
    split_ifs with hc
    · simp [siblingNames, hc]
    · simp [siblingNames, ih, Ne.symm hc]

theorem Sorted.sibling (h : f.Sorted) (c : Path) : (f.sibling c).Sorted := by
  induction f with
  | nil => exact h
  | node i child peer _ ih =>
    rw [Forest.sibling]
    split_ifs
    · exact h
    · exact ih h.2.2

theorem Sorted.child (h : f.Sorted) : f.child.Sorted := by
  cases f with
  | nil => exact h
  | node i child peer => exact h.2.1

theorem Sorted.dirAt (h : f.Sorted) (loc : Loc) : (f.dirAt loc).Sorted := by
  induction loc generalizing f with
  | nil => exact h
  | cons c cs ih => exact ih (h.sibling c).child

/-! ## The scan of a sorted list -/

/-- The last sibling before a name, or `left`. -/
def leftOf (c : Path) (left : Option InodeId) : Forest → Option InodeId
  | nil => left
  | node i _ peer => if i.name < c then leftOf c (some i.ino) peer else left

theorem sibling_eq_nil_of_lt (h : ∀ n ∈ f.siblingNames, c < n) : f.sibling c = nil :=
  sibling_eq_nil.mpr fun hc => lt_irrefl c (h c hc)

theorem scan_eq (hs : f.Sorted) (hc : '/' ∉ c) (left : Option InodeId) :
    scan c left f = (f.leftOf c left, f.sibling c) := by
  induction f generalizing left with
  | nil => rfl
  | node i child peer _ ih =>
    simp only [scan, (inodeCompare_sign hc).1, gt_iff_lt, (inodeCompare_sign hc).2, leftOf,
      Forest.sibling]
    rcases lt_trichotomy c i.name with h | h | h
    · have hpeer : peer.sibling c = nil :=
        sibling_eq_nil_of_lt fun n hn => h.trans (hs.1 n hn)
      rw [if_pos h, if_neg (lt_asymm h), if_neg h.ne', hpeer]
    · subst h
      simp
    · rw [if_neg (lt_asymm h), if_pos h, if_pos h, if_neg h.ne, ih hs.2.2]

theorem leftOf_mem {left : Option InodeId} (h : f.leftOf c left = some l) :
    left = some l ∨ l ∈ f.inos := by
  induction f generalizing left with
  | nil => exact Or.inl h
  | node i child peer _ ih =>
    rw [leftOf] at h
    split_ifs at h with hc
    · rcases ih h with h | h
      · right
        simp [Option.some.inj h]
      · simp [h]
    · exact Or.inl h

/-! ## Writing at a location -/

/-- The tree with another list of children at a location. -/
def updateDir : Forest → Loc → (Forest → Forest) → Forest
  | f, [], h => h f
  | nil, _ :: _, _ => nil
  | node i child peer, c :: cs, h =>
    if i.name = c then node i (updateDir child cs h) peer
    else node i child (updateDir peer (c :: cs) h)

/-- A new sibling at its place in the order. -/
def insertSibling (x : Inode) : Forest → Forest
  | nil => node x nil nil
  | node i child peer =>
    if x.name < i.name then node x nil (node i child peer)
    else node i child (insertSibling x peer)

/-- The siblings without the one with a name. -/
def removeSibling (c : Path) : Forest → Forest
  | nil => nil
  | node i child peer => if i.name = c then peer else node i child (removeSibling c peer)

@[simp] theorem updateDir_root (f : Forest) (h : Forest → Forest) : f.updateDir [] h = h f := by
  cases f <;> rfl

theorem edit_of_notMem (g : Inode → Forest → Forest → Forest) (h : ino ∉ f.inos) :
    f.edit ino g = f := by
  induction f with
  | nil => rfl
  | node i child peer ihc ihp =>
    obtain ⟨hi, hc, hp⟩ : ino ≠ i.ino ∧ ino ∉ child.inos ∧ ino ∉ peer.inos := by simpa using h
    rw [edit, if_neg (Ne.symm hi), ihc hc, ihp hp]

/-- What numbers that are not repeated say about a node. -/
theorem nodup_node {child : Forest} (h : (node i child peer).inos.Nodup) :
    child.inos.Nodup ∧ peer.inos.Nodup ∧ i.ino ∉ child.inos ∧ i.ino ∉ peer.inos ∧
      ∀ n ∈ child.inos, n ∉ peer.inos := by
  simp only [inos_node, nodup_cons, mem_append, not_or, nodup_append] at h
  exact ⟨h.2.1, h.2.2.1, h.1.1, h.1.2, fun n hc hp => h.2.2.2 n hc n hp rfl⟩

section

variable (g : Inode → Forest → Forest → Forest)

theorem edit_below {child : Forest} (hn : (node i child peer).inos.Nodup) (h : ino ∈ child.inos) :
    (node i child peer).edit ino g = node i (child.edit ino g) peer := by
  obtain ⟨-, -, hic, -, hcp⟩ := nodup_node hn
  rw [edit, if_neg fun he : i.ino = ino => hic (he ▸ h), edit_of_notMem g (hcp ino h)]

theorem edit_behind {child : Forest} (hn : (node i child peer).inos.Nodup) (h : ino ∈ peer.inos) :
    (node i child peer).edit ino g = node i child (peer.edit ino g) := by
  obtain ⟨-, -, -, hip, hcp⟩ := nodup_node hn
  rw [edit, if_neg fun he : i.ino = ino => hip (he ▸ h), edit_of_notMem g fun hc => hcp ino hc h]

/-- A write to a node in the list of a location is a write to that list. -/
theorem edit_eq_updateDir (hn : f.inos.Nodup) (h : ino ∈ (f.dirAt loc).inos) :
    f.edit ino g = f.updateDir loc (edit ino g) := by
  induction f generalizing loc with
  | nil =>
    cases loc with
    | nil => rfl
    | cons c cs => rfl
  | node i child peer ihc ihp =>
    obtain ⟨hnc, hnp, -⟩ := nodup_node hn
    cases loc with
    | nil => rfl
    | cons c cs =>
      rw [updateDir]
      by_cases hc : i.name = c
      · have hmem : ino ∈ (child.dirAt cs).inos := by
          simpa [dirAt, Forest.sibling, hc, Forest.child] using h
        rw [if_pos hc, edit_below g hn ((dirAt_inos child cs).subset hmem), ihc hnc hmem]
      · have hmem : ino ∈ (peer.dirAt (c :: cs)).inos := by
          simpa [dirAt, Forest.sibling, hc] using h
        rw [if_neg hc, edit_behind g hn ((dirAt_inos peer (c :: cs)).subset hmem), ihp hnp hmem]

end

theorem edit_child_eq_updateDir (k : Forest → Forest) (hn : f.inos.Nodup)
    (h : f.atLoc loc = some i) :
    f.edit i.ino (fun j c p => node j (k c) p) = f.updateDir loc k := by
  induction f generalizing loc with
  | nil => nomatch mem_of_atLoc h
  | node j child peer ihc ihp =>
    obtain ⟨hnc, hnp, -⟩ := nodup_node hn
    cases loc with
    | nil => simp [atLoc, nodeAt, inode?] at h
    | cons c cs =>
      rw [updateDir]
      by_cases hc : j.name = c
      · rw [if_pos hc]
        cases cs with
        | nil =>
          obtain rfl : j = i := by simpa [atLoc, nodeAt, Forest.sibling, hc, inode?] using h
          rw [edit, if_pos rfl, updateDir_root]
        | cons d ds =>
          have hat : child.atLoc (d :: ds) = some i := by
            simpa [atLoc, nodeAt, Forest.sibling, hc, Forest.child] using h
          rw [edit_below _ hn (mem_map_of_mem (mem_of_atLoc hat)), ihc hnc hat]
      · have hat : peer.atLoc (c :: cs) = some i := by
          cases cs <;> simpa [atLoc, nodeAt, Forest.sibling, hc] using h
        rw [if_neg hc, edit_behind _ hn (mem_map_of_mem (mem_of_atLoc hat)), ihp hnp hat]

theorem leftOf_or (f : Forest) (left : Option InodeId) :
    f.leftOf c left = (f.leftOf c none).or left := by
  induction f generalizing left with
  | nil => rfl
  | node i child peer _ ih =>
    rw [leftOf, leftOf]
    split_ifs
    · rw [ih (some i.ino), Option.or_assoc]
      rfl
    · rfl

/-- A scan that passed no sibling stopped at the first. -/
theorem not_lt_of_leftOf_eq_none {child : Forest} (h : (node i child peer).leftOf c none = none) :
    ¬ i.name < c := by
  intro hi
  rw [leftOf, if_pos hi, leftOf_or] at h
  exact nomatch (Option.or_eq_none_iff.mp h).2

/-- An operation on the siblings with `P`: it passes those with a smaller name and does `front` to
the list behind them. -/
structure ActsAt (c : Path) (P : Forest → Prop) (front op : Forest → Forest) : Prop where
  next : ∀ {i child peer}, P (node i child peer) → i.name < c →
    P peer ∧ op (node i child peer) = node i child (op peer)
  stop : ∀ {f}, P f → f.leftOf c none = none → front f = op f

/-- The siblings before a name end at `leftOf`: a write there reaches the list behind them. -/
theorem ActsAt.edit_leftOf {front op : Forest → Forest} (ha : ActsAt c P front op)
    (hn : f.inos.Nodup) (hp : P f) (hl : f.leftOf c none = some l) :
    f.edit l (fun i child peer => node i child (front peer)) = op f := by
  induction f with
  | nil => nomatch hl
  | node i child peer _ ih =>
    obtain ⟨-, hnp, -⟩ := nodup_node hn
    rw [leftOf] at hl
    split_ifs at hl with hi
    obtain ⟨hp', hop⟩ := ha.next hp hi
    rw [leftOf_or] at hl
    cases hrest : peer.leftOf c none with
    | none =>
      rw [hrest] at hl
      rw [edit, if_pos (Option.some.inj hl), ha.stop hp' hrest, hop]
    | some k =>
      -- the place lies further to the right
      rw [hrest] at hl
      obtain rfl : k = l := Option.some.inj hl
      have hmem : k ∈ peer.inos := (leftOf_mem hrest).resolve_left nofun
      rw [edit_behind _ hn hmem, ih hnp hp' hrest, hop]

theorem insertFront_eq (hx : f.sibling x.name = nil) (hl : f.leftOf x.name none = none) :
    node x nil f = f.insertSibling x := by
  cases f with
  | nil => rfl
  | node i child peer =>
    have hlt : x.name < i.name := by
      refine lt_of_le_of_ne (not_lt.mp (not_lt_of_leftOf_eq_none hl)) fun he => ?_
      simp [Forest.sibling, he] at hx
    rw [insertSibling, if_pos hlt]

theorem actsAt_insert (x : Inode) :
    ActsAt x.name (·.sibling x.name = nil) (node x nil) (insertSibling x) where
  next hx hi :=
    ⟨by simpa [Forest.sibling, hi.ne] using hx, by rw [insertSibling, if_neg (lt_asymm hi)]⟩
  stop := insertFront_eq

theorem sibling_of_not_lt {child : Forest} (hs : (node i child peer).Sorted) (hi : ¬ i.name < c)
    (hne : (node i child peer).sibling c ≠ nil) : i.name = c := by
  by_contra hc
  have hlt : c < i.name := lt_of_le_of_ne (not_lt.mp hi) (Ne.symm hc)
  refine hne (sibling_eq_nil_of_lt fun n hn => ?_)
  rcases mem_cons.mp hn with rfl | hn
  · exact hlt
  · exact hlt.trans (hs.1 n hn)

/-- The first sibling is taken out by going on to its peer. -/
theorem removeFront_eq (hs : f.Sorted) (ht : f.sibling c = node t tc tp)
    (hl : f.leftOf c none = none) : tp = f.removeSibling c := by
  cases f with
  | nil => nomatch ht
  | node i child peer =>
    have hc : i.name = c := sibling_of_not_lt hs (not_lt_of_leftOf_eq_none hl) (by simp [ht])
    rw [Forest.sibling, if_pos hc] at ht
    cases ht
    rw [removeSibling, if_pos hc]

theorem actsAt_remove (t : Inode) (tc tp : Forest) :
    ActsAt c (fun f => f.Sorted ∧ f.sibling c = node t tc tp) (fun _ => tp) (removeSibling c) where
  next {i _ _} h hi :=
    ⟨⟨h.1.2.2, by rw [← h.2, Forest.sibling.eq_2 c i, if_neg hi.ne]⟩,
      by rw [removeSibling, if_neg hi.ne]⟩
  stop h hl := removeFront_eq h.1 h.2 hl

/-! ## What a write does to the map -/

@[simp] theorem atLoc_nil (loc : Loc) : atLoc nil loc = none := by
  cases h : atLoc nil loc with
  | none => rfl
  | some i => nomatch mem_of_atLoc h

theorem atLoc_node (i : Inode) (child peer : Forest) (c : Path) (cs : Loc) :
    (node i child peer).atLoc (c :: cs)
      = if i.name = c then (if cs = [] then some i else child.atLoc cs)
      else peer.atLoc (c :: cs) := by
  by_cases hc : i.name = c
  · rw [if_pos hc]
    cases cs with
    | nil => simp [atLoc, nodeAt, Forest.sibling, hc, inode?]
    | cons d ds => simp [atLoc, nodeAt, Forest.sibling, hc, Forest.child]
  · rw [if_neg hc]
    cases cs <;> simp [atLoc, nodeAt, Forest.sibling, hc]

theorem atLoc_append (f : Forest) (loc : Loc) (h : loc' ≠ []) :
    f.atLoc (loc ++ loc') = (f.dirAt loc).atLoc loc' := by
  rw [atLoc, nodeAt_append f loc h]
  rfl

theorem atLoc_sibling : f.atLoc [c] = none ↔ f.sibling c = nil := by
  cases hn : f.sibling c <;> simp [atLoc, nodeAt, hn, inode?]

/-- The location of a list of children: the root, or a node. -/
def IsDir (f : Forest) (loc : Loc) : Prop := loc = [] ∨ ∃ i, f.atLoc loc = some i

theorem isDir_child {child peer : Forest} (hd : (node i child peer).IsDir (i.name :: cs)) :
    child.IsDir cs := by
  obtain ⟨j, hj⟩ := hd.resolve_left nofun
  rw [atLoc_node, if_pos rfl] at hj
  split_ifs at hj with hcs
  · exact Or.inl hcs
  · exact Or.inr ⟨j, hj⟩

theorem isDir_peer {child peer : Forest} (hd : (node i child peer).IsDir (c :: cs))
    (hc : i.name ≠ c) : peer.IsDir (c :: cs) := by
  obtain ⟨j, hj⟩ := hd.resolve_left nofun
  rw [atLoc_node, if_neg hc] at hj
  exact Or.inr ⟨j, hj⟩

/-- Below the location the map is that of the new list. -/
theorem atLoc_updateDir_below (h : Forest → Forest) (hd : f.IsDir loc) (hcs : cs ≠ []) :
    (f.updateDir loc h).atLoc (loc ++ cs) = (h (f.dirAt loc)).atLoc cs := by
  fun_induction updateDir f loc h with
  | case1 => rfl
  | case2 => exact absurd hd (by simp [IsDir])
  | case3 i child peer ds h ih =>
    rw [cons_append, atLoc_node, if_pos rfl, if_neg (by simp [hcs]), dirAt, Forest.sibling,
      if_pos rfl]
    exact ih (isDir_child hd)
  | case4 i child peer c ds h hc ih =>
    rw [cons_append, atLoc_node, if_neg hc, dirAt, Forest.sibling, if_neg hc]
    exact ih (isDir_peer hd hc)

/-- Elsewhere the map does not change. -/
theorem atLoc_updateDir_other (h : Forest → Forest) {loc : Loc}
    (hne : ∀ cs, cs ≠ [] → loc' ≠ loc ++ cs) : (f.updateDir loc h).atLoc loc' = f.atLoc loc' := by
  cases loc' with
  | nil => rfl
  | cons d ds =>
    fun_induction updateDir f loc h generalizing d ds with
    | case1 => exact absurd rfl (hne (d :: ds) (by simp))
    | case2 => rfl
    | case3 i child peer cs h ih =>
      rw [atLoc_node, atLoc_node]
      split_ifs with hd hds
      · rfl
      · obtain ⟨e, es, rfl⟩ := exists_cons_of_ne_nil hds
        refine ih e es fun cs' hcs' he => hne cs' hcs' ?_
        rw [cons_append, hd, he]
      · rfl
    | case4 i child peer c cs h hc ih =>
      rw [atLoc_node, atLoc_node]
      split_ifs with hd hds
      · rfl
      · rfl
      · exact ih d ds hne

theorem atLoc_insertSibling (hx : f.sibling x.name = nil) (c : Path) (cs : Loc) :
    (f.insertSibling x).atLoc (c :: cs)
      = if x.name = c then (if cs = [] then some x else none) else f.atLoc (c :: cs) := by
  induction f with
  | nil => simp [insertSibling, atLoc_node]
  | node i child peer _ ih =>
    have hne : i.name ≠ x.name := fun he => by simp [Forest.sibling, he] at hx
    have hx' : peer.sibling x.name = nil := by simpa [Forest.sibling, hne] using hx
    rw [insertSibling]
    split_ifs with hlt hc hcs hc hcs
    · rw [atLoc_node, if_pos hc, if_pos hcs]
    · rw [atLoc_node, if_pos hc, if_neg hcs, atLoc_nil]
    · rw [atLoc_node, if_neg hc]
    · rw [atLoc_node, if_neg (hc ▸ hne), ih hx', if_pos hc, if_pos hcs]
    · rw [atLoc_node, if_neg (hc ▸ hne), ih hx', if_pos hc, if_neg hcs]
    · rw [atLoc_node, atLoc_node, ih hx', if_neg hc]

theorem atLoc_removeSibling (hs : f.Sorted) (c d : Path) (ds : Loc) :
    (f.removeSibling c).atLoc (d :: ds) = if d = c then none else f.atLoc (d :: ds) := by
  induction f with
  | nil => simp [removeSibling]
  | node i child peer _ ih =>
    rw [removeSibling]
    by_cases hi : i.name = c
    · rw [if_pos hi]
      by_cases hd : d = c
      · -- no second sibling has the name
        have hnone : peer.sibling c = nil :=
          sibling_eq_nil_of_lt fun n hn => hi ▸ hs.1 n hn
        rw [if_pos hd, hd]
        cases ds with
        | nil => exact atLoc_sibling.mpr hnone
        | cons e es =>
          have hchild : atLoc nil (e :: es) = none := atLoc_nil _
          simpa [atLoc, nodeAt, hnone] using hchild
      · rw [if_neg hd, atLoc_node, if_neg (fun he => hd (he.symm.trans hi))]
    · rw [if_neg hi, atLoc_node, atLoc_node, ih hs.2.2]
      split_ifs with h1 h2 h3 h3
      · exact absurd (h1.trans h3) hi
      · rfl
      · exact absurd (h1.trans h3) hi
      · rfl
      · rfl
      · rfl

/-! ## What a write does to the order and to the inodes -/

theorem updateDir_congr {h' : Forest → Forest} (heq : h (f.dirAt loc) = h' (f.dirAt loc)) :
    f.updateDir loc h = f.updateDir loc h' := by
  fun_induction updateDir f loc h with
  | case1 => simpa [dirAt] using heq
  | case2 => rfl
  | case3 i child peer cs h ih =>
    rw [dirAt, Forest.sibling, if_pos rfl] at heq
    rw [updateDir, if_pos rfl, ih heq]
  | case4 i child peer c cs h hc ih =>
    rw [dirAt, Forest.sibling, if_neg hc] at heq
    rw [updateDir, if_neg hc, ih heq]

theorem siblingNames_updateDir (f : Forest) (hloc : loc ≠ []) (h : Forest → Forest) :
    (f.updateDir loc h).siblingNames = f.siblingNames := by
  obtain ⟨c, cs, rfl⟩ := exists_cons_of_ne_nil hloc
  induction f with
  | nil => rfl
  | node i child peer _ ihp =>
    rw [updateDir]
    split_ifs
    · rfl
    · rw [siblingNames, ihp, siblingNames]

theorem Sorted.updateDir (hs : f.Sorted) (hh : (h (f.dirAt loc)).Sorted) :
    (f.updateDir loc h).Sorted := by
  fun_induction Forest.updateDir f loc h with
  | case1 => exact hh
  | case2 => trivial
  | case3 i child peer cs h ih =>
    rw [Forest.dirAt, Forest.sibling, if_pos rfl] at hh
    exact ⟨hs.1, ih hs.2.1 hh, hs.2.2⟩
  | case4 i child peer c cs h hc ih =>
    rw [Forest.dirAt, Forest.sibling, if_neg hc] at hh
    refine ⟨?_, hs.2.1, ih hs.2.2 hh⟩
    rw [siblingNames_updateDir peer (by simp)]
    exact hs.1

theorem siblingNames_insertSibling (f : Forest) (x : Inode) {n : Path}
    (h : n ∈ (f.insertSibling x).siblingNames) : n = x.name ∨ n ∈ f.siblingNames := by
  induction f with
  | nil => simpa [insertSibling, siblingNames] using h
  | node i child peer _ ih =>
    rw [insertSibling] at h
    split_ifs at h
    · simpa [siblingNames] using h
    · rcases mem_cons.mp h with rfl | h
      · simp [siblingNames]
      · rcases ih h with h | h
        · exact Or.inl h
        · simp [siblingNames, h]

theorem Sorted.insertSibling (hs : f.Sorted) (hx : f.sibling x.name = nil) :
    (f.insertSibling x).Sorted := by
  induction f with
  | nil => exact ⟨by simp [siblingNames], trivial, trivial⟩
  | node i child peer _ ih =>
    have hne : i.name ≠ x.name := fun he => by simp [Forest.sibling, he] at hx
    have hx' : peer.sibling x.name = nil := by simpa [Forest.sibling, hne] using hx
    rw [Forest.insertSibling]
    split_ifs with hlt
    · refine ⟨fun n hn => ?_, trivial, hs⟩
      rcases mem_cons.mp hn with rfl | hn
      · exact hlt
      · exact hlt.trans (hs.1 n hn)
    · refine ⟨fun n hn => ?_, hs.2.1, ih hs.2.2 hx'⟩
      rcases siblingNames_insertSibling peer x hn with rfl | hn
      · exact lt_of_le_of_ne (not_lt.mp hlt) hne
      · exact hs.1 n hn

theorem siblingNames_removeSibling (f : Forest) (c : Path) :
    (f.removeSibling c).siblingNames ⊆ f.siblingNames := by
  induction f with
  | nil => exact fun _ h => h
  | node i child peer _ ih =>
    rw [removeSibling]
    split_ifs
    · exact fun n hn => mem_cons_of_mem _ hn
    · exact cons_subset_cons _ ih

theorem Sorted.removeSibling (hs : f.Sorted) (c : Path) : (f.removeSibling c).Sorted := by
  induction f with
  | nil => exact hs
  | node i child peer _ ih =>
    rw [Forest.removeSibling]
    split_ifs
    · exact hs.2.2
    · exact ⟨fun n hn => hs.1 n (siblingNames_removeSibling peer c hn), hs.2.1, ih hs.2.2⟩

/-- The inodes of the new list come in for those of the old one. -/
theorem inodes_updateDir (hd : f.IsDir loc) (h : Forest → Forest) :
    ((f.updateDir loc h).inodes ++ (f.dirAt loc).inodes).Perm
      (f.inodes ++ (h (f.dirAt loc)).inodes) := by
  fun_induction updateDir f loc h with
  | case1 => exact perm_append_comm
  | case2 => exact absurd hd (by simp [IsDir])
  | case3 i child peer cs h ih =>
    rw [dirAt, Forest.sibling, if_pos rfl, Forest.child]
    simp only [inodes, cons_append, append_assoc]
    refine List.Perm.cons i ?_
    calc (child.updateDir cs h).inodes ++ (peer.inodes ++ (child.dirAt cs).inodes)
        _ |>.Perm ((child.updateDir cs h).inodes ++ ((child.dirAt cs).inodes ++ peer.inodes)) :=
          List.Perm.append_left _ perm_append_comm
        _ |>.Perm ((child.inodes ++ (h (child.dirAt cs)).inodes) ++ peer.inodes) := by
          rw [← append_assoc]
          exact List.Perm.append_right _ (ih (isDir_child hd))
        _ |>.Perm (child.inodes ++ (peer.inodes ++ (h (child.dirAt cs)).inodes)) := by
          rw [append_assoc]
          exact List.Perm.append_left _ perm_append_comm
  | case4 i child peer c cs h hc ih =>
    rw [dirAt, Forest.sibling, if_neg hc]
    simp only [inodes, cons_append, append_assoc]
    exact List.Perm.cons i (List.Perm.append_left _ (ih (isDir_peer hd hc)))

theorem inodes_insertSibling (f : Forest) (x : Inode) :
    (f.insertSibling x).inodes.Perm (x :: f.inodes) := by
  induction f with
  | nil => exact List.Perm.refl _
  | node i child peer _ ih =>
    rw [insertSibling]
    split_ifs
    · exact List.Perm.refl _
    · calc i :: (child.inodes ++ (peer.insertSibling x).inodes)
          _ |>.Perm (i :: (child.inodes ++ x :: peer.inodes)) :=
            List.Perm.cons i (List.Perm.append_left _ ih)
          _ |>.Perm (i :: x :: (child.inodes ++ peer.inodes)) :=
            List.Perm.cons i perm_middle
          _ |>.Perm (x :: i :: (child.inodes ++ peer.inodes)) := List.Perm.swap ..

theorem inodes_removeSibling (ht : f.sibling c = node t tc tp) :
    f.inodes.Perm ((node t tc nil).inodes ++ (f.removeSibling c).inodes) := by
  induction f with
  | nil => nomatch ht
  | node i child peer _ ih =>
    rw [Forest.sibling] at ht
    rw [removeSibling]
    split_ifs at ht ⊢ with hc
    · cases ht
      simp [inodes]
    · calc i :: (child.inodes ++ peer.inodes)
          _ |>.Perm
            (i :: (child.inodes ++ ((node t tc nil).inodes ++ (peer.removeSibling c).inodes))) :=
            List.Perm.cons i (List.Perm.append_left _ (ih ht))
          _ |>.Perm
            ((node t tc nil).inodes ++ i :: (child.inodes ++ (peer.removeSibling c).inodes)) := by
            refine List.Perm.trans ?_ perm_middle.symm
            refine List.Perm.cons i ?_
            rw [← append_assoc, ← append_assoc]
            exact List.Perm.append_right _ perm_append_comm

end Forest

/-! ## Inserting and removing at the place a search found -/

def Forest.inoAt (f : Forest) (loc : Loc) : Option InodeId := (f.atLoc loc).map Inode.ino

section Place

variable {root : Forest} {dir : Loc}

open Forest

/-- A write behind the last sibling passed, or else to the parent, is a write to the directory. -/
theorem Forest.ActsAt.updateDir {front op : Forest → Forest} (ha : ActsAt c P front op)
    (hn : root.inos.Nodup) (hd : root.IsDir dir) (hp : P (root.dirAt dir))
    {g : Option InodeId → Option InodeId → Forest}
    (hpeer : ∀ l q, g (some l) q = root.edit l fun i child peer => .node i child (front peer))
    (hparent : ∀ q, g none (some q) = root.edit q fun i child peer => .node i (front child) peer)
    (hroot : g none none = front root) :
    g ((root.dirAt dir).leftOf c none) (root.inoAt dir) = root.updateDir dir op := by
  cases hl : (root.dirAt dir).leftOf c none with
  | some l =>
    have hmem : l ∈ (root.dirAt dir).inos := (leftOf_mem hl).resolve_left nofun
    rw [hpeer, edit_eq_updateDir _ hn hmem]
    exact updateDir_congr (ha.edit_leftOf (hn.sublist (dirAt_inos root dir)) hp hl)
  | none =>
    rcases hd with rfl | ⟨i, hi⟩
    · rw [updateDir_root]
      exact hroot.trans (ha.stop hp hl)
    · have hino : root.inoAt dir = some i.ino := by simp [inoAt, hi]
      rw [hino, hparent, edit_child_eq_updateDir front hn hi]
      exact updateDir_congr (ha.stop hp hl)

theorem inodeInsert_eq (hn : root.inos.Nodup) (hd : root.IsDir dir)
    (hx : (root.dirAt dir).sibling x.name = .nil) :
    inodeInsert root x ((root.dirAt dir).leftOf x.name none) (root.inoAt dir)
      = root.updateDir dir (insertSibling x) :=
  (actsAt_insert x).updateDir hn hd hx (fun _ _ => rfl) (fun _ => rfl) rfl

theorem takeOut_eq (hs : root.Sorted) (hn : root.inos.Nodup) (hd : root.IsDir dir)
    (ht : (root.dirAt dir).sibling c = .node t tc tp) :
    takeOut root ((root.dirAt dir).leftOf c none) (root.inoAt dir) tp
      = root.updateDir dir (removeSibling c) :=
  (actsAt_remove t tc tp).updateDir hn hd ⟨hs.dirAt dir, ht⟩
    (g := fun peer parent => takeOut root peer parent tp) (fun _ _ => rfl) (fun _ => rfl) rfl

end Place

end BaseNx.Fs
