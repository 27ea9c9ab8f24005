import BaseNx.Errno
import Mathlib.Data.List.Basic

/-!
# The pseudo file system

`fs/inode`: the tree of inodes, the search for a path with soft links (`CONFIG_PSEUDOFS_SOFTLINKS`),
and the functions that insert and remove nodes.

The tree is the binary tree that `i_child` and `i_peer` span. A pointer to an inode is the number
`ino` of the inode, or the part of the tree that begins there. Strings are lists of characters
without the terminating NUL. `_inode_search` and `_inode_linktarget` call each other; the depth of
their recursion is an argument, and a search that needs more is `none`.
-/

namespace BaseNx.Fs

/-! ## Inodes -/

/-- A string of C. -/
abbrev Path := List Char

/-- The address of an inode. -/
abbrev InodeId := Nat

/-- The type field of `i_flags`, with `i_link` of a soft link. -/
inductive Kind
  | driver
  | block
  | mountpt
  | namedsem
  | mqueue
  | shm
  | softlink (link : Path)
  deriving DecidableEq

/-- The fields of `struct inode` other than its links; `deleted` is `FSNODEFLAG_DELETED`. -/
structure Inode where
  ino : InodeId
  name : Path
  kind : Kind
  crefs : Int
  deleted : Bool
  deriving DecidableEq

/-- `INODE_IS_MOUNTPT` -/
def Inode.isMountpt (i : Inode) : Bool := i.kind = .mountpt

/-- `i_link` of a soft link -/
def Inode.link? (i : Inode) : Option Path :=
  match i.kind with
  | .softlink link => some link
  | _ => none

/-- An inode with its children, and the inodes to its right. -/
inductive Forest
  | nil
  | node (i : Inode) (child peer : Forest)
  deriving DecidableEq

namespace Forest

/-- The inode that a pointer into the tree points to. -/
def inode? : Forest → Option Inode
  | nil => none
  | node i _ _ => some i

/-- `i_child` -/
def child : Forest → Forest
  | nil => nil
  | node _ c _ => c

/-- All inodes of the tree. -/
def inodes : Forest → List Inode
  | nil => []
  | node i c p => i :: (c.inodes ++ p.inodes)

/-- A write to one inode of the tree, and to what hangs on it. -/
def edit (ino : InodeId) (g : Inode → Forest → Forest → Forest) : Forest → Forest
  | nil => nil
  | node i c p => if i.ino = ino then g i c p else node i (edit ino g c) (edit ino g p)

/-- `node->i_peer = peer->i_peer; peer->i_peer = node` for the inode `peer` of the tree -/
def insertAfter (peer : InodeId) (x : Inode) : Forest → Forest :=
  edit peer fun i c p => node i c (node x nil p)

/-- `node->i_peer = parent->i_child; parent->i_child = node` for the inode `parent` of the tree -/
def insertBelow (parent : InodeId) (x : Inode) : Forest → Forest :=
  edit parent fun i c p => node i (node x nil c) p

/-- `peer->i_peer = f` for the inode `peer` of the tree -/
def setPeer (tree : Forest) (peer : InodeId) (f : Forest) : Forest :=
  tree.edit peer fun i c _ => node i c f

/-- `parent->i_child = f` for the inode `parent` of the tree -/
def setChild (tree : Forest) (parent : InodeId) (f : Forest) : Forest :=
  tree.edit parent fun i _ p => node i f p

/-- A change to the fields of one inode. -/
def modify (ino : InodeId) (g : Inode → Inode) : Forest → Forest :=
  edit ino fun i c p => node (g i) c p

end Forest

/-! ## Names -/

/-- `inode_nextname` -/
def inodeNextname (name : Path) : Path := (name.dropWhile (· ≠ '/')).dropWhile (· = '/')

/-- The first component of a name: what `inode_namelen` counts and `inode_namecpy` copies. -/
def component (name : Path) : Path := name.takeWhile (· ≠ '/')

/-- The places in a string where a component begins; `slash` tells whether a slash stands in
front. -/
def namesFrom (slash : Bool) : Path → List Path
  | [] => []
  | c :: cs =>
    if c = '/' then namesFrom true cs
    else if slash then (c :: cs) :: namesFrom false cs
    else namesFrom false cs

/-- The values that the pointer `name` takes along a path. -/
def names (path : Path) : List Path := namesFrom true path

/-- `_inode_compare` -/
def inodeCompare : Path → Path → Int
  | [], [] => 0
  | f :: _, [] => if f = '/' then 0 else 1
  | [], _ :: _ => -1
  | f :: fs, n :: ns =>
    if f = '/' then -1
    else if n < f then 1
    else if f < n then -1
    else inodeCompare fs ns

/-! ## The search -/

/-- `struct inode_search_s` -/
structure Desc where
  path : Path
  node : Forest
  peer : Option InodeId
  parent : Option InodeId
  relpath : Option Path
  linktgt : Option Path
  nofollow : Bool
  deriving DecidableEq

/-- `SETUP_SEARCH` -/
def Desc.setup (path : Path) (nofollow : Bool) : Desc :=
  { path := path, node := .nil, peer := none, parent := none, relpath := none, linktgt := none
    nofollow := nofollow }

/-- The walk along one list of siblings: the last inode passed, and the inode with the name (or
`nil`). -/
def scan (name : Path) (left : Option InodeId) : Forest → Option InodeId × Forest
  | .nil => (left, .nil)
  | .node i c p =>
    if inodeCompare name i.name < 0 then (left, .nil)
    else if inodeCompare name i.name > 0 then scan name (some i.ino) p
    else (left, .node i c p)

/-- `SYMLOOP_MAX` -/
def symloopMax : Nat := 8

/-- The loop of `_inode_linktarget`: `left` more links may be followed. -/
def linkLoop (search : Desc → Option (Int × Desc)) : Nat → Int → Forest → Desc → Option (Int × Desc)
  | left, ret, node, desc =>
    match node.inode?.bind Inode.link? with
    | none => some (ret, desc)
    | some link =>
      match search (.setup link true) with
      | none => none
      | some (ret, desc) =>
        if ret < 0 then some (ret, desc)
        else
          match left with
          | 0 => some (-ELOOP, desc)
          | left + 1 => linkLoop search left ret desc.node { desc with linktgt := some link }

/-- `_inode_linktarget` -/
def inodeLinktarget (search : Desc → Option (Int × Desc)) (node : Forest) (desc : Desc) :
    Option (Int × Desc) :=
  (linkLoop search symloopMax (-ENOENT) node desc).map fun r =>
    (r.1, { r.2 with nofollow := desc.nofollow })

/-- What `_inode_search` leaves in `desc` at its end. -/
def Desc.finish (desc : Desc) (path : Path) (node : Forest) (peer parent : Option InodeId)
    (relpath : Option Path) : Desc :=
  { desc with path := path, node := node, peer := peer, parent := parent, relpath := relpath }

/-- The loop of `_inode_search`, along the components of the path; `above` is the inode whose
children are searched. -/
def walk (search : Desc → Option (Int × Desc)) :
    List Path → Forest → Option InodeId → Desc → Option (Int × Desc)
  | [], _, above, desc => some (-ENOENT, desc.finish [] .nil none above none)
  | name :: more, siblings, above, desc =>
    match scan name none siblings with
    | (left, .nil) => some (-ENOENT, desc.finish name .nil left above none)
    | (left, .node i child peer) =>
      let next := more.headD []
      if more = [] ∨ i.isMountpt then
        some (OK, desc.finish next (.node i child peer) left above (some next))
      else
        match i.link? with
        | none => walk search more child (some i.ino) desc
        | some _ =>
          match inodeLinktarget search (.node i child peer) desc with
          | none => none
          | some (status, desc) =>
            if status < 0 then
              some (status, desc.finish next (.node i child peer) left above none)
            else
              match desc.node with
              | .nil => none
              | .node j jchild jpeer =>
                if j.ino ≠ i.ino ∧ j.isMountpt then
                  some (OK, desc.finish next (.node j jchild jpeer) none none (some next))
                else walk search more jchild (some j.ino) desc

/-- `_inode_search`, where the recursion may go `depth` deep -/
def inodeSearchAt (root : Forest) : Nat → Desc → Option (Int × Desc)
  | 0, _ => none
  | depth + 1, desc =>
    if desc.path.head? ≠ some '/' then some (-EINVAL, desc)
    else if names desc.path = [] then some (-ENOSYS, desc)
    else walk (inodeSearchAt root depth) (names desc.path) root none desc

variable (root : Forest) (memory : Bool) (depth : Nat)

/-- The first part of `inode_search`: a soft link at the end of the path is followed. The result
tells also whether the function returns at once. -/
def followTerminal (depth : Nat) (ret : Int) (desc : Desc) :
    Option (Bool × Int × Desc) :=
  if desc.nofollow = false ∧ (desc.node.inode?.bind Inode.link?).isSome then
    (inodeLinktarget (inodeSearchAt root depth) desc.node desc).map fun r =>
      if r.1 < 0 then (true, r.1, r.2)
      else if r.2.node.inode?.any Inode.isMountpt then
        (false, r.1, { r.2 with relpath := desc.relpath })
      else (false, r.1, r.2)
  else some (false, ret, desc)

/-- The path that replaces one that leads over a link into a mountpoint. -/
def expandedPath (linktgt : Path) (relpath : Option Path) : Path :=
  match relpath with
  | none => linktgt
  | some rel => if rel = [] then linktgt else linktgt ++ '/' :: rel

/-- The last part of `inode_search`: a mountpoint behind a link is looked up again by its own path.
`memory` tells whether the buffer for that path can be had. -/
def followMountpt (ret : Int) (desc : Desc) :
    Option (Int × Desc) :=
  match desc.linktgt with
  | none => some (ret, desc)
  | some linktgt =>
    if desc.node.inode?.any Inode.isMountpt then
      if memory then inodeSearchAt root depth (.setup (expandedPath linktgt desc.relpath) false)
      else some (-ENOMEM, desc)
    else some (ret, desc)

/-- `inode_search` -/
def inodeSearch (desc : Desc) : Option (Int × Desc) :=
  match inodeSearchAt root depth { desc with linktgt := none } with
  | none => none
  | some (ret, desc) =>
    if ret < 0 then some (ret, desc)
    else
      match followTerminal root depth ret desc with
      | none => none
      | some (true, ret, desc) => some (ret, desc)
      | some (false, ret, desc) => followMountpt root memory depth ret desc

/-! ## Inserting -/

/-- The tree and the next free address. -/
structure PseudoFs where
  root : Forest
  next : InodeId
  deriving DecidableEq

/-- A new inode: `kmm_zalloc` makes it a driver without references. -/
def newInode (ino : InodeId) (name : Path) : Inode := ⟨ino, component name, .driver, 0, false⟩

/-- `inode_insert` -/
def inodeInsert (x : Inode) (peer parent : Option InodeId) : Forest :=
  match peer, parent with
  | some peer, _ => root.insertAfter peer x
  | none, some parent => root.insertBelow parent x
  | none, none => .node x .nil root

/-- The loop of `inode_reserve`; `alloc` tells which of the allocations succeed, `more` are the
components after the one at `name`. The result is the new inode. -/
def reserveLoop (alloc : Nat → Bool) (s : PseudoFs) :
    Nat → Path → List Path → Option InodeId → Option InodeId → Int × Option InodeId × PseudoFs
  | n, name, more, left, parent =>
    if alloc n then
      let x := newInode s.next name
      let s := { s with root := inodeInsert s.root x left parent, next := s.next + 1 }
      match more with
      | [] => (OK, some x.ino, s)
      | name' :: more => reserveLoop alloc s (n + 1) name' more none (some x.ino)
    else (-ENOMEM, none, s)

/-- `inode_reserve`; `none` if the search does not end within `depth`. -/
def inodeReserve (alloc : Nat → Bool) (memory : Bool) (depth : Nat) (s : PseudoFs) (path : Path) :
    Option (Int × Option InodeId × PseudoFs) :=
  if path.head? ≠ some '/' then some (-EINVAL, none, s)
  else
    match inodeSearch s.root memory depth (.setup path false) with
    | none => none
    | some (ret, desc) =>
      if 0 ≤ ret then some (-EEXIST, none, s)
      else
        some (reserveLoop alloc s 0 desc.path (names (inodeNextname desc.path)) desc.peer
          desc.parent)

/-! ## Removing -/

/-- The step of `inode_unlink` that takes a node out of its list; `next` is its `i_peer`. -/
def takeOut (peer parent : Option InodeId) (next : Forest) : Forest :=
  match peer, parent with
  | some left, _ => root.setPeer left next
  | none, some parent => root.setChild parent next
  | none, none => next

/-- `inode_unlink`: the node with its children, and the tree without it -/
def inodeUnlink (memory : Bool) (depth : Nat) (root : Forest) (path : Path) :
    Option (Forest × Forest) :=
  if path.head? ≠ some '/' then some (.nil, root)
  else
    match inodeSearch root memory depth (.setup path true) with
    | none => none
    | some (ret, desc) =>
      if 0 ≤ ret then
        match desc.node with
        | .nil => none
        | .node i child peer =>
          some (.node i child .nil, takeOut root desc.peer desc.parent peer)
      else some (.nil, root)

end BaseNx.Fs
