import BaseNx.Lib.ChainTable
import BaseNx.Fs.FatVolume

/-!
# Cluster chains

The functions of `fs/fat/fs_fat32util.c` that make and cut cluster chains, on the table of
`FatVolume`: `fat_extendchain` follows a chain or puts a free cluster at its end, `fat_removechain`
frees a chain, and `fat_dirtruncate` and `fat_dirshrink` do so for the file of a directory entry
that `fs_buffer` holds.

`Consistent` is the table with the chains of all files. Extending keeps it and takes one free
cluster, and so does removing a chain; cutting a chain in `fat_dirshrink` does not, because the last
cluster that stays gets the entry of a free one.
-/

namespace BaseNx.Fs.Fat

open Lib List

section
variable (g : Geometry)

/-- The search loop of `fat_extendchain`. It ends after one round over the clusters at most: `fuel`
is never used up. -/
def findFree : Nat → Mount → Nat → Nat → Int × Mount
  | 0, m, _, _ => (0, m)
  | fuel + 1, m, newcluster, startcluster =>
    if g.nclusters ≤ newcluster + 1 ∧ 2 > startcluster then (0, m)
    else
      let newcluster := if g.nclusters ≤ newcluster + 1 then 2 else newcluster + 1
      let r := fatGetcluster g m newcluster
      if r.1 = 0 then (newcluster, r.2)
      else if r.1 < 0 then r
      else if newcluster = startcluster then (0, r.2)
      else findFree fuel r.2 newcluster startcluster

variable (m : Mount) (cluster : Nat)

/-- The end of `fat_extendchain`: `newcluster` becomes the next free hint and the count goes
down. -/
def Mount.took (newcluster : Nat) : Mount :=
  if m.fsifreecount ≠ 0xffffffff then
    { m with fsinextfree := newcluster, fsifreecount := sub32 m.fsifreecount 1, fsidirty := true }
  else { m with fsinextfree := newcluster }

/-- `fat_extendchain` from the search on. -/
def allocate (cluster startcluster : Nat) : Int × Mount :=
  let r := findFree g g.nclusters m startcluster startcluster
  if r.1 ≤ 0 then r
  else
    let newcluster := r.1.toNat
    let p := fatPutcluster g r.2 newcluster 0x0fffffff
    if p.1 < 0 then p
    else
      let q := if cluster ≠ 0 then fatPutcluster g p.2 cluster newcluster else p
      if q.1 < 0 then q else (newcluster, q.2.took newcluster)

/-- `fat_extendchain` -/
def fatExtendchain : Int × Mount :=
  if cluster = 0 then
    let startcluster :=
      if m.fsinextfree = 0 ∨ g.nclusters ≤ m.fsinextfree then 1 else m.fsinextfree
    allocate g m 0 startcluster
  else
    let r := fatGetcluster g m cluster
    if r.1 < 0 then r
    else if r.1 < 2 then (0, r.2)
    else if r.1 < g.nclusters then r
    else allocate g r.2 cluster cluster

/-- `fat_createchain` -/
def fatCreatechain : Int × Mount := fatExtendchain g m 0

/-- One more cluster is free. -/
def Mount.gave : Mount :=
  if m.fsifreecount ≠ 0xffffffff then
    { m with fsifreecount := u32 (m.fsifreecount + 1), fsidirty := true }
  else m

/-- The loop of `fat_removechain`. Every turn makes an entry zero, so that `fuel` is never used
up. -/
def removeLoop : Nat → Mount → Nat → Int × Mount
  | 0, m, _ => (OK, m)
  | fuel + 1, m, cluster =>
    if 2 ≤ cluster ∧ cluster < g.nclusters then
      let r := fatGetcluster g m cluster
      if r.1 < 0 then r
      else
        let p := fatPutcluster g r.2 cluster 0
        if p.1 < 0 then p else removeLoop fuel p.2.gave r.1.toNat
    else (OK, m)

/-- `fat_removechain` -/
def fatRemovechain : Int × Mount := removeLoop g (g.nclusters + 1) m cluster

/-- The start cluster in the directory entry at `direntry`. -/
def entryCluster (b : Sector) (direntry : Nat) : Nat :=
  65536 * getuint16 b (direntry + 20) + getuint16 b (direntry + 26)

/-- The file size, `FATATTR_ARCHIVE` and the time of writing go into the directory entry. The date
is `writetime > 16`, as in the source. -/
def stampEntry (b : Sector) (direntry length writetime : Nat) : Sector :=
  let b := putuint32 b (direntry + 28) length
  let b := Function.update b (direntry + 11) 0x20
  let b := putuint16 b (direntry + 22) (writetime % 65536)
  putuint16 b (direntry + 24) (if writetime > 16 then 1 else 0)

/-- `fs->fs_fsinextfree = cluster - 1` -/
def Mount.reuse : Mount := { m with fsinextfree := sub32 cluster 1 }

/-- `fat_dirtruncate` for the directory entry at `direntry` in `fs_buffer`. -/
def fatDirtruncate (direntry writetime : Nat) : Int × Mount :=
  let startcluster := entryCluster m.buffer direntry
  let b := putuint16 (putuint16 m.buffer (direntry + 20) 0) (direntry + 26) 0
  let m := (m.setBuffer (stampEntry b direntry 0 writetime)).markDirty
  let savesector := m.currentsector
  let r := fatRemovechain g m startcluster
  if r.1 < 0 then r else (OK, fatFscacheread g (r.2.reuse startcluster) savesector)

def clustersize : Nat := g.fatsecperclus * g.hwsectorsize

/-- The loop of `fat_dirshrink`. `remaining` goes down by a cluster in every turn, so that `fuel` is
never used up. -/
def shrinkLoop : Nat → Mount → Nat → Nat → Int → Int × Mount
  | 0, m, _, _, _ => (OK, m)
  | fuel + 1, m, lastcluster, cluster, remaining =>
    if 2 ≤ cluster ∧ cluster < g.nclusters then
      if remaining ≤ clustersize g then
        let p := fatPutcluster g m lastcluster 0
        if p.1 < 0 then p
        else
          let r := fatRemovechain g p.2 cluster
          if r.1 < 0 then r else (OK, r.2.reuse cluster)
      else
        let r := fatGetcluster g m cluster
        if r.1 < 0 then r else shrinkLoop fuel r.2 cluster r.1.toNat (remaining - clustersize g)
    else (OK, m)

/-- `fat_dirshrink` for the directory entry at `direntry` in `fs_buffer`. -/
def fatDirshrink (direntry length writetime : Nat) : Int × Mount :=
  let lastcluster := entryCluster m.buffer direntry
  let m := (m.setBuffer (stampEntry m.buffer direntry length writetime)).markDirty
  let r := fatGetcluster g m lastcluster
  if r.1 < 0 then r else shrinkLoop g (length + 1) r.2 lastcluster r.1.toNat length

/-! ### Consistent volumes -/

/-- The clusters of the data area. -/
def Valid (c : Nat) : Prop := 2 ≤ c ∧ c < g.nclusters

/-- The values that end a chain. -/
def IsEnd (e : Nat) : Prop := g.type.eof ≤ e

/-- The clusters with a zero entry. -/
def freeClusters : Finset Nat := (Finset.Ico 2 g.nclusters).filter fun c => entry g m c = 0

/-- The table holds the chains of `files` and nothing else, and the free count is unknown or
right. -/
structure Consistent (m : Mount) (files : List (List Nat)) : Prop where
  coherent : Coherent g m
  chains : Chains (entry g m) (IsEnd g) (Valid g) files
  count : m.fsifreecount = 0xffffffff ∨ m.fsifreecount = (freeClusters g m).card

end

section
variable {g : Geometry} {m m' : Mount} {files rest : List (List Nat)} {chain : List Nat}

theorem not_valid_zero : ¬ Valid g 0 := fun h => absurd h.1 (by norm_num)

theorem not_isEnd_zero : ¬ IsEnd g 0 := by
  intro h
  rw [IsEnd, FsType.eof] at h
  cases hg : g.type <;> rw [hg] at h <;> simp [FsType.span] at h

/-- A value that ends a chain is not a cluster. -/
theorem IsEnd.nclusters_le {e : Nat} (h : IsEnd g e) : g.nclusters ≤ e := by
  have hres := g.below_reserved
  rw [IsEnd, FsType.eof] at h
  rw [FsType.maxclust] at hres
  cases hg : g.type <;> rw [hg] at h hres <;> simp [FsType.span] at h hres <;> omega

theorem isEnd_eof : IsEnd g (0x0fffffff % g.type.span) := by
  rw [IsEnd, FsType.eof]
  cases g.type <;> simp [FsType.span]

variable {c : Nat}

/-- A cluster number fits an entry. -/
theorem Valid.mod_span (h : Valid g c) : c % g.type.span = c := by
  have hres := g.below_reserved
  have hlt := h.2
  rw [FsType.maxclust] at hres
  exact Nat.mod_eq_of_lt (by omega)

theorem Geometry.nclusters_lt (g : Geometry) : g.nclusters < 2 ^ 28 := by
  have hres := g.below_reserved
  rw [FsType.maxclust] at hres
  cases hg : g.type <;> rw [hg] at hres <;> simp [FsType.span] at hres <;> omega

theorem mem_freeClusters : c ∈ freeClusters g m ↔ Valid g c ∧ entry g m c = 0 := by
  rw [freeClusters, Finset.mem_filter, Finset.mem_Ico, Valid]

theorem mem_freeClusters_iff (h : Chains (entry g m) (IsEnd g) (Valid g) files) :
    c ∈ freeClusters g m ↔ Valid g c ∧ c ∉ files.flatten := by
  rw [mem_freeClusters]
  refine and_congr_right fun hv => ⟨fun h0 hc => ?_, h.free c hv⟩
  exact h.next_ne_zero not_valid_zero not_isEnd_zero hc h0

theorem freeClusters_card_le : (freeClusters g m).card ≤ g.nclusters - 2 := by
  rw [freeClusters]
  exact (Finset.card_filter_le _ _).trans (by simp)

theorem freeClusters_congr (h : ∀ c < g.nclusters, entry g m' c = entry g m c) :
    freeClusters g m' = freeClusters g m := by
  ext c
  rw [mem_freeClusters, mem_freeClusters]
  constructor <;> rintro ⟨hv, he⟩ <;> refine ⟨hv, ?_⟩
  · rw [← h c hv.2, he]
  · rw [h c hv.2, he]

theorem Consistent.perm {files' : List (List Nat)} (h : Consistent g m files)
    (hp : files.Perm files') :
    Consistent g m files' :=
  ⟨h.coherent, h.chains.perm hp, h.count⟩

theorem Consistent.looked (h : Consistent g m files)
    (hl : Looked g m m') : Consistent g m' files where
  coherent := hl.coherent h.coherent
  chains := h.chains.congr fun _ hv => hl.entry hv.2
  count := by
    rw [hl.freecount, freeClusters_congr fun c hc => hl.entry hc]
    exact h.count

theorem Consistent.valid (h : Consistent g m (chain :: rest)) (hc : c ∈ chain) : Valid g c :=
  h.chains.inside c (by simp [hc])

theorem Consistent.runs (h : Consistent g m (chain :: rest)) : Runs (entry g m) (IsEnd g) chain :=
  h.chains.runs chain mem_cons_self

/-! ### The search for a free cluster -/

/-- The clusters that the search has still to look at. -/
def Ahead (g : Geometry) (newcluster startcluster c : Nat) : Prop :=
  if newcluster < startcluster then newcluster < c ∧ c ≤ startcluster
  else (newcluster < c ∧ c < g.nclusters) ∨ (2 ≤ c ∧ c ≤ startcluster)

/-- What the search returns. -/
structure Found (g : Geometry) (m : Mount) (newcluster startcluster : Nat)
    (r : Int × Mount) : Prop where
  looked : Looked g m r.2
  result : (r.1 = 0 ∧ ∀ c, Valid g c → Ahead g newcluster startcluster c → entry g m c ≠ 0) ∨
    ∃ c : Nat, r.1 = c ∧ Valid g c ∧ entry g m c = 0

theorem findFree_spec : ∀ (fuel : Nat) (m : Mount) (new start : Nat), Coherent g m → 1 ≤ start →
    start < g.nclusters → 1 ≤ new → new < g.nclusters →
    (if new < start then start - new else g.nclusters - 1 - new + (start - 1)) < fuel →
    Found g m new start (findFree g fuel m new start)
  | 0, _, _, _, _, _, _, _, _, hf => absurd hf (by omega)
  | fuel + 1, m, new, start, hc, hs1, hsn, hn1, hnn, hf => by
    rw [findFree]
    by_cases hend : g.nclusters ≤ new + 1 ∧ 2 > start
    · rw [if_pos hend]
      refine ⟨.refl g m, .inl ⟨rfl, fun c hv ha => ?_⟩⟩
      rw [Ahead, if_neg (by omega)] at ha
      omega
    · rw [if_neg hend]
      dsimp only
      generalize hnext : (if g.nclusters ≤ new + 1 then 2 else new + 1) = next
      have hv : Valid g next := by
        rw [Valid]
        split at hnext <;> omega
      obtain ⟨hget, hl⟩ := getcluster_spec hc hv.1 hv.2
      rw [hget]
      by_cases hzero : entry g m next = 0
      · rw [hzero]
        exact ⟨hl, .inr ⟨next, rfl, hv, hzero⟩⟩
      rw [if_neg (by exact_mod_cast hzero), if_neg (by omega)]
      -- the clusters ahead are the next one and those ahead of it
      have hahead : ∀ c, Ahead g new start c → c = next ∨
          (next ≠ start ∧ Ahead g next start c) := by
        intro c ha
        unfold Ahead at ha ⊢
        split at hnext <;> split at ha <;> split <;> omega
      by_cases hstop : next = start
      · rw [if_pos hstop]
        refine ⟨hl, .inl ⟨rfl, fun c _ ha => ?_⟩⟩
        rcases hahead c ha with rfl | ⟨hne, -⟩
        · exact hzero
        · exact absurd hstop hne
      · rw [if_neg hstop]
        have hfuel :
          (if next < start then start - next else g.nclusters - 1 - next + (start - 1)) < fuel := by
          split at hnext <;> split at hf <;> split <;> omega
        obtain ⟨hl', hres⟩ := findFree_spec fuel (fatGetcluster g m next).2 next start
          (hl.coherent hc) hs1 hsn (by have := hv.1; omega) hv.2 hfuel
        refine ⟨hl.trans hl', ?_⟩
        rcases hres with ⟨h0, hnone⟩ | ⟨c, hcr, hcv, hce⟩
        · refine .inl ⟨h0, fun c hcv ha => ?_⟩
          rcases hahead c ha with rfl | ⟨-, ha⟩
          · exact hzero
          · rw [← hl.entry hcv.2]
            exact hnone c hcv ha
        · exact .inr ⟨c, hcr, hcv, by rw [← hl.entry hcv.2, hce]⟩

/-- The whole search: a free cluster, or zero when there is none. -/
theorem findFree_start (hc : Coherent g m) {start : Nat} (h1 : 1 ≤ start)
    (hn : start < g.nclusters) :
    let r := findFree g g.nclusters m start start
    Looked g m r.2 ∧ ((r.1 = 0 ∧ freeClusters g m = ∅) ∨
      ∃ c : Nat, r.1 = c ∧ c ∈ freeClusters g m) := by
  obtain ⟨hl, hres⟩ := findFree_spec g.nclusters m start start hc h1 hn h1 hn (by
    rw [if_neg (by omega)]
    omega)
  refine ⟨hl, ?_⟩
  rcases hres with ⟨h0, hnone⟩ | ⟨c, hcr, hcv, hce⟩
  · refine .inl ⟨h0, Finset.eq_empty_of_forall_notMem fun c hcmem => ?_⟩
    obtain ⟨hcv, hce⟩ := mem_freeClusters.1 hcmem
    refine hnone c hcv ?_ hce
    rw [Ahead, if_neg (by omega)]
    have := hcv.1
    have := hcv.2
    omega
  · exact .inr ⟨c, hcr, mem_freeClusters.2 ⟨hcv, hce⟩⟩

/-! ### Extending a chain -/

/-- The free count and the hint are not part of the volume. -/
structure SameVolume (m m' : Mount) : Prop where
  sectors : m'.sectors = m.sectors
  buffer : m'.buffer = m.buffer
  current : m'.currentsector = m.currentsector
  dirty : m'.dirty = m.dirty

theorem took_same (m : Mount) (c : Nat) : SameVolume m (m.took c) := by
  rw [Mount.took]
  split <;> exact ⟨rfl, rfl, rfl, rfl⟩

theorem gave_same (m : Mount) : SameVolume m m.gave := by
  rw [Mount.gave]
  split <;> exact ⟨rfl, rfl, rfl, rfl⟩

theorem reuse_same (m : Mount) (c : Nat) : SameVolume m (m.reuse c) := by
  unfold Mount.reuse
  exact ⟨rfl, rfl, rfl, rfl⟩

theorem SameVolume.fatByte (h : SameVolume m m') (o : Nat) : fatByte g m' o = fatByte g m o := by
  rw [Fat.fatByte, Fat.fatByte, Mount.view, Mount.view, h.sectors, h.buffer, h.current]

theorem SameVolume.entry (h : SameVolume m m') (c : Nat) : entry g m' c = entry g m c := by
  rw [Fat.entry, Fat.entry, funext h.fatByte]

theorem SameVolume.quiet (h : SameVolume m m') : Quiet g m m' where
  coherent hc := by
    intro hd hlt
    rw [h.buffer, h.sectors, h.current]
    exact hc (h.dirty ▸ hd) (h.current ▸ hlt)
  mirrored hm := by
    refine ⟨fun s hs hne => ?_, fun hd => ?_⟩
    · rw [h.sectors]
      exact hm.copies s hs fun hd => h.current ▸ hne (h.dirty.trans hd)
    · rw [h.current]
      exact hm.dirty (h.dirty ▸ hd)

/-- The last cluster of a chain, or zero for an empty one. -/
def lastCluster (chain : List Nat) : Nat := chain.getLast?.getD 0

theorem mem_getLast?_iff {a : Nat} (hne : chain ≠ []) :
    a ∈ chain.getLast? ↔ a = lastCluster chain := by
  rw [lastCluster, getLast?_eq_some_getLast hne, Option.getD_some, Option.mem_some_iff]
  exact eq_comm

theorem lastCluster_mem (hne : chain ≠ []) : lastCluster chain ∈ chain := by
  rw [lastCluster, getLast?_eq_some_getLast hne]
  exact getLast_mem hne

@[simp] theorem lastCluster_nil : lastCluster [] = 0 := rfl

section

variable (h : Consistent g m (chain :: rest))
include h

theorem Consistent.lastCluster_valid (hne : chain ≠ []) : Valid g (lastCluster chain) :=
  h.valid (lastCluster_mem hne)

theorem Consistent.lastCluster_eq_zero : lastCluster chain = 0 ↔ chain = [] := by
  constructor
  · intro h0
    by_contra hne
    exact not_valid_zero (h0 ▸ h.lastCluster_valid hne)
  · rintro rfl
    rfl

theorem Consistent.not_free (hc : c ∈ chain) : c ∉ freeClusters g m := fun hfree =>
  ((mem_freeClusters_iff h.chains).1 hfree).2 (by simp [hc])

end

/-- The table after a cluster has been taken for the end of a chain. -/
structure Taken (g : Geometry) (tail c : Nat) (m m' : Mount) : Prop extends Quiet g m m' where
  entry : ∀ x, Valid g x → entry g m' x =
    if x = tail then c else if x = c then 0x0fffffff % g.type.span else Fat.entry g m x
  count :
    m'.fsifreecount = if m.fsifreecount ≠ 0xffffffff then sub32 m.fsifreecount 1 else m.fsifreecount

theorem Consistent.take (h : Consistent g m (chain :: rest)) (hc : c ∈ freeClusters g m)
    (ht : Taken g (lastCluster chain) c m m') :
    Consistent g m' ((chain ++ [c]) :: rest) ∧ freeClusters g m' = (freeClusters g m).erase c := by
  obtain ⟨hcv, hce⟩ := mem_freeClusters.1 hc
  have hne : c ≠ lastCluster chain := by
    rintro rfl
    by_cases hnil : chain = []
    · subst hnil
      exact not_valid_zero hcv
    · exact h.not_free (lastCluster_mem hnil) hc
  have hchains : Chains (entry g m') (IsEnd g) (Valid g) ((chain ++ [c]) :: rest) := by
    refine h.chains.concat not_valid_zero not_isEnd_zero hcv hce (fun a ha => ?_) ?_
      fun a hav ha hac => ?_
    · have hmem := mem_of_getLast? ha
      rw [ht.entry a (h.valid hmem), if_pos ((mem_getLast?_iff (ne_nil_of_mem hmem)).1 ha)]
    · rw [ht.entry c hcv, if_neg hne, if_pos rfl]
      exact isEnd_eof
    · rw [ht.entry a hav, if_neg, if_neg hac]
      rintro rfl
      by_cases hnil : chain = []
      · subst hnil
        exact not_valid_zero hav
      · exact ha ((mem_getLast?_iff hnil).2 rfl)
  have hfree : freeClusters g m' = (freeClusters g m).erase c := by
    ext x
    rw [Finset.mem_erase, mem_freeClusters_iff hchains, mem_freeClusters_iff h.chains]
    simp only [flatten_cons, mem_append, mem_singleton, not_or]
    tauto
  refine ⟨⟨ht.coherent h.coherent, hchains, ?_⟩, hfree⟩
  rw [ht.count, hfree, Finset.card_erase_of_mem hc]
  rcases h.count with hunk | hcard
  · exact .inl (by rw [if_neg (by simpa using hunk), hunk])
  · have hle := freeClusters_card_le (g := g) (m := m)
    have hlt := g.nclusters_lt
    have hpos : 0 < (freeClusters g m).card := Finset.card_pos.2 ⟨c, hc⟩
    right
    rw [if_pos (by omega), sub32_eq_self (by omega) (by omega), hcard]

/-- The old end of a chain gets its successor, if there is one. -/
theorem putcluster_tail {p : Int × Mount} (hok : p.1 = OK) (hc : Coherent g p.2) {tail : Nat}
    (ht : tail ≠ 0 → Valid g tail) (hcv : Valid g c) :
    let q := if tail ≠ 0 then fatPutcluster g p.2 tail c else p
    q.1 = OK ∧ Quiet g p.2 q.2 ∧ q.2.fsifreecount = p.2.fsifreecount ∧
      ∀ x, Valid g x → entry g q.2 x = if x = tail then c else entry g p.2 x := by
  by_cases h0 : tail = 0
  · rw [if_neg (not_not.2 h0)]
    refine ⟨hok, .refl g p.2, rfl, fun x hx => (if_neg ?_).symm⟩
    rintro rfl
    exact not_valid_zero (h0 ▸ hx)
  · have hv := ht h0
    obtain ⟨hok', hput⟩ := putcluster_spec hc hv.1 hv.2 c
    rw [if_pos h0]
    exact ⟨hok', hput.toQuiet, hput.freecount, fun x hx => by rw [hput.entry x hx.2, hcv.mod_span]⟩

/-- `fat_extendchain` from the search on takes a free cluster if there is one. -/
theorem allocate_spec (h : Consistent g m (chain :: rest)) {start : Nat} (h1 : 1 ≤ start)
    (hn : start < g.nclusters) :
    let r := allocate g m (lastCluster chain) start
    (r.1 = 0 ∧ freeClusters g m = ∅ ∧ Looked g m r.2) ∨
      ∃ c : Nat, r.1 = c ∧ c ∈ freeClusters g m ∧ Taken g (lastCluster chain) c m r.2 := by
  obtain ⟨hl, ⟨h0, hnone⟩ | ⟨c, hcr, hcmem⟩⟩ := findFree_start h.coherent h1 hn
  · left
    rw [allocate]
    rw [if_pos (by omega)]
    exact ⟨h0, hnone, hl⟩
  · right
    obtain ⟨hcv, hce⟩ := mem_freeClusters.1 hcmem
    have hpos : ¬ (c : Int) ≤ 0 := by
      have := hcv.1
      omega
    have hc := hl.coherent h.coherent
    obtain ⟨hok, hput⟩ := putcluster_spec hc hcv.1 hcv.2 0x0fffffff
    obtain ⟨hok2, hq2, hcount2, hentry2⟩ := putcluster_tail hok (hput.coherent hc)
      (fun hne => h.lastCluster_valid (mt h.lastCluster_eq_zero.2 hne)) hcv
    refine ⟨c, ?_⟩
    rw [allocate]
    dsimp only
    rw [hcr, if_neg hpos, Int.toNat_natCast, hok, if_neg (by decide), hok2, if_neg (by decide)]
    generalize (if lastCluster chain ≠ 0 then _ else _ : Int × Mount) = q at hq2 hcount2 hentry2 ⊢
    have hs := took_same q.2 c
    refine ⟨rfl, hcmem, ⟨((hl.toQuiet.trans hput.toQuiet).trans hq2).trans hs.quiet,
      fun x hx => ?_, ?_⟩⟩
    · rw [hs.entry, hentry2 x hx, hput.entry x hx.2, hl.entry hx.2]
    · rw [Mount.took, hcount2, hput.freecount, hl.freecount]
      split <;> rfl

theorem Looked.taken {m'' : Mount} {tail : Nat} (hl : Looked g m m') (ht : Taken g tail c m' m'') :
    Taken g tail c m m'' :=
  ⟨hl.toQuiet.trans ht.toQuiet, fun x hx => by rw [ht.entry x hx, hl.entry hx.2],
    by rw [ht.count, hl.freecount]⟩

/-- `fat_extendchain` on the last cluster of a chain, or on zero for a new chain. -/
theorem extendchain_last (h : Consistent g m (chain :: rest)) :
    let r := fatExtendchain g m (lastCluster chain)
    (r.1 = 0 ∧ freeClusters g m = ∅ ∧ Looked g m r.2) ∨
      ∃ c : Nat, r.1 = c ∧ c ∈ freeClusters g m ∧ Taken g (lastCluster chain) c m r.2 := by
  by_cases hnil : chain = []
  · subst hnil
    rw [lastCluster_nil, fatExtendchain, if_pos rfl]
    have htwo := g.two_le
    -- a bad hint sends the search to the beginning
    have hstart :
      1 ≤ (if m.fsinextfree = 0 ∨ g.nclusters ≤ m.fsinextfree then 1 else m.fsinextfree) ∧
        (if m.fsinextfree = 0 ∨ g.nclusters ≤ m.fsinextfree then 1
          else m.fsinextfree) < g.nclusters := by
      split <;> omega
    exact allocate_spec h hstart.1 hstart.2
  · have hv := h.lastCluster_valid hnil
    obtain ⟨hget, hl⟩ := getcluster_spec h.coherent hv.1 hv.2
    have hend : g.nclusters ≤ entry g m (lastCluster chain) :=
      (h.runs.last _ ((mem_getLast?_iff hnil).2 rfl)).nclusters_le
    have hlt := hv.2
    have hge := hv.1
    rw [fatExtendchain, if_neg (by omega)]
    dsimp only
    rw [hget, if_neg (by omega), if_neg (by omega), if_neg (by exact_mod_cast not_lt.2 hend)]
    have hfree : freeClusters g (fatGetcluster g m (lastCluster chain)).2 = freeClusters g m :=
      freeClusters_congr fun c hc => hl.entry hc
    rcases allocate_spec (h.looked hl) (by omega) hv.2 with ⟨h0, hnone, hl'⟩ | ⟨c, hc, hmem, ht⟩
    · exact .inl ⟨h0, hfree ▸ hnone, hl.trans hl'⟩
    · exact .inr ⟨c, hc, hfree ▸ hmem, hl.taken ht⟩

/-! ### Removing a chain -/

/-- The first cluster of a chain, or zero for an empty one. -/
def firstCluster (chain : List Nat) : Nat := chain.head?.getD 0

/-- One turn of the loop of `fat_removechain`: the first cluster of the chain becomes free. -/
theorem Consistent.free_first {a : Nat} (h : Consistent g m ((a :: chain) :: rest))
    (hq : Quiet g m m') (hzero : entry g m' a = 0)
    (hother : ∀ b < g.nclusters, b ≠ a → entry g m' b = entry g m b) (hcount : m'.fsifreecount
      = if m.fsifreecount ≠ 0xffffffff then u32 (m.fsifreecount + 1) else m.fsifreecount) :
    Consistent g m' (chain :: rest) := by
  have hchains := h.chains.uncons hzero fun b hb hne => hother b hb.2 hne
  have hfree : freeClusters g m' = insert a (freeClusters g m) := by
    have hv := h.valid (mem_cons_self : a ∈ a :: chain)
    have ha := (mem_freeClusters_iff hchains).1 (mem_freeClusters.2 ⟨hv, hzero⟩)
    ext b
    rw [Finset.mem_insert, mem_freeClusters_iff hchains, mem_freeClusters_iff h.chains,
      flatten_cons, flatten_cons, cons_append, mem_cons, not_or]
    by_cases hne : b = a
    · subst hne
      simpa using ha
    · simp [hne]
  refine ⟨hq.coherent h.coherent, hchains, ?_⟩
  rw [hfree, Finset.card_insert_of_notMem (h.not_free mem_cons_self), hcount]
  rcases h.count with hunk | hcard
  · exact .inl (by rw [if_neg (by simpa using hunk), hunk])
  · have hle := freeClusters_card_le (g := g) (m := m)
    have hlt := g.nclusters_lt
    exact .inr (by rw [if_pos (by omega), u32_eq_self (by omega), hcard])

theorem removeLoop_spec : ∀ (fuel : Nat) (chain : List Nat) (m : Mount),
    Consistent g m (chain :: rest) → chain.length < fuel →
    let r := removeLoop g fuel m (firstCluster chain)
    r.1 = OK ∧ Consistent g r.2 rest ∧ Quiet g m r.2
  | 0, _, _, _, hf => absurd hf (Nat.not_lt_zero _)
  | fuel + 1, [], m, h, _ => by
    rw [removeLoop, if_neg (fun h => absurd h.1 (by simp [firstCluster]))]
    exact ⟨rfl, ⟨h.coherent, chains_nil_cons.1 h.chains, h.count⟩, .refl g m⟩
  | fuel + 1, a :: chain, m, h, hf => by
    have hv : 2 ≤ a ∧ a < g.nclusters := h.valid (mem_cons_self : a ∈ a :: chain)
    obtain ⟨hget, hl⟩ := getcluster_spec h.coherent hv.1 hv.2
    obtain ⟨hok, hput⟩ := putcluster_spec (hl.coherent h.coherent) hv.1 hv.2 0
    rw [firstCluster, head?_cons, Option.getD_some, removeLoop, if_pos hv]
    dsimp only
    rw [hget, if_neg (by omega), hok, if_neg (by decide), Int.toNat_natCast]
    generalize hm' : (fatPutcluster g (fatGetcluster g m a).2 a 0).2.gave = m'
    have hs : SameVolume _ m' := hm' ▸ gave_same (fatPutcluster g (fatGetcluster g m a).2 a 0).2
    have hq : Quiet g m m' := (hl.toQuiet.trans hput.toQuiet).trans hs.quiet
    have hzero : entry g m' a = 0 := by
      rw [hs.entry, hput.entry a hv.2, if_pos rfl, Nat.zero_mod]
    have hother : ∀ b < g.nclusters, b ≠ a → entry g m' b = entry g m b := by
      intro b hb hne
      rw [hs.entry, hput.entry b hb, if_neg hne, hl.entry hb]
    have hcount : m'.fsifreecount
        = if m.fsifreecount ≠ 0xffffffff then u32 (m.fsifreecount + 1) else m.fsifreecount := by
      rw [← hm', Mount.gave, ← hl.freecount, ← hput.freecount]
      split <;> rfl
    have hcons := h.free_first hq hzero hother hcount
    -- the entry read before it was made zero is the next cluster, or one that stops the loop
    have hnext : removeLoop g fuel m' (entry g m a) =
        removeLoop g fuel m' (firstCluster chain) := by
      cases chain with
      | nil =>
        have hend := (h.runs.last a (by simp)).nclusters_le
        cases fuel with
        | zero => rfl
        | succ fuel =>
          rw [removeLoop, removeLoop, if_neg (by omega), if_neg (by simp [firstCluster])]
      | cons b chain =>
        have := h.runs.next_getElem (i := 0) (by simp)
        rw [show entry g m a = b from this]
        rfl
    obtain ⟨hres, hcons', hq'⟩ := removeLoop_spec fuel chain m' hcons (by simpa using hf)
    rw [hnext]
    exact ⟨hres, hcons', hq.trans hq'⟩

theorem removechain_spec (h : Consistent g m (chain :: rest)) :
    let r := fatRemovechain g m (firstCluster chain)
    r.1 = OK ∧ Consistent g r.2 rest ∧ Quiet g m r.2 := by
  refine removeLoop_spec (g.nclusters + 1) chain m h ?_
  have hnodup : chain.Nodup := by
    have := h.chains.nodup
    exact (nodup_append.1 this).1
  have hsub : chain.toFinset ⊆ Finset.range g.nclusters := fun c hc =>
    Finset.mem_range.2 (h.valid (mem_toFinset.1 hc)).2
  have hcard := Finset.card_le_card hsub
  rw [toFinset_card_of_nodup hnodup, Finset.card_range] at hcard
  omega

end

end BaseNx.Fs.Fat
