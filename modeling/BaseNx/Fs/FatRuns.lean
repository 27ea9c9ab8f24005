import BaseNx.Lib.Reach
import BaseNx.Fs.FatChain

/-!
# Runs over the chains of a volume

A volume with the chains of its files, and the calls that change them: `fat_extendchain` on the last
cluster of a chain or on zero, `fat_removechain` of a whole chain, `fat_dirtruncate`,
`fat_dirshrink` and `fat_fscacheflush`. `perform` runs the code and says which chains there should
be afterwards.

On every run on which `fat_dirshrink` has no cluster to cut off, the volume stays consistent and the
copies of the table agree after a flush. `fat_dirshrink` makes the last cluster that stays free, and
the next `fat_extendchain` gives it away a second time.
-/

namespace BaseNx.Fs.Fat

open Lib List

/-- The volume and the chain of every file. The list of chains is not in the source. -/
structure Volume where
  mount : Mount
  files : List (List Nat)

/-- The calls. A directory entry is given by its sector, which is read into `fs_buffer` first, and
its place there. -/
inductive Call where
  | extend (i : Nat)
  | create
  | remove (i : Nat)
  | truncate (i : Nat) (sector : Int) (direntry writetime : Nat)
  | shrink (i : Nat) (sector : Int) (direntry length writetime : Nat)
  | flush

section
variable (g : Geometry)

/-- The clusters that `length` bytes take. -/
def clustersFor (length : Nat) : Nat := (length + clustersize g - 1) / clustersize g

variable (v : Volume) (i : Nat)

def Volume.chain : List Nat := v.files.getD i []

/-- The chains after `fat_extendchain` has returned `r`. -/
def extended (files : List (List Nat)) (i : Nat) (chain : List Nat) (r : Int) : List (List Nat) :=
  if r ≤ 0 then files else files.set i (chain ++ [r.toNat])

def Volume.perform : Call → Volume
  | .extend i =>
    let r := fatExtendchain g v.mount (lastCluster (v.chain i))
    ⟨r.2, extended v.files i (v.chain i) r.1⟩
  | .create =>
    let r := fatCreatechain g v.mount
    ⟨r.2, extended (v.files ++ [[]]) v.files.length [] r.1⟩
  | .remove i => ⟨(fatRemovechain g v.mount (firstCluster (v.chain i))).2, v.files.set i []⟩
  | .truncate i sector direntry writetime =>
    ⟨(fatDirtruncate g (fatFscacheread g v.mount sector) direntry writetime).2, v.files.set i []⟩
  | .shrink i sector direntry length writetime =>
    ⟨(fatDirshrink g (fatFscacheread g v.mount sector) direntry length writetime).2,
      v.files.set i ((v.chain i).take (clustersFor g length))⟩
  | .flush => ⟨fatFscacheflush g v.mount, v.files⟩

/-- A sector outside the tables holds the directory entry of file `i`. -/
def HasEntry (sector : Int) (direntry : Nat) : Prop :=
  i < v.files.length ∧
  (sector < g.fatbase ∨ g.fatbase + g.fatnumfats * g.nfatsects ≤ sector) ∧
  entryCluster (fatFscacheread g v.mount sector).buffer direntry = firstCluster (v.chain i)

/-- The calls on existing files; `fat_dirshrink` is for files with data and a length above zero. -/
def Enabled : Call → Prop
  | .extend i => i < v.files.length
  | .create => True
  | .remove i => i < v.files.length
  | .truncate i sector direntry _ => HasEntry g v i sector direntry
  | .shrink i sector direntry length _ => HasEntry g v i sector direntry ∧ v.chain i ≠ [] ∧
      0 < length
  | .flush => True

/-- The calls that leave `fat_dirshrink` nothing to cut off. -/
def Orderly (a : Call) : Prop :=
  Enabled g v a ∧
  match a with
  | .shrink i _ _ length _ => (v.chain i).length ≤ clustersFor g length
  | _ => True

instance (v : Volume) (i : Nat) (sector : Int) (direntry : Nat) :
    Decidable (HasEntry g v i sector direntry) := by
  unfold HasEntry
  infer_instance

instance (v : Volume) (a : Call) : Decidable (Enabled g v a) := by
  cases a <;> unfold Enabled <;> infer_instance

instance (v : Volume) (a : Call) : Decidable (Orderly g v a) := by
  cases a <;> unfold Orderly <;> infer_instance

/-- The runs from the volume `v₀`. -/
def OrderlyRun (v₀ : Volume) : Volume → Prop :=
  Reach (· = v₀) (LabelledStep (Orderly g) fun v a => some (v.perform g a))

/-- All copies of the table are equal. -/
def CopiesEqual (m : Mount) : Prop :=
  ∀ s, Primary g s → ∀ k < g.fatnumfats, m.sectors (s + k * g.nfatsects) = m.sectors s

/-- A consistent volume with equal copies of the table, up to the buffer. -/
structure Sound (v : Volume) : Prop where
  consistent : Consistent g v.mount v.files
  mirrored : Mirrored g v.mount

end

variable {i direntry : Nat} {chain : List Nat} {m : Mount}

section
variable {g : Geometry} {v : Volume} {files : List (List Nat)}

theorem Volume.chain_eq (hi : i < v.files.length) : v.chain i = v.files[i] := by
  simp [Volume.chain, hi]

theorem Consistent.focus (h : Consistent g v.mount v.files) (hi : i < v.files.length) :
    Consistent g v.mount (v.chain i :: v.files.eraseIdx i) := by
  rw [Volume.chain_eq hi]
  exact h.perm (getElem_cons_eraseIdx_perm hi).symm

theorem Consistent.unfocus (hi : i < files.length)
    (h : Consistent g m (chain :: files.eraseIdx i)) : Consistent g m (files.set i chain) :=
  h.perm (set_perm_cons_eraseIdx hi chain).symm

theorem Consistent.nil_cons (h : Consistent g m files) : Consistent g m ([] :: files) :=
  ⟨h.coherent, chains_nil_cons.2 h.chains, h.count⟩

/-- What `fat_extendchain` does at the end of a chain. -/
theorem Sound.extend (h : Sound g v) (hi : i < v.files.length) :
    let r := fatExtendchain g v.mount (lastCluster (v.chain i))
    Sound g ⟨r.2, extended v.files i (v.chain i) r.1⟩ ∧
      ((r.1 = 0 ∧ freeClusters g v.mount = ∅) ∨
        ∃ c ∈ freeClusters g v.mount, r.1 = c ∧
        Consistent g r.2 (v.files.set i (v.chain i ++ [c]))) := by
  have hf := h.consistent.focus hi
  rcases extendchain_last hf with ⟨h0, hnone, hl⟩ | ⟨c, hc, hmem, ht⟩
  · refine ⟨⟨?_, hl.mirrored h.mirrored⟩, .inl ⟨h0, hnone⟩⟩
    rw [extended, if_pos h0.le]
    exact h.consistent.looked hl
  · have hcons := (hf.take hmem ht).1.unfocus hi
    have hpos : ¬ (c : Int) ≤ 0 := by
      have := (mem_freeClusters.1 hmem).1.1
      omega
    refine ⟨⟨?_, ht.mirrored h.mirrored⟩, .inr ⟨c, hmem, hc, hcons⟩⟩
    rw [hc, extended, if_neg hpos]
    exact hcons

/-- A file without clusters does not matter. -/
theorem Sound.addEmpty (h : Sound g v) : Sound g ⟨v.mount, v.files ++ [[]]⟩ :=
  ⟨h.consistent.nil_cons.perm (perm_append_singleton [] v.files).symm, h.mirrored⟩

theorem Sound.remove (h : Sound g v) (hi : i < v.files.length) :
    Sound g ⟨(fatRemovechain g v.mount (firstCluster (v.chain i))).2, v.files.set i []⟩ := by
  obtain ⟨-, hcons, hq⟩ := removechain_spec (h.consistent.focus hi)
  exact ⟨hcons.nil_cons.unfocus hi, hq.mirrored h.mirrored⟩

theorem Sound.looked (h : Sound g v) (hl : Looked g v.mount m) : Sound g ⟨m, v.files⟩ :=
  ⟨h.consistent.looked hl, hl.mirrored h.mirrored⟩

/-! ### Directory entries -/

/-- A sector outside the tables. -/
def Outside (g : Geometry) (s : Int) : Prop :=
  s < g.fatbase ∨ g.fatbase + g.fatnumfats * g.nfatsects ≤ s

theorem Outside.not_primary {s : Int} (h : Outside g s) : ¬ Primary g s := by
  rintro ⟨h1, h2⟩
  have hle : (g.nfatsects : Int) ≤ g.fatnumfats * g.nfatsects := by
    have := Nat.le_mul_of_pos_left g.nfatsects g.one_fat
    exact_mod_cast this
  rcases h with h | h <;> omega

theorem Sound.editEntry (h : Sound g v) (hout : Outside g v.mount.currentsector) (b : Sector) :
    Sound g ⟨(v.mount.setBuffer b).markDirty, v.files⟩ := by
  refine h.looked (looked_of_view ⟨fun _ hd => (by cases hd), fun hm => ?_⟩ (fun t ht => ?_) rfl)
  · exact ⟨fun s hs _ => hm.copies s hs fun _ heq => hout.not_primary (heq ▸ hs),
      fun _ => .inr hout⟩
  · have hne : t ≠ v.mount.currentsector := fun heq => hout.not_primary (heq ▸ ht)
    rw [Mount.view, Mount.view, if_neg hne]
    exact if_neg hne

theorem Sound.same (h : Sound g v) (hs : SameVolume v.mount m)
    (hcount : m.fsifreecount = v.mount.fsifreecount) : Sound g ⟨m, v.files⟩ :=
  h.looked ⟨hs.quiet, fun o _ => hs.fatByte o, hcount⟩

theorem Sound.truncate (h : Sound g v) (hi : i < v.files.length)
    (hout : Outside g v.mount.currentsector)
    (hfirst : entryCluster v.mount.buffer direntry = firstCluster (v.chain i)) (writetime : Nat) :
    Sound g ⟨(fatDirtruncate g v.mount direntry writetime).2, v.files.set i []⟩ := by
  rw [fatDirtruncate, hfirst]
  generalize stampEntry (putuint16 (putuint16 v.mount.buffer (direntry + 20) 0) (direntry + 26) 0)
    direntry 0 writetime = b
  have hedit := h.editEntry hout b
  have hok : (fatRemovechain g (v.mount.setBuffer b).markDirty (firstCluster (v.chain i))).1 = OK :=
    (removechain_spec (hedit.consistent.focus hi)).1
  have hreuse := (hedit.remove hi).same (reuse_same _ (firstCluster (v.chain i)))
    (by unfold Mount.reuse; rfl)
  rw [hok, if_neg (by decide)]
  exact hreuse.looked (fscacheread_looked hreuse.consistent.coherent _)

/-- The loop of `fat_dirshrink` over a chain that is kept whole only reads. -/
theorem shrinkLoop_keeps {rest : List (List Nat)} :
    ∀ (fuel : Nat) (m : Mount) (i : Nat) (hi : i < chain.length) (remaining : Int),
    Consistent g m (chain :: rest) →
    ((chain.length - 1 - i : Nat) : Int) * clustersize g < remaining →
    chain.length - i ≤ fuel →
    Looked g m (shrinkLoop g fuel m chain[i] (entry g m chain[i]) remaining).2
  | 0, _, _, hi, _, _, _, hf => absurd hf (by omega)
  | fuel + 1, m, i, hi, remaining, h, hrem, hf => by
    rw [shrinkLoop]
    by_cases hlast : i + 1 < chain.length
    · have hnext := h.runs.next_getElem hlast
      have hv := h.valid (getElem_mem hlast)
      have hsucc : chain.length - 1 - i = (chain.length - 1 - (i + 1)) + 1 := by omega
      rw [hsucc] at hrem
      push_cast at hrem
      have hnn :
        (0 : Int) ≤ ((chain.length - 1 - (i + 1) : Nat) : Int) * clustersize g := by positivity
      have hexp : (((chain.length - 1 - (i + 1) : Nat) : Int) + 1) * clustersize g
          = ((chain.length - 1 - (i + 1) : Nat) : Int) * clustersize g + clustersize g := by ring
      obtain ⟨hget, hl⟩ := getcluster_spec h.coherent hv.1 hv.2
      rw [hnext, if_pos (show 2 ≤ chain[i + 1] ∧ chain[i + 1] < g.nclusters from hv),
        if_neg (by linarith)]
      dsimp only
      rw [hget, if_neg (by omega), Int.toNat_natCast]
      have ih := shrinkLoop_keeps fuel (fatGetcluster g m chain[i + 1]).2 (i + 1) hlast
        (remaining - clustersize g) (h.looked hl) (by linarith) (by omega)
      rw [hl.entry hv.2] at ih
      exact hl.trans ih
    · have hend := (h.runs.ends_getElem (by omega : i + 1 = chain.length)).nclusters_le
      have hend' : g.nclusters ≤ entry g m chain[i] := hend
      rw [if_neg (by omega)]
      exact .refl g m

theorem Sound.shrink (h : Sound g v) (hi : i < v.files.length)
    (hout : Outside g v.mount.currentsector)
    (hfirst : entryCluster v.mount.buffer direntry = firstCluster (v.chain i))
    (hne : v.chain i ≠ []) {length : Nat} (hkeep : (v.chain i).length ≤ clustersFor g length)
    (writetime : Nat) :
    Sound g ⟨(fatDirshrink g v.mount direntry length writetime).2,
      v.files.set i ((v.chain i).take (clustersFor g length))⟩ := by
  have hset : v.files.set i ((v.chain i).take (clustersFor g length)) = v.files := by
    rw [take_of_length_le hkeep, Volume.chain_eq hi, set_getElem_self]
  rw [hset, fatDirshrink, hfirst]
  have hedit := h.editEntry hout (stampEntry v.mount.buffer direntry length writetime)
  have hf := hedit.consistent.focus hi
  have hlen : 0 < (v.chain i).length := length_pos_iff.2 hne
  have hhead : firstCluster (v.chain i) = (v.chain i)[0] := by
    rw [firstCluster, head?_eq_getElem?, getElem?_eq_getElem hlen, Option.getD_some]
  have hv : Valid g (v.chain i)[0] := hf.valid (getElem_mem hlen)
  obtain ⟨hget, hl⟩ := getcluster_spec hedit.consistent.coherent hv.1 hv.2
  -- all clusters but the last are full in the new length
  have hcs : 0 < clustersize g := mul_pos g.secperclus_pos g.sectorsize_pos
  have hmul := (Nat.le_div_iff_mul_le hcs).1 hkeep
  have hsplit : (v.chain i).length * clustersize g
      = ((v.chain i).length - 1) * clustersize g + clustersize g := by
    rw [← Nat.succ_mul]
    congr 1
    omega
  have hfull : ((v.chain i).length - 1) * clustersize g < length := by omega
  have hfuel : (v.chain i).length ≤ length := by
    have := Nat.le_mul_of_pos_right ((v.chain i).length - 1) hcs
    omega
  have hloop := shrinkLoop_keeps (length + 1) _ 0 hlen length (hf.looked hl)
    (by exact_mod_cast hfull)
    (by omega)
  rw [hl.entry hv.2] at hloop
  rw [hhead, show (fatGetcluster g ((v.mount.setBuffer (stampEntry v.mount.buffer direntry length
    writetime)).markDirty) (v.chain i)[0]).1 = _ from hget, if_neg (by omega), Int.toNat_natCast]
  exact (hedit.looked hl).looked hloop

/-! ### Runs -/

theorem fscacheread_entry (h : Sound g v) {sector : Int} (he : HasEntry g v i sector direntry) :
    Sound g ⟨fatFscacheread g v.mount sector, v.files⟩ ∧
      Outside g (fatFscacheread g v.mount sector).currentsector := by
  refine ⟨h.looked (fscacheread_looked h.consistent.coherent sector), ?_⟩
  rw [fscacheread_currentsector]
  exact he.2.1

theorem Sound.perform (h : Sound g v) {a : Call}
    (ha : Orderly g v a) : Sound g (v.perform g a) := by
  obtain ⟨hen, hord⟩ := ha
  cases a with
  | extend i => exact (h.extend hen).1
  | create =>
    have hempty := h.addEmpty
    have hchain : Volume.chain ⟨v.mount, v.files ++ [[]]⟩ v.files.length = [] := by
      simp [Volume.chain]
    have hext := hchain ▸ (hempty.extend (i := v.files.length) (by simp)).1
    exact hext
  | remove i => exact h.remove hen
  | truncate i sector direntry writetime =>
    obtain ⟨hs, hout⟩ := fscacheread_entry h hen
    exact hs.truncate hen.1 hout hen.2.2 writetime
  | shrink i sector direntry length writetime =>
    obtain ⟨he, hne, -⟩ := hen
    obtain ⟨hs, hout⟩ := fscacheread_entry h he
    exact hs.shrink he.1 hout he.2.2 hne hord writetime
  | flush => exact h.looked (flush_looked h.consistent.coherent)

theorem OrderlyRun.sound {v₀ : Volume} (h₀ : Sound g v₀)
    (hrun : OrderlyRun g v₀ v) : Sound g v := by
  refine Reach.labelled (P := Sound g) ?_ ?_ hrun
  · rintro v rfl
    exact h₀
  · intro v a hv ha
    exact ⟨_, rfl, hv.perform ha⟩

theorem Mirrored.copiesEqual (h : Mirrored g m) : CopiesEqual g (fatFscacheflush g m) :=
  fun s hs => (flush_mirrored h).copies s hs (by simp)

/-- On every run on which `fat_dirshrink` has nothing to cut off, the chains are those that the
calls should leave, disjoint and ended, and the free count is right; `fat_extendchain` puts one
cluster that was free at the end of a chain and returns zero only if none is free; and the copies of
the table are equal after a flush. -/
theorem fat_chains_stay_disjoint (g : Geometry) (v₀ v : Volume) (h₀ : Sound g v₀)
    (hrun : OrderlyRun g v₀ v) :
    Consistent g v.mount v.files ∧
    (∀ i < v.files.length,
      let r := fatExtendchain g v.mount (lastCluster (v.chain i))
      (r.1 = 0 ∧ freeClusters g v.mount = ∅) ∨
        ∃ c ∈ freeClusters g v.mount, r.1 = c ∧
        Consistent g r.2 (v.files.set i (v.chain i ++ [c]))) ∧
    CopiesEqual g (fatFscacheflush g v.mount) := by
  have h := hrun.sound h₀
  exact ⟨h.consistent, fun i hi => (h.extend hi).2, h.mirrored.copiesEqual⟩

end

/-- A small volume: two copies of a table of one sector, a directory in sector 3, four clusters of
one sector. -/
def smallGeometry : Geometry where
  type := .fat12
  hwsectorsize := 512
  fatsecperclus := 1
  nclusters := 6
  fatbase := 1
  nfatsects := 1
  fatnumfats := 2
  database := 4
  sectorsize_pow := ⟨7, by norm_num⟩
  secperclus_pow := ⟨0, by norm_num, rfl⟩
  two_le := by norm_num
  below_reserved := by decide
  fits := by decide
  one_fat := by norm_num
  fatbase_pos := by norm_num
  fats_le := by norm_num
  off_t_sectors := by norm_num

/-- An empty volume. The directory has room for a file that begins in cluster 2. -/
def emptyVolume : Volume where
  mount :=
    { sectors := fun s => if s = 3 then Function.update (fun _ => 0) 26 2 else fun _ => 0
      written := []
      buffer := fun _ => 0
      currentsector := 0
      dirty := false
      fsidirty := false
      fsifreecount := 4
      fsinextfree := 0 }
  files := []

theorem emptyVolume_sound : Sound smallGeometry emptyVolume where
  consistent :=
    { coherent := fun _ _ => rfl
      chains := ⟨by simp [emptyVolume], by simp [emptyVolume], by simp [emptyVolume],
        fun c hc _ => by
        obtain ⟨h2, h6⟩ := hc
        have h6 : c < 6 := h6
        interval_cases c <;> decide⟩
      count := .inr (by decide) }
  mirrored :=
    { copies := fun s hs _ k hk => by
        obtain ⟨h1, h2⟩ := hs
        have h1 : (1 : Int) ≤ s := h1
        have h2 : s < 1 + 1 := h2
        have hk : k < 2 := hk
        obtain rfl : s = 1 := by omega
        interval_cases k <;> rfl
      dirty := fun h => by cases h }

/-- A file of two clusters that is shrunk by a few bytes, another one, and the first one
truncated. -/
theorem fat_chains_stay_disjoint_sample :
    ∃ v, OrderlyRun smallGeometry emptyVolume v ∧ v.files = [[], [4, 5]] ∧
      Consistent smallGeometry v.mount v.files := by
  have hrun : OrderlyRun smallGeometry emptyVolume
      (after (fun v a => some (v.perform smallGeometry a)) emptyVolume
        [.create, .extend 0, .create, .shrink 0 3 0 700 0, .truncate 0 3 0 0, .extend 1, .flush]) :=
    Reach.after _ (.start rfl) (by decide)
  exact ⟨_, hrun, by decide +kernel, (fat_chains_stay_disjoint _ _ _ emptyVolume_sound hrun).1⟩

/-- The volume with a file of the clusters 2 and 3. -/
def twoClusterFile : Volume :=
  after (fun v a => some (v.perform smallGeometry a)) emptyVolume [.create, .extend 0]

/-- A file of two clusters shrunk to one byte: its first cluster has the entry of a free cluster,
the count says so too late, and the cluster is given to the next new chain. -/
theorem dirshrink_frees_last_cluster :
    OrderlyRun smallGeometry emptyVolume twoClusterFile ∧
    twoClusterFile.files = [[2, 3]] ∧
    Enabled smallGeometry twoClusterFile (.shrink 0 3 0 1 0) ∧
    (let v := twoClusterFile.perform smallGeometry (.shrink 0 3 0 1 0)
     v.files = [[2]] ∧ entry smallGeometry v.mount 2 = 0 ∧
      v.mount.fsifreecount = 3 ∧ (freeClusters smallGeometry v.mount).card = 4 ∧
      (fatCreatechain smallGeometry v.mount).1 = 3 ∧
      (fatCreatechain smallGeometry (fatCreatechain smallGeometry
        (fatCreatechain smallGeometry (fatCreatechain smallGeometry v.mount).2).2).2).1 = 2) :=
  ⟨Reach.after _ (.start rfl) (by decide), by decide, by decide,
    by decide +kernel⟩

/-! ## The table as an array -/

/-- A call of `fat_putcluster`, or of `fat_getcluster` if there is no value. -/
def accessTable (g : Geometry) (m : Mount) (a : Nat × Option Nat) : Mount :=
  match a.2 with
  | some v => (fatPutcluster g m a.1 v).2
  | none => (fatGetcluster g m a.1).2

/-- What the calls make of an array. -/
def accessArray (g : Geometry) (f : Nat → Nat) (a : Nat × Option Nat) : Nat → Nat :=
  match a.2 with
  | some v => Function.update f a.1 (v % g.type.span)
  | none => f

section

variable {g : Geometry} {m : Mount} {f : Nat → Nat}

theorem entry_accessTable {a : Nat × Option Nat} (hc : Coherent g m)
    (ha : 2 ≤ a.1 ∧ a.1 < g.nclusters) (hf : ∀ d < g.nclusters, entry g m d = f d) :
    Coherent g (accessTable g m a) ∧
      ∀ d < g.nclusters, entry g (accessTable g m a) d = accessArray g f a d := by
  obtain ⟨c, v⟩ := a
  cases v with
  | none =>
    have hl := (getcluster_spec hc ha.1 ha.2).2
    exact ⟨hl.coherent hc, fun d hd => (hl.entry hd).trans (hf d hd)⟩
  | some v =>
    have hp := (putcluster_spec hc ha.1 ha.2 v).2
    refine ⟨hp.coherent hc, fun d hd => (hp.entry d hd).trans ?_⟩
    rw [hf d hd]
    exact (Function.update_apply ..).symm

theorem entry_foldl (as : List (Nat × Option Nat)) (hc : Coherent g m)
    (has : ∀ a ∈ as, 2 ≤ a.1 ∧ a.1 < g.nclusters) (hf : ∀ d < g.nclusters, entry g m d = f d) :
    Coherent g (as.foldl (accessTable g) m) ∧
      ∀ d < g.nclusters, entry g (as.foldl (accessTable g) m) d = as.foldl (accessArray g) f d := by
  induction as generalizing m f with
  | nil => exact ⟨hc, hf⟩
  | cons a as ih =>
    obtain ⟨ha, has⟩ := List.forall_mem_cons.1 has
    obtain ⟨hc', hf'⟩ := entry_accessTable hc ha hf
    exact ih hc' has hf'

end

/-- Through the buffer of one sector the table of a FAT12, FAT16 or FAT32 volume is an array: after
any calls, `fat_getcluster` returns the value that was last put for its cluster. -/
theorem table_is_array (g : Geometry) (m : Mount) (hc : Coherent g m) (as : List (Nat × Option Nat))
    (has : ∀ a ∈ as, 2 ≤ a.1 ∧ a.1 < g.nclusters) (d : Nat) (h2 : 2 ≤ d) (hd : d < g.nclusters) :
    (fatGetcluster g (as.foldl (accessTable g) m) d).1
      = as.foldl (accessArray g) (entry g m) d := by
  obtain ⟨hc', hentry⟩ := entry_foldl as hc has fun _ _ => rfl
  rw [(getcluster_spec hc' h2 hd).1, hentry d hd]

theorem table_is_array_sample :
    (fatGetcluster smallGeometry ([(3, some 0x1234), (4, none), (2, some 0xabc)].foldl
      (accessTable smallGeometry) emptyVolume.mount) 3).1 = 0x234 := by
  rw [table_is_array smallGeometry emptyVolume.mount emptyVolume_sound.consistent.coherent _
    (by decide) 3 (by decide) (by decide)]
  decide

end BaseNx.Fs.Fat
