import BaseNx.Lib.MachineInt
import BaseNx.Errno

/-!
# The FAT of a mounted volume

`fs/fat/fs_fat32util.c` reaches the file allocation table through `fs_buffer`, which holds one
sector of the volume and is written back, to every copy of the table, when another sector is wanted.
Two functions read and write the table: `fat_getcluster` and `fat_putcluster`, with one layout of
the entries for each of FAT12, FAT16 and FAT32.

Every device operation succeeds here. `entry` reads the table as the code would find it, through the
buffer, and the two specifications at the end say that `fatGetcluster` returns that entry and that
`fatPutcluster` changes that entry and no other. `Quiet` says what both keep.
-/

namespace BaseNx.Fs.Fat

open Lib
open Function (update update_of_ne update_self)

/-- The bytes of one sector; the indices below the sector size count. -/
abbrev Sector := Nat → UInt8

/-- `fs_type` -/
inductive FsType where
  | fat12 | fat16 | fat32
  deriving DecidableEq

/-- The number of values an entry of the table can have. -/
def FsType.span : FsType → Nat
  | .fat12 => 2 ^ 12
  | .fat16 => 2 ^ 16
  | .fat32 => 2 ^ 28

/-- `FAT_MAXCLUST12`, `FAT_MAXCLUST16` and `FAT_MAXCLUST32`: the reserved values begin here. -/
def FsType.maxclust (t : FsType) : Nat := t.span - 16

/-- `FAT_EOF` in the width of an entry: the smallest value that ends a chain. -/
def FsType.eof (t : FsType) : Nat := 0x0ffffff8 % t.span

/-- The bytes that `n` entries take. -/
def FsType.tableBytes : FsType → Nat → Nat
  | .fat12, n => (3 * n + 1) / 2
  | .fat16, n => 2 * n
  | .fat32, n => 4 * n

/-- What `fat_mount` found out about the volume: the part of `struct fat_mountpt_s` that stays. -/
structure Geometry where
  type : FsType
  hwsectorsize : Nat
  fatsecperclus : Nat
  nclusters : Nat
  fatbase : Nat
  nfatsects : Nat
  fatnumfats : Nat
  database : Nat
  sectorsize_pow : ∃ k, hwsectorsize = 2 ^ (k + 2)
  secperclus_pow : ∃ k, k ≤ 7 ∧ fatsecperclus = 2 ^ k
  two_le : 2 ≤ nclusters
  below_reserved : nclusters ≤ type.maxclust
  /-- The table has an entry for every cluster. -/
  fits : type.tableBytes nclusters ≤ nfatsects * hwsectorsize
  one_fat : 1 ≤ fatnumfats
  fatbase_pos : 0 < fatbase
  /-- The copies of the table lie before the data. -/
  fats_le : fatbase + fatnumfats * nfatsects ≤ database
  /-- Sector numbers fit `off_t`. -/
  off_t_sectors : database + nclusters * fatsecperclus < 2 ^ 31

/-- The part of `struct fat_mountpt_s` that changes, and the device. `written` lists the sectors
written so far and is not in the source. -/
structure Mount where
  sectors : Int → Sector
  written : List Int
  buffer : Sector
  currentsector : Int
  dirty : Bool
  fsidirty : Bool
  fsifreecount : Nat
  fsinextfree : Nat

/-- `fat_hwread`: the sectors from `sector` on, in order. -/
def fatHwread (m : Mount) (sector : Int) : Nat → Sector := fun k => m.sectors (sector + k)

/-- `fat_hwwrite`: `nsectors` sectors from `sector` on take the blocks of the caller's buffer. -/
def fatHwwrite (m : Mount) (blocks : Nat → Sector) (sector : Int) (nsectors : Nat) : Mount :=
  { m with
    sectors := fun s =>
      if sector ≤ s ∧ s < sector + nsectors then blocks (s - sector).toNat else m.sectors s
    written := (List.range nsectors).map (fun k => sector + (k : Int)) ++ m.written }

/-- `fs->fs_dirty = true` -/
def Mount.markDirty (m : Mount) : Mount := { m with dirty := true }

/-- `fs->fs_dirty = false` -/
def Mount.markClean (m : Mount) : Mount := { m with dirty := false }

section
variable (g : Geometry)

/-- The loop of `fat_fscacheflush` over the further copies of the table. -/
def writeCopies : Nat → Mount → Mount
  | 0, m => m
  | i + 1, m =>
    let next := { m with currentsector := m.currentsector + g.nfatsects }
    writeCopies i (fatHwwrite next (fun _ => next.buffer) next.currentsector 1)

variable (m : Mount)

/-- `fat_fscacheflush` -/
def fatFscacheflush : Mount :=
  if m.dirty then
    let m := fatHwwrite m (fun _ => m.buffer) m.currentsector 1
    let m :=
      if g.fatbase ≤ m.currentsector ∧ m.currentsector < g.fatbase + g.nfatsects then
        writeCopies g (g.fatnumfats - 1) m
      else m
    m.markClean
  else m

/-- `fat_fscacheread` -/
def fatFscacheread (sector : Int) : Mount :=
  if m.currentsector = sector then m
  else
    let m := fatFscacheflush g m
    { m with buffer := fatHwread m sector 0, currentsector := sector }

/-- `fat_getuint16` -/
def getuint16 (b : Sector) (i : Nat) : Nat := (b i).toNat + 256 * (b (i + 1)).toNat

/-- `fat_getuint32` -/
def getuint32 (b : Sector) (i : Nat) : Nat := getuint16 b i + 65536 * getuint16 b (i + 2)

/-- `fat_putuint16` -/
def putuint16 (b : Sector) (i v : Nat) : Sector :=
  update (update b i (UInt8.ofNat v)) (i + 1) (UInt8.ofNat (v / 256))

/-- `fat_putuint32` -/
def putuint32 (b : Sector) (i v : Nat) : Sector := putuint16 (putuint16 b i v) (i + 2) (v / 65536)

/-- One byte of `fs_buffer` changes. -/
def Mount.poke (i : Nat) (v : Nat) : Mount :=
  { m with buffer := update m.buffer i (UInt8.ofNat v) }

/-- `fs_buffer` changes as a whole. -/
def Mount.setBuffer (b : Sector) : Mount := { m with buffer := b }

/-- The sector of the table with the byte at `fatoffset`. -/
def fatsector (fatoffset : Nat) : Int := g.fatbase + (fatoffset / g.hwsectorsize : Nat)

/-- The two bytes of an entry of FAT12 may stand in two sectors: the buffer and the index after the
first of them. `turn` is what happens to the buffer before the next sector is read. -/
def nextByte (turn : Mount → Mount) (m : Mount) (fatoffset : Nat) : Mount × Nat :=
  let fatindex := fatoffset % g.hwsectorsize + 1
  if g.hwsectorsize ≤ fatindex then (fatFscacheread g (turn m) (fatsector g fatoffset + 1), 0)
  else (m, fatindex)

/-- `fat_getcluster`, with the shifts and masks written as divisions and remainders. -/
def fatGetcluster (clusterno : Nat) : Int × Mount :=
  if 2 ≤ clusterno ∧ clusterno < g.nclusters then
    match g.type with
    | .fat12 =>
      let fatoffset := clusterno * 3 / 2
      let m := fatFscacheread g m (fatsector g fatoffset)
      let low := (m.buffer (fatoffset % g.hwsectorsize)).toNat
      let next := nextByte g id m fatoffset
      let cluster := low + 256 * (next.1.buffer next.2).toNat
      (if clusterno % 2 ≠ 0 then cluster / 16 else cluster % 4096, next.1)
    | .fat16 =>
      let fatoffset := 2 * clusterno
      let m := fatFscacheread g m (fatsector g fatoffset)
      (getuint16 m.buffer (fatoffset % g.hwsectorsize), m)
    | .fat32 =>
      let fatoffset := 4 * clusterno
      let m := fatFscacheread g m (fatsector g fatoffset)
      ((getuint32 m.buffer (fatoffset % g.hwsectorsize) % 2 ^ 28 : Nat), m)
  else (-EINVAL, m)

/-- `fat_putcluster`; a byte of the buffer takes the low eight bits of what is stored in it. -/
def fatPutcluster (clusterno nextcluster : Nat) : Int × Mount :=
  if clusterno = 0 ∨ (2 ≤ clusterno ∧ clusterno < g.nclusters) then
    match g.type with
    | .fat12 =>
      let fatoffset := clusterno * 3 / 2
      let m := fatFscacheread g m (fatsector g fatoffset)
      let fatindex := fatoffset % g.hwsectorsize
      let m := m.poke fatindex
        (if clusterno % 2 ≠ 0 then (m.buffer fatindex).toNat % 16 + 16 * nextcluster
          else nextcluster)
      let next := nextByte g Mount.markDirty m fatoffset
      let m := next.1.poke next.2
        (if clusterno % 2 ≠ 0 then nextcluster / 16
          else (next.1.buffer next.2).toNat / 16 * 16 + nextcluster / 256 % 16)
      (OK, m.markDirty)
    | .fat16 =>
      let fatoffset := 2 * clusterno
      let m := fatFscacheread g m (fatsector g fatoffset)
      let b := putuint16 m.buffer (fatoffset % g.hwsectorsize) (nextcluster % 2 ^ 16)
      (OK, (m.setBuffer b).markDirty)
    | .fat32 =>
      let fatoffset := 4 * clusterno
      let m := fatFscacheread g m (fatsector g fatoffset)
      let fatindex := fatoffset % g.hwsectorsize
      let val := getuint32 m.buffer fatindex / 2 ^ 28 * 2 ^ 28
      let b := putuint32 m.buffer fatindex (val + nextcluster % 2 ^ 28)
      (OK, (m.setBuffer b).markDirty)
  else (-EINVAL, m)

/-! ### The table as the code finds it -/

/-- The value of two bytes, the low one first. -/
def wordOf (b : Nat → UInt8) (off : Nat) : Nat := (b off).toNat + 256 * (b (off + 1)).toNat

/-- The entry of a cluster in a table with the given bytes. -/
def entryOf (t : FsType) (b : Nat → UInt8) (c : Nat) : Nat :=
  match t with
  | .fat12 => if c % 2 ≠ 0 then wordOf b (c * 3 / 2) / 16 else wordOf b (c * 3 / 2) % 4096
  | .fat16 => wordOf b (2 * c)
  | .fat32 => (wordOf b (4 * c) + 65536 * wordOf b (4 * c + 2)) % 2 ^ 28

/-- A sector of the volume, through the buffer. -/
def Mount.view (s : Int) : Sector := if s = m.currentsector then m.buffer else m.sectors s

/-- A byte of the table. -/
def fatByte (off : Nat) : UInt8 := m.view (fatsector g off) (off % g.hwsectorsize)

def entry (c : Nat) : Nat := entryOf g.type (fatByte g m) c

/-- The sectors of the first copy of the table. -/
def Primary (s : Int) : Prop := g.fatbase ≤ s ∧ s < g.fatbase + g.nfatsects

/-- A clean buffer equals the sector it was read from. File data are written past this buffer, so
that nothing is said about a buffered sector of the data area. -/
def Coherent : Prop :=
  m.dirty = false → m.currentsector < g.database → m.buffer = m.sectors m.currentsector

/-- All copies of the table agree, but for the sector that still has to be written back. -/
structure Mirrored (m : Mount) : Prop where
  copies : ∀ s, Primary g s → (m.dirty = true → m.currentsector ≠ s) →
    ∀ k < g.fatnumfats, m.sectors (s + k * g.nfatsects) = m.sectors s
  dirty : m.dirty = true → Primary g m.currentsector ∨
    m.currentsector < g.fatbase ∨ g.fatbase + g.fatnumfats * g.nfatsects ≤ m.currentsector

/-- What the buffering of the table keeps. -/
structure Quiet (m m' : Mount) : Prop where
  coherent : Coherent g m → Coherent g m'
  mirrored : Mirrored g m → Mirrored g m'

end

variable {bytes : Nat → UInt8} {off : Nat} {c : Nat} {s t : Int} {k off : Nat}

section
variable {g : Geometry} {m m' m'' : Mount}

theorem Quiet.refl (g : Geometry) (m : Mount) : Quiet g m m := ⟨id, id⟩

theorem Quiet.trans (h : Quiet g m m') (h' : Quiet g m' m'') : Quiet g m m'' :=
  ⟨h'.coherent ∘ h.coherent, h'.mirrored ∘ h.mirrored⟩

theorem Geometry.sectorsize_pos (g : Geometry) : 0 < g.hwsectorsize := by
  obtain ⟨k, hk⟩ := g.sectorsize_pow
  rw [hk]
  positivity

theorem Geometry.four_dvd_sectorsize (g : Geometry) : 4 ∣ g.hwsectorsize := by
  obtain ⟨k, hk⟩ := g.sectorsize_pow
  exact ⟨2 ^ k, by rw [hk, pow_add]; ring⟩

theorem Geometry.secperclus_pos (g : Geometry) : 0 < g.fatsecperclus := by
  obtain ⟨k, -, hk⟩ := g.secperclus_pow
  rw [hk]
  positivity

/-- A further copy of the table has no sector of the first. -/
theorem not_primary_copy (hs : Primary g s) (hk : 1 ≤ k) : ¬ Primary g (s + k * g.nfatsects) := by
  rintro ⟨-, hhi⟩
  have hmul : (g.nfatsects : Int) ≤ k * g.nfatsects := by
    have : g.nfatsects ≤ k * g.nfatsects := Nat.le_mul_of_pos_left _ hk
    exact_mod_cast this
  have := hs.1
  omega

/-- The copies lie one after the other. -/
theorem copy_lt_fats (hs : Primary g s) (hk : k < g.fatnumfats) :
    s + k * g.nfatsects < g.fatbase + g.fatnumfats * g.nfatsects := by
  have hmul : (k + 1) * g.nfatsects ≤ g.fatnumfats * g.nfatsects := Nat.mul_le_mul_right _ hk
  have hcast : (k : Int) * g.nfatsects + g.nfatsects ≤ g.fatnumfats * g.nfatsects := by
    linarith
  have := hs.2
  omega

theorem Primary.lt_database (hs : Primary g s) : s < g.database := by
  have hlt := copy_lt_fats hs g.one_fat
  have := g.fats_le
  omega

/-! ### Writing the buffer back -/

theorem fatHwwrite_one (m : Mount) (blocks : Nat → Sector) (sector s : Int) :
    (fatHwwrite m blocks sector 1).sectors s = if s = sector then blocks 0 else m.sectors s := by
  simp only [fatHwwrite]
  by_cases h : s = sector
  · subst h
    simp
  · rw [if_neg (by omega), if_neg h]

/-- The state after the buffer has been written to its sector and to `n` further copies. -/
structure Copied (g : Geometry) (n : Nat) (m m' : Mount) : Prop where
  copy : ∀ k ≤ n, m'.sectors (m.currentsector + k * g.nfatsects) = m.buffer
  other : ∀ s, (∀ k ≤ n, s ≠ m.currentsector + k * g.nfatsects) → m'.sectors s = m.sectors s
  current : m'.currentsector = m.currentsector + n * g.nfatsects
  buffer : m'.buffer = m.buffer
  freecount : m'.fsifreecount = m.fsifreecount

theorem copied_first (m : Mount) :
    Copied g 0 m (fatHwwrite m (fun _ => m.buffer) m.currentsector 1) where
  copy k hk := by
    obtain rfl := Nat.le_zero.1 hk
    rw [fatHwwrite_one, if_pos (by simp)]
  other s hs := by
    rw [fatHwwrite_one, if_neg (by simpa using hs 0)]
  current := by simp [fatHwwrite]
  buffer := rfl
  freecount := rfl

theorem Copied.writeCopies (i : Nat) : ∀ {n : Nat} {m' : Mount}, Copied g n m m' →
    Copied g (n + i) m (writeCopies g i m') := by
  induction i with
  | zero => exact fun h => h
  | succ i ih =>
    intro n m' h
    have hnext : m'.currentsector + g.nfatsects =
        m.currentsector + ((n + 1 : Nat) : Int) * g.nfatsects := by
      rw [h.current]
      push_cast
      ring
    rw [Fat.writeCopies, show n + (i + 1) = n + 1 + i by omega]
    refine ih ⟨fun k hk => ?_, fun s hs => ?_, hnext, h.buffer, h.freecount⟩
    · rw [fatHwwrite_one]
      split
      · exact h.buffer
      case isFalse hne =>
        refine h.copy k (Nat.lt_succ_iff.1 (lt_of_le_of_ne hk ?_))
        rintro rfl
        exact hne hnext.symm
    · rw [fatHwwrite_one, if_neg fun heq => hs (n + 1) le_rfl (heq.trans hnext)]
      exact h.other s fun k hk => hs k (by omega)

/-- The dirty buffer is written to its sector and, if that is one of the table, to all copies. -/
theorem flush_spec (hd : m.dirty = true) : ∃ n, Copied g n m (fatFscacheflush g m) ∧
    (Primary g m.currentsector ∧ n + 1 = g.fatnumfats ∨ ¬ Primary g m.currentsector ∧ n = 0) := by
  have hfirst := copied_first (g := g) m
  have hone := g.one_fat
  by_cases hp : Primary g m.currentsector
  · have hall := hfirst.writeCopies (g.fatnumfats - 1)
    refine ⟨_, ?_, .inl ⟨hp, (by omega : 0 + (g.fatnumfats - 1) + 1 = g.fatnumfats)⟩⟩
    have heq : fatFscacheflush g m = (writeCopies g (g.fatnumfats - 1)
        (fatHwwrite m (fun _ => m.buffer) m.currentsector 1)).markClean := by
      rw [fatFscacheflush, if_pos hd]
      exact congrArg Mount.markClean (if_pos hp)
    rw [heq]
    exact { hall with }
  · refine ⟨0, ?_, .inr ⟨hp, rfl⟩⟩
    have heq : fatFscacheflush g m
        = (fatHwwrite m (fun _ => m.buffer) m.currentsector 1).markClean := by
      rw [fatFscacheflush, if_pos hd]
      exact congrArg Mount.markClean (if_neg hp)
    rw [heq]
    exact { hfirst with }

theorem flush_clean (hd : m.dirty = false) : fatFscacheflush g m = m := by
  rw [fatFscacheflush, hd]
  rfl

@[simp] theorem flush_dirty : (fatFscacheflush g m).dirty = false := by
  cases hd : m.dirty with
  | true =>
    rw [fatFscacheflush, if_pos hd]
    rfl
  | false => rw [flush_clean hd, hd]

theorem flush_freecount : (fatFscacheflush g m).fsifreecount = m.fsifreecount := by
  cases hd : m.dirty with
  | true =>
    obtain ⟨n, h, -⟩ := flush_spec (g := g) hd
    exact h.freecount
  | false => rw [flush_clean hd]

/-- What the first table holds after the buffer has been written back. -/
theorem flush_sectors (hs : Primary g s) : (fatFscacheflush g m).sectors s
    = if m.dirty = true ∧ s = m.currentsector then m.buffer else m.sectors s := by
  cases hd : m.dirty with
  | true =>
    obtain ⟨n, h, hn⟩ := flush_spec (g := g) hd
    by_cases heq : s = m.currentsector
    · rw [if_pos ⟨rfl, heq⟩, heq]
      simpa using h.copy 0 (Nat.zero_le n)
    · rw [if_neg fun h => heq h.2]
      refine h.other s fun k hk => ?_
      rcases Nat.eq_zero_or_pos k with rfl | hpos
      · simpa using heq
      · -- a further copy is not in the first table
        rcases hn with ⟨hp, -⟩ | ⟨-, rfl⟩
        · rintro rfl
          exact not_primary_copy hp hpos hs
        · omega
  | false => rw [flush_clean hd, if_neg (by simp)]

theorem flush_coherent (hc : Coherent g m) : Coherent g (fatFscacheflush g m) := by
  cases hd : m.dirty with
  | true =>
    obtain ⟨n, h, -⟩ := flush_spec (g := g) hd
    intro _ _
    rw [h.buffer, h.current, h.copy n le_rfl]
  | false =>
    rw [flush_clean hd]
    exact hc

/-- Two sectors of the table in different copies are different unless they are the same sector. -/
theorem copy_inj (hs : Primary g s) (ht : Primary g t) {j : Nat}
    (h : s + j * g.nfatsects = t + k * g.nfatsects) : s = t := by
  obtain ⟨hs1, hs2⟩ := hs
  obtain ⟨ht1, ht2⟩ := ht
  have hmod := congrArg (fun x : Int => (x - g.fatbase) % (g.nfatsects : Int)) h
  have hshift (a : Int) (i : Nat) : a + i * g.nfatsects - g.fatbase =
      a - g.fatbase + i * g.nfatsects := by
    ring
  simp only [hshift] at hmod
  rw [Int.add_mul_emod_self_right, Int.add_mul_emod_self_right,
    Int.emod_eq_of_lt (by omega) (by omega), Int.emod_eq_of_lt (by omega) (by omega)] at hmod
  omega

theorem flush_mirrored (hm : Mirrored g m) : Mirrored g (fatFscacheflush g m) where
  dirty hd := by simp at hd
  copies s hs _ k hk := by
    cases hd : m.dirty with
    | true =>
      obtain ⟨n, h, hn⟩ := flush_spec (g := g) hd
      by_cases heq : s = m.currentsector
      · subst heq
        obtain ⟨-, hn⟩ := hn.resolve_right fun hnp => hnp.1 hs
        rw [h.copy k (by omega)]
        simpa using (h.copy 0 (Nat.zero_le n)).symm
      · -- neither the sector nor its copy is written
        have hfar :
          ∀ i < g.fatnumfats, ∀ j ≤ n, s + i * g.nfatsects ≠ m.currentsector + j * g.nfatsects := by
          rcases hn with ⟨hp, -⟩ | ⟨hp, rfl⟩
          · exact fun i _ j _ h => heq (copy_inj hs hp h)
          · intro i hi j hj hij
            obtain rfl := Nat.le_zero.1 hj
            have hlt := copy_lt_fats hs hi
            have hnn : (0 : Int) ≤ i * g.nfatsects := by positivity
            have := hs.1
            rcases (hm.dirty hd).resolve_left hp with hout | hout
            · omega
            · simp at hij
              omega
        have hself := h.other s fun j hj => by simpa using hfar 0 g.one_fat j hj
        rw [h.other _ (hfar k hk), hself]
        exact hm.copies s hs (fun _ h => heq h.symm) k hk
    | false =>
      rw [flush_clean hd]
      exact hm.copies s hs (fun h => by rw [hd] at h; cases h) k hk

theorem flush_quiet (g : Geometry) (m : Mount) : Quiet g m (fatFscacheflush g m) :=
  ⟨flush_coherent, flush_mirrored⟩

/-! ### Reading a sector of the table -/

@[simp] theorem fscacheread_currentsector (s : Int) : (fatFscacheread g m s).currentsector = s := by
  rw [fatFscacheread]
  split
  · assumption
  · rfl

theorem fscacheread_quiet (g : Geometry) (m : Mount)
    (s : Int) : Quiet g m (fatFscacheread g m s) := by
  rw [fatFscacheread]
  split
  · exact .refl g m
  · refine ⟨fun _ _ _ => ?_, fun hm => ?_⟩
    · simp [fatHwread]
    · have hm' := flush_mirrored hm
      exact ⟨fun s hs _ => hm'.copies s hs (by simp), fun hd => absurd hd (by simp)⟩

theorem flush_sectors_view (hc : Coherent g m) (ht : Primary g t) :
    (fatFscacheflush g m).sectors t = m.view t := by
  rw [flush_sectors ht, Mount.view]
  by_cases heq : t = m.currentsector
  · subst heq
    cases hd : m.dirty
    · simpa using (hc hd ht.lt_database).symm
    · simp
  · rw [if_neg fun h => heq h.2, if_neg heq]

/-- The table looks the same from any sector. -/
theorem fscacheread_view (hc : Coherent g m) (s : Int) (ht : Primary g t) :
    (fatFscacheread g m s).view t = m.view t := by
  rw [fatFscacheread]
  split
  · rfl
  · by_cases hts : t = s
    · subst hts
      simpa [Mount.view, fatHwread] using flush_sectors_view hc ht
    · simpa [Mount.view, fatHwread, hts] using flush_sectors_view hc ht

theorem flush_view (hc : Coherent g m) (ht : Primary g t) :
    (fatFscacheflush g m).view t = m.view t := by
  rw [Mount.view]
  split
  · rename_i heq
    rw [flush_coherent hc flush_dirty (heq ▸ ht.lt_database), ← heq]
    exact flush_sectors_view hc ht
  · exact flush_sectors_view hc ht

/-- A byte with an offset in the table stands in a sector of the table. -/
theorem primary_fatsector (h : off < g.nfatsects * g.hwsectorsize) :
    Primary g (fatsector g off) := by
  have hdiv := Nat.div_lt_of_lt_mul (Nat.mul_comm _ _ ▸ h : off < g.hwsectorsize * g.nfatsects)
  rw [Primary, fatsector]
  generalize off / g.hwsectorsize = q at hdiv
  omega

theorem fatByte_buffer (h : m.currentsector = fatsector g off) :
    fatByte g m off = m.buffer (off % g.hwsectorsize) := by
  rw [fatByte, Mount.view, if_pos h.symm]

theorem add_in_sector (h : off % g.hwsectorsize + k < g.hwsectorsize) :
    fatsector g (off + k) = fatsector g off ∧
      (off + k) % g.hwsectorsize = off % g.hwsectorsize + k := by
  have hsplit : off + k = (off % g.hwsectorsize + k) + g.hwsectorsize * (off / g.hwsectorsize) := by
    have := Nat.mod_add_div off g.hwsectorsize
    omega
  constructor
  · rw [fatsector, fatsector, hsplit, Nat.add_mul_div_left _ _ g.sectorsize_pos, Nat.div_eq_of_lt h]
    simp
  · rw [hsplit, Nat.add_mul_mod_self_left, Nat.mod_eq_of_lt h]

theorem succ_next_sector (h : g.hwsectorsize ≤ off % g.hwsectorsize + 1) :
    fatsector g (off + 1) = fatsector g off + 1 ∧ (off + 1) % g.hwsectorsize = 0 := by
  have hlast : off % g.hwsectorsize + 1 = g.hwsectorsize := by
    have := Nat.mod_lt off g.sectorsize_pos
    omega
  have hsplit : off + 1 = g.hwsectorsize * (off / g.hwsectorsize + 1) := by
    have := Nat.mod_add_div off g.hwsectorsize
    rw [mul_add]
    omega
  constructor
  · rw [fatsector, fatsector, hsplit, Nat.mul_div_cancel_left _ g.sectorsize_pos]
    push_cast
    ring
  · rw [hsplit, Nat.mul_mod_right]

/-! ### Changing bytes of the table -/

/-- A byte of `fs_buffer` changes and the buffer has to be written back. -/
def Mount.edit (m : Mount) (i v : Nat) : Mount := (m.poke i v).markDirty

/-- A step after which the table has the given bytes. -/
structure Edited (g : Geometry) (m m' : Mount)
    (bytes : Nat → UInt8) : Prop extends Quiet g m m' where
  table : ∀ o < g.nfatsects * g.hwsectorsize, fatByte g m' o = bytes o
  freecount : m'.fsifreecount = m.fsifreecount

/-- A step that only moves the buffer. -/
abbrev Looked (g : Geometry) (m m' : Mount) : Prop := Edited g m m' (fatByte g m)

theorem Looked.refl (g : Geometry) (m : Mount) : Looked g m m := ⟨.refl g m, fun _ _ => rfl, rfl⟩

theorem Edited.trans (h : Edited g m m' bytes) (h' : Looked g m' m'') : Edited g m m'' bytes :=
  ⟨h.toQuiet.trans h'.toQuiet, fun o ho => (h'.table o ho).trans (h.table o ho),
    h'.freecount.trans h.freecount⟩

theorem looked_of_view (hq : Quiet g m m') (hview : ∀ t, Primary g t → m'.view t = m.view t)
    (hcount : m'.fsifreecount = m.fsifreecount) : Looked g m m' :=
  ⟨hq, fun o ho => by rw [fatByte, fatByte, hview _ (primary_fatsector ho)], hcount⟩

theorem flush_looked (hc : Coherent g m) : Looked g m (fatFscacheflush g m) :=
  looked_of_view (flush_quiet g m) (fun _ ht => flush_view hc ht) flush_freecount

theorem fscacheread_looked (hc : Coherent g m) (s : Int) : Looked g m (fatFscacheread g m s) := by
  refine looked_of_view (fscacheread_quiet g m s) (fun t ht => fscacheread_view hc s ht) ?_
  rw [fatFscacheread]
  split
  · rfl
  · exact flush_freecount

theorem quiet_setBuffer {b : Sector} (hp : Primary g m.currentsector) :
    Quiet g m (m.setBuffer b).markDirty :=
  ⟨fun _ hd => (by cases hd),
    fun hm => ⟨fun s hs hne => hm.copies s hs fun _ => hne rfl, fun _ => .inl hp⟩⟩

/-- The byte at offset `off` changes while the buffer holds its sector. -/
theorem Edited.edit (h : Edited g m m' bytes) (hoff : off < g.nfatsects * g.hwsectorsize)
    (hcur : m'.currentsector = fatsector g off) {i v : Nat} (hi : i = off % g.hwsectorsize) :
    Edited g m (m'.edit i v) (update bytes off (UInt8.ofNat v)) := by
  subst hi
  have hq := quiet_setBuffer (b := update m'.buffer (off % g.hwsectorsize) (UInt8.ofNat v))
    (show Primary g m'.currentsector from hcur ▸ primary_fatsector hoff)
  refine ⟨h.toQuiet.trans hq, fun o ho => ?_, h.freecount⟩
  have hold := h.table o ho
  by_cases heq : o = off
  · subst heq
    rw [update_self, fatByte_buffer (m := m'.edit _ v) hcur]
    exact update_self ..
  · rw [update_of_ne heq, ← hold]
    rw [fatByte, fatByte, Mount.view, Mount.view]
    change (if fatsector g o = m'.currentsector then
      update m'.buffer (off % g.hwsectorsize) (UInt8.ofNat v) else m'.sectors (fatsector g o)) _ = _
    by_cases hs : fatsector g o = m'.currentsector
    · -- another byte of the same sector has another index
      have hdiv : o / g.hwsectorsize = off / g.hwsectorsize := by
        have := hs.trans hcur
        rw [fatsector, fatsector] at this
        omega
      have hmod : o % g.hwsectorsize ≠ off % g.hwsectorsize := by
        intro hmod
        apply heq
        rw [← Nat.div_add_mod o g.hwsectorsize, hdiv, hmod, Nat.div_add_mod]
      rw [if_pos hs, if_pos hs, update_of_ne hmod]
    · rw [if_neg hs, if_neg hs]

/-! ### Entries -/

theorem offset12_lt (ht : g.type = .fat12) (hc : c < g.nclusters) :
    c * 3 / 2 + 1 < g.nfatsects * g.hwsectorsize := by
  have hfits := g.fits
  simp only [ht, FsType.tableBytes] at hfits
  omega

theorem offset16_lt (ht : g.type = .fat16) (hc : c < g.nclusters) :
    2 * c + 1 < g.nfatsects * g.hwsectorsize := by
  have hfits := g.fits
  simp only [ht, FsType.tableBytes] at hfits
  omega

theorem offset32_lt (ht : g.type = .fat32) (hc : c < g.nclusters) :
    4 * c + 3 < g.nfatsects * g.hwsectorsize := by
  have hfits := g.fits
  simp only [ht, FsType.tableBytes] at hfits
  omega

theorem aligned_in_sector {w c : Nat} (hw : w ∣ 4) (hk : k < w) :
    w * c % g.hwsectorsize + k < g.hwsectorsize := by
  obtain ⟨q, hq⟩ := hw.trans g.four_dvd_sectorsize
  have hqpos : 0 < q := by
    rcases eq_zero_or_pos q with rfl | h
    · have := g.sectorsize_pos
      omega
    · exact h
  rw [hq, Nat.mul_mod_mul_left]
  have hlt := Nat.mod_lt c hqpos
  have : w * (c % q) + w ≤ w * q := by
    exact Nat.mul_le_mul_left w hlt
  omega

section

variable (hcur : m.currentsector = fatsector g off)
include hcur

theorem buffer_fatByte (h : off % g.hwsectorsize + k < g.hwsectorsize) :
    m.buffer (off % g.hwsectorsize + k) = fatByte g m (off + k) := by
  obtain ⟨hsec, hmod⟩ := add_in_sector h
  rw [fatByte_buffer (hcur.trans hsec.symm), hmod]

theorem getuint16_wordOf (h : off % g.hwsectorsize + 1 < g.hwsectorsize) :
    getuint16 m.buffer (off % g.hwsectorsize) = wordOf (fatByte g m) off := by
  rw [getuint16, wordOf, buffer_fatByte hcur h, fatByte_buffer hcur]

theorem getuint32_wordOf (h : off % g.hwsectorsize + 3 < g.hwsectorsize) :
    getuint32 m.buffer (off % g.hwsectorsize)
      = wordOf (fatByte g m) off + 65536 * wordOf (fatByte g m) (off + 2) := by
  rw [getuint32, getuint16_wordOf hcur (by omega), getuint16, wordOf, wordOf,
    buffer_fatByte hcur (by omega : off % g.hwsectorsize + 2 < _),
    show off % g.hwsectorsize + 2 + 1 = off % g.hwsectorsize + 3 from rfl, buffer_fatByte hcur h]

end

section

variable (h : ∀ o < g.nfatsects * g.hwsectorsize, fatByte g m o = bytes o)
include h

theorem wordOf_congr (hoff : off + 1 < g.nfatsects * g.hwsectorsize) :
    wordOf (fatByte g m) off = wordOf bytes off := by
  rw [wordOf, wordOf, h off (by omega), h (off + 1) hoff]

theorem entry_congr (hc : c < g.nclusters) : entry g m c = entryOf g.type bytes c := by
  rw [entry]
  cases ht : g.type with
  | fat12 => rw [entryOf, entryOf, wordOf_congr h (offset12_lt ht hc)]
  | fat16 => rw [entryOf, entryOf, wordOf_congr h (offset16_lt ht hc)]
  | fat32 =>
    have := offset32_lt ht hc
    rw [entryOf, entryOf, wordOf_congr h (by omega), wordOf_congr h (by omega)]

end

theorem Looked.entry (h : Looked g m m') (hc : c < g.nclusters) : entry g m' c = entry g m c :=
  entry_congr h.table hc

theorem nextByte_spec (turn : Mount → Mount) (hcur : m.currentsector = fatsector g off) :
    (nextByte g turn m off).2 = (off + 1) % g.hwsectorsize ∧
      (nextByte g turn m off).1.currentsector = fatsector g (off + 1) ∧
      ((nextByte g turn m off).1 = m ∨
        (nextByte g turn m off).1 = fatFscacheread g (turn m) (fatsector g (off + 1))) := by
  by_cases hcross : g.hwsectorsize ≤ off % g.hwsectorsize + 1
  · obtain ⟨hsec, hmod⟩ := succ_next_sector hcross
    rw [nextByte, if_pos hcross, hsec, hmod]
    exact ⟨rfl, fscacheread_currentsector _, .inr rfl⟩
  · obtain ⟨hsec, hmod⟩ := add_in_sector (k := 1) (by omega : off % g.hwsectorsize + 1 < _)
    rw [nextByte, if_neg hcross, hmod]
    exact ⟨rfl, hcur.trans hsec.symm, .inl rfl⟩

theorem getcluster_spec (hc : Coherent g m) (h2 : 2 ≤ c) (hn : c < g.nclusters) :
    (fatGetcluster g m c).1 = entry g m c ∧ Looked g m (fatGetcluster g m c).2 := by
  rw [fatGetcluster, if_pos ⟨h2, hn⟩]
  cases ht : g.type with
  | fat12 =>
    have hoff := offset12_lt ht hn
    dsimp only
    generalize hm₁ : fatFscacheread g m (fatsector g (c * 3 / 2)) = m₁
    have hl : Looked g m m₁ := hm₁ ▸ fscacheread_looked hc _
    have hcur : m₁.currentsector = fatsector g (c * 3 / 2) := hm₁ ▸ fscacheread_currentsector _
    obtain ⟨hindex, hcur', hnext⟩ := nextByte_spec id hcur
    have hl' : Looked g m (nextByte g id m₁ (c * 3 / 2)).1 := by
      rcases hnext with hnext | hnext <;> rw [hnext]
      · exact hl
      · exact hl.trans (fscacheread_looked (hl.coherent hc) _)
    refine ⟨?_, hl'⟩
    rw [hindex, ← fatByte_buffer hcur, ← fatByte_buffer hcur', hl.table _ (by omega),
      hl'.table _ hoff, entry, ht, entryOf, wordOf]
    split <;> simp
  | fat16 =>
    have hoff := offset16_lt ht hn
    have hl := fscacheread_looked hc (fatsector g (2 * c))
    refine ⟨?_, hl⟩
    dsimp only
    rw [getuint16_wordOf (fscacheread_currentsector _)
      (aligned_in_sector (by norm_num) (by norm_num)),
      wordOf_congr hl.table hoff, entry, ht, entryOf]
  | fat32 =>
    have hoff := offset32_lt ht hn
    have hl := fscacheread_looked hc (fatsector g (4 * c))
    refine ⟨?_, hl⟩
    dsimp only
    rw [getuint32_wordOf (fscacheread_currentsector _)
      (aligned_in_sector (by norm_num) (by norm_num)),
      wordOf_congr hl.table (by omega), wordOf_congr hl.table (by omega), entry, ht, entryOf]

variable (b : Nat → UInt8) (a v c' : Nat)

theorem entryOf_even (a : Nat) : entryOf .fat12 b (2 * a) = wordOf b (3 * a) % 4096 := by
  rw [entryOf, if_neg (by omega), show 2 * a * 3 / 2 = 3 * a by omega]

theorem entryOf_odd (a : Nat) : entryOf .fat12 b (2 * a + 1) = wordOf b (3 * a + 1) / 16 := by
  rw [entryOf, if_pos (by omega), show (2 * a + 1) * 3 / 2 = 3 * a + 1 by omega]

theorem wordOf_put (off x y : Nat) :
    wordOf (update (update b off (UInt8.ofNat x)) (off + 1) (UInt8.ofNat y)) off =
      x % 256 + 256 * (y % 256) := by
  rw [wordOf, update_self, update_of_ne (by omega), update_self, UInt8.toNat_ofNat',
    UInt8.toNat_ofNat']

theorem wordOf_put_of_ne {b : Nat → UInt8} {o : Nat} {x y : UInt8} (h : o + 1 < off ∨ off + 1 < o) :
    wordOf (update (update b off x) (off + 1) y) o = wordOf b o := by
  rw [wordOf, update_of_ne (by omega), update_of_ne (by omega), update_of_ne (by omega),
    update_of_ne (by omega), wordOf]

/-- Two bytes hold a stored entry of FAT12 with an even number; the neighbour's half of the second
is kept. -/
theorem entryOf_put12_even :
    entryOf .fat12 (update (update b (3 * a) (UInt8.ofNat v)) (3 * a + 1)
      (UInt8.ofNat ((b (3 * a + 1)).toNat / 16 * 16 + v / 256 % 16))) c'
      = if c' = 2 * a then v % 4096 else entryOf .fat12 b c' := by
  have hhigh := (b (3 * a + 1)).toNat_lt
  rcases Nat.even_or_odd' c' with ⟨a', rfl | rfl⟩
  · rw [entryOf_even, entryOf_even]
    by_cases heq : a' = a
    · subst heq
      rw [if_pos rfl, wordOf_put]
      omega
    · rw [if_neg (by omega), wordOf_put_of_ne (by omega)]
  · rw [if_neg (by omega), entryOf_odd, entryOf_odd]
    by_cases heq : a' = a
    · subst heq
      rw [wordOf, wordOf, update_self, update_of_ne (by omega), update_of_ne (by omega),
        UInt8.toNat_ofNat']
      omega
    · rw [wordOf_put_of_ne (by omega)]

/-- The same for an odd number, with the neighbour's half in the first byte. -/
theorem entryOf_put12_odd :
    entryOf .fat12 (update (update b (3 * a + 1)
      (UInt8.ofNat ((b (3 * a + 1)).toNat % 16 + 16 * v))) (3 * a + 2) (UInt8.ofNat (v / 16))) c'
      = if c' = 2 * a + 1 then v % 4096 else entryOf .fat12 b c' := by
  rcases Nat.even_or_odd' c' with ⟨a', rfl | rfl⟩
  · rw [if_neg (by omega), entryOf_even, entryOf_even]
    by_cases heq : a' = a
    · subst heq
      rw [wordOf, wordOf, update_of_ne (by omega), update_of_ne (by omega),
        update_of_ne (by omega), update_self, UInt8.toNat_ofNat']
      omega
    · rw [wordOf_put_of_ne (by omega)]
  · rw [entryOf_odd, entryOf_odd]
    by_cases heq : a' = a
    · subst heq
      rw [if_pos rfl, wordOf_put]
      omega
    · rw [if_neg (by omega), wordOf_put_of_ne (by omega)]

theorem entryOf_put16 (c v c' : Nat) :
    entryOf .fat16 (update (update b (2 * c) (UInt8.ofNat (v % 2 ^ 16))) (2 * c + 1)
      (UInt8.ofNat (v % 2 ^ 16 / 256))) c' =
      if c' = c then v % 2 ^ 16 else entryOf .fat16 b c' := by
  rw [entryOf, entryOf]
  by_cases heq : c' = c
  · subst heq
    rw [if_pos rfl, wordOf_put]
    omega
  · rw [if_neg heq, wordOf_put_of_ne (by omega)]

/-- The four bytes of an entry of FAT32 after a store of `w`. -/
def put32 (off w : Nat) : Nat → UInt8 :=
  update (update (update (update b off (UInt8.ofNat w)) (off + 1)
    (UInt8.ofNat (w / 256))) (off + 2) (UInt8.ofNat (w / 65536))) (off + 3)
    (UInt8.ofNat (w / 65536 / 256))

theorem entryOf_put32 (c w c' : Nat) :
    entryOf .fat32 (put32 b (4 * c) w) c' = if c' = c then w % 2 ^ 28 else entryOf .fat32 b c' := by
  rw [entryOf, put32]
  by_cases heq : c' = c
  · subst heq
    rw [if_pos rfl, wordOf_put_of_ne (by omega), wordOf_put, wordOf_put]
    omega
  · rw [if_neg heq, entryOf, wordOf_put_of_ne (by omega), wordOf_put_of_ne (by omega),
      wordOf_put_of_ne (by omega), wordOf_put_of_ne (by omega)]

/-- A step that sets the entry of cluster `c` to `v` and moves the buffer. -/
structure Put (g : Geometry) (c v : Nat) (m m' : Mount) : Prop extends Quiet g m m' where
  entry : ∀ c' < g.nclusters, entry g m' c' = if c' = c then v % g.type.span else Fat.entry g m c'
  freecount : m'.fsifreecount = m.fsifreecount

theorem Edited.put (h : Edited g m m' bytes) {c v : Nat}
    (hput : ∀ c', entryOf g.type bytes c' = if c' = c then v % g.type.span else Fat.entry g m c') :
    Put g c v m m' :=
  ⟨h.toQuiet, fun c' hc' => (entry_congr h.table hc').trans (hput c'), h.freecount⟩

/-- The two bytes of an entry of FAT12, changed one after the other. -/
theorem put12_edited (hc : Coherent g m) {x : Nat} {y : UInt8 → Nat}
    (hoff : off + 1 < g.nfatsects * g.hwsectorsize) (m₁ : Mount)
    (hm₁ : m₁ = (fatFscacheread g m (fatsector g off)).poke (off % g.hwsectorsize) x) :
    Edited g m (((nextByte g Mount.markDirty m₁ off).1.poke (nextByte g Mount.markDirty m₁ off).2
        (y ((nextByte g Mount.markDirty m₁ off).1.buffer
          (nextByte g Mount.markDirty m₁ off).2))).markDirty)
      (update (update (fatByte g m) off (UInt8.ofNat x)) (off + 1)
        (UInt8.ofNat (y (fatByte g m (off + 1))))) := by
  have hcur : m₁.currentsector = fatsector g off := hm₁ ▸ fscacheread_currentsector _
  have hfirst : Edited g m m₁.markDirty (update (fatByte g m) off (UInt8.ofNat x)) := by
    rw [hm₁]
    exact (fscacheread_looked hc _).edit (by omega) (fscacheread_currentsector _) rfl
  obtain ⟨hindex, hcur', hnext⟩ := nextByte_spec Mount.markDirty hcur
  generalize nextByte g Mount.markDirty m₁ off = next at hindex hcur' hnext ⊢
  have hedited : Edited g m next.1.markDirty (update (fatByte g m) off (UInt8.ofNat x)) := by
    rcases hnext with hnext | hnext <;> rw [hnext]
    · exact hfirst
    · have hread := hfirst.trans (fscacheread_looked (m := m₁.markDirty) (fun hd => by cases hd)
        (fatsector g (off + 1)))
      have hp : Primary g next.1.currentsector := hcur' ▸ primary_fatsector hoff
      rw [hnext] at hp
      exact ⟨hread.toQuiet.trans (quiet_setBuffer hp), hread.table, hread.freecount⟩
  -- the second byte as it is found after the first one has changed
  have hbyte : next.1.buffer next.2 = fatByte g m (off + 1) := by
    have hsecond := hedited.table _ hoff
    rw [update_of_ne (by omega)] at hsecond
    rw [hindex, ← hsecond]
    exact (fatByte_buffer (m := next.1.markDirty) hcur').symm
  rw [hbyte]
  exact hedited.edit hoff hcur' hindex

/-- The four bytes of an entry of FAT32, changed one after the other. -/
theorem put32_edited (hc : Coherent g m) {w : Nat} (hoff : off + 3 < g.nfatsects * g.hwsectorsize)
    (hin : off % g.hwsectorsize + 3 < g.hwsectorsize) :
    Edited g m (((fatFscacheread g m (fatsector g off)).setBuffer (putuint32
        (fatFscacheread g m (fatsector g off)).buffer (off % g.hwsectorsize) w)).markDirty)
      (put32 (fatByte g m) off w) := by
  obtain ⟨hsec1, hmod1⟩ := add_in_sector (k := 1) (by omega : off % g.hwsectorsize + 1 < _)
  obtain ⟨hsec2, hmod2⟩ := add_in_sector (k := 2) (by omega : off % g.hwsectorsize + 2 < _)
  obtain ⟨hsec3, hmod3⟩ := add_in_sector (k := 3) hin
  have hcur := fscacheread_currentsector (g := g) (m := m) (fatsector g off)
  have h0 := (fscacheread_looked hc (fatsector g off)).edit (v := w) (by omega) hcur rfl
  have h1 := h0.edit (v := w / 256) (by omega) (hcur.trans hsec1.symm) hmod1.symm
  have h2 := h1.edit (v := w / 65536) (by omega) (hcur.trans hsec2.symm) hmod2.symm
  have h3 := h2.edit (v := w / 65536 / 256) hoff (hcur.trans hsec3.symm) hmod3.symm
  simp only [Mount.edit, Mount.poke, Mount.markDirty] at h3
  simpa only [put32, Mount.setBuffer, Mount.markDirty, putuint32, putuint16, add_assoc,
    Nat.reduceAdd] using h3

theorem putcluster_spec (hc : Coherent g m) (h2 : 2 ≤ c) (hn : c < g.nclusters) (v : Nat) :
    (fatPutcluster g m c v).1 = OK ∧ Put g c v m (fatPutcluster g m c v).2 := by
  rw [fatPutcluster, if_pos (.inr ⟨h2, hn⟩)]
  cases ht : g.type with
  | fat12 =>
    have hoff := offset12_lt ht hn
    have hl := fscacheread_looked hc (fatsector g (c * 3 / 2))
    have hlow : (fatFscacheread g m (fatsector g (c * 3 / 2))).buffer (c * 3 / 2 % g.hwsectorsize)
        = fatByte g m (c * 3 / 2) := by
      rw [← fatByte_buffer (fscacheread_currentsector _), hl.table _ (by omega)]
    refine ⟨rfl, (put12_edited hc hoff _ rfl
      (y := fun b => if c % 2 ≠ 0 then v / 16 else b.toNat / 16 * 16 + v / 256 % 16)).put
      fun c' => ?_⟩
    rw [hlow, entry, ht]
    rcases Nat.even_or_odd' c with ⟨a, rfl | rfl⟩
    · rw [if_neg (by omega), if_neg (by omega), show 2 * a * 3 / 2 = 3 * a by omega]
      exact entryOf_put12_even _ a v c'
    · rw [if_pos (by omega), if_pos (by omega), show (2 * a + 1) * 3 / 2 = 3 * a + 1 by omega]
      exact entryOf_put12_odd _ a v c'
  | fat16 =>
    have hoff := offset16_lt ht hn
    have hl := fscacheread_looked hc (fatsector g (2 * c))
    have hin : 2 * c % g.hwsectorsize + 1 < g.hwsectorsize :=
      aligned_in_sector (by norm_num) (by norm_num)
    obtain ⟨hsec, hmod⟩ := add_in_sector hin
    refine ⟨rfl, ((hl.edit (by omega) (fscacheread_currentsector _) rfl).edit hoff
      ((fscacheread_currentsector _).trans hsec.symm) hmod.symm).put fun c' => ?_⟩
    rw [entry, ht]
    exact entryOf_put16 _ c v c'
  | fat32 =>
    have hoff := offset32_lt ht hn
    refine ⟨rfl, (put32_edited hc hoff (aligned_in_sector (by norm_num) (by norm_num))).put
      fun c' => ?_⟩
    rw [entry, ht, entryOf_put32]
    by_cases heq : c' = c
    · rw [if_pos heq, if_pos heq, FsType.span]
      omega
    · rw [if_neg heq, if_neg heq]

end

end BaseNx.Fs.Fat
