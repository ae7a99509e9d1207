import Nawam.Base.Cursor
import Mathlib.Data.List.Range

/-!
# The sectors of a FAT directory

libfat reads a file system by sectors. From a cluster it goes to a sector
(`libfatClustertosector`), from there sector by sector through the cluster, and
at the end of the cluster to the next one that the FAT names
(`libfatNextsector`). A directory is read along such a chain, one entry of 32
bytes after the other (`getNextDirent`). `Chain.yields` says that from an entry
on these are the entries of what is left of the sector and of the sectors
behind it.
-/

namespace Nawam

/-! ## Source -/

/-- `enum fat_type` -/
inductive FatType where
  | fat12
  | fat16
  | fat28
deriving DecidableEq

/-- `struct libfat_filesystem`, with the size of a sector. `read` reads a sector;
the cache before it hands out what was read. -/
structure LibfatFilesystem where
  read : UInt64 → Option (List UInt8)
  /-- `LIBFAT_SECTOR_SHIFT` -/
  sectorShift : ℕ
  fatType : FatType
  clustsize : UInt32
  clustshift : ℕ
  /-- Highest legal cluster number + 1 -/
  endcluster : Int32
  /-- Root directory cluster -/
  rootcluster : Int32
  /-- Start of FAT -/
  fat : UInt64
  /-- Start of root directory -/
  rootdir : UInt64
  /-- Start of data area -/
  data : UInt64
  shift_le : 9 ≤ sectorShift
  read_length : ∀ n bs, read n = some bs → bs.length = 2 ^ sectorShift

/-- An entry of a directory, `struct fat_dirent` or `struct fat_vfat_slot`. -/
abbrev FatDirent : Type := List UInt8

structure Dirpos where
  cluster : Int32
  offset : ℤ
  sector : UInt64
deriving DecidableEq

def read16 (p : List UInt8) (i : ℕ) : UInt16 :=
  (p.getD i 0).toUInt16 ||| ((p.getD (i + 1) 0).toUInt16 <<< 8)

def read32 (p : List UInt8) (i : ℕ) : UInt32 :=
  (read16 p i).toUInt32 ||| ((read16 p (i + 2)).toUInt32 <<< 16)

namespace LibfatFilesystem

/-- `LIBFAT_SECTOR_SIZE` -/
abbrev sectorSize (fs : LibfatFilesystem) : ℕ := 2 ^ fs.sectorShift

variable (fs : LibfatFilesystem)

def libfatClustertosector (cluster : Int32) : UInt64 :=
  let cluster := if cluster = 0 then fs.rootcluster else cluster
  if cluster = 0 then fs.rootdir
  else if cluster < 2 ∨ fs.endcluster ≤ cluster then -1
  else fs.data + ((cluster.toUInt32.toUInt64 - 2) <<< UInt64.ofNat fs.clustshift)

/-- The sector of the FAT with the byte at an offset, and the offset in it. -/
def fatSector (fatoffset : UInt32) : Option (List UInt8 × ℕ) :=
  (fs.read (fs.fat + UInt64.ofNat (fatoffset.toNat >>> fs.sectorShift))).map
    fun fsdata => (fsdata, fatoffset.toNat % fs.sectorSize)

/-- What the FAT says about a cluster: the next one, and where the chain ends. -/
def nextcluster (cluster : Int32) : Option (UInt32 × Bool) :=
  match fs.fatType with
  | .fat12 =>
      let fatoffset := (cluster + (cluster >>> 1)).toUInt32
      match fs.fatSector fatoffset, fs.fatSector (fatoffset + 1) with
      | some (first, i), some (second, j) =>
          let both := (first.getD i 0).toUInt32 ||| ((second.getD j 0).toUInt32 <<< 8)
          let next := if cluster &&& 1 ≠ 0 then both >>> 4 else both &&& 0x0FFF
          some (next, 0x0FF8 ≤ next)
      | _, _ => none
  | .fat16 =>
      (fs.fatSector (cluster <<< 1).toUInt32).map fun (fsdata, i) =>
        let next := (read16 fsdata i).toUInt32
        (next, 0x0FFF8 ≤ next)
  | .fat28 =>
      (fs.fatSector (cluster <<< 2).toUInt32).map fun (fsdata, i) =>
        let next := read32 fsdata i &&& 0x0FFFFFFF
        (next, 0x0FFFFFF8 ≤ next)

def libfatNextsector (s : UInt64) : UInt64 :=
  if s < fs.data then
    if s < fs.rootdir then -1
    else if s + 1 < fs.data then s + 1 else 0
  else
    let rs := s - fs.data
    if ~~~rs &&& (fs.clustsize - 1).toUInt64 ≠ 0 then s + 1
    else
      let cluster := (2 + (rs >>> UInt64.ofNat fs.clustshift)).toUInt32.toInt32
      if fs.endcluster ≤ cluster then -1
      else
        match fs.nextcluster cluster with
        | none => -1
        | some (_, true) => 0
        | some (next, false) => fs.libfatClustertosector next.toInt32

def direntAt (data : List UInt8) (offset : ℕ) : FatDirent := (data.drop offset).take 32

/-- There is a sector: neither the end of the chain nor an error. -/
def IsSector (sector : UInt64) : Prop := sector ≠ 0 ∧ sector ≠ -1

instance (sector : UInt64) : Decidable (IsSector sector) := instDecidableAnd

def getNextDirent (dp : Dirpos) : Option (FatDirent × Dirpos) :=
  let offset := dp.offset + 32
  if fs.sectorSize ≤ offset then
    let sector := fs.libfatNextsector dp.sector
    if IsSector sector then
      (fs.read sector).map fun data => (direntAt data 0, ⟨dp.cluster, 0, sector⟩)
    else none
  else
    (fs.read dp.sector).map fun data =>
      (direntAt data offset.toNat, ⟨dp.cluster, offset, dp.sector⟩)

/-- The first entry, which is where the cluster starts. -/
def getFirstDirent (dp : Dirpos) : Option (FatDirent × Dirpos) :=
  let sector := fs.libfatClustertosector dp.cluster
  if IsSector sector then
    (fs.read sector).map fun data => (direntAt data 0, ⟨dp.cluster, 0, sector⟩)
  else none

/-! ## Chains -/

/-- A chain of sectors that comes to its end, and what they hold. -/
inductive Chain : UInt64 → List (List UInt8) → Prop
  | last {s : UInt64} {data : List UInt8} :
      fs.read s = some data → fs.libfatNextsector s = 0 → Chain s [data]
  | link {s s' : UInt64} {data : List UInt8} {contents : List (List UInt8)} :
      fs.read s = some data → fs.libfatNextsector s = s' → IsSector s' →
      Chain s' contents → Chain s (data :: contents)

/-- The directory that starts with a cluster. -/
structure DirChain (cluster : Int32) (contents : List (List UInt8)) : Prop where
  sector : IsSector (fs.libfatClustertosector cluster)
  chain : fs.Chain (fs.libfatClustertosector cluster) contents

end LibfatFilesystem

def direntsFrom (data : List UInt8) (k n : ℕ) : List FatDirent :=
  (List.range' k n).map fun k => LibfatFilesystem.direntAt data (32 * k)

def direntsOf (data : List UInt8) : List FatDirent := direntsFrom data 0 (data.length / 32)

namespace LibfatFilesystem

variable {fs : LibfatFilesystem}

theorem exists_sectorSize (fs : LibfatFilesystem) :
    ∃ n, fs.sectorSize = 32 * (n + 1) := by
  obtain ⟨k, hk⟩ := Nat.exists_eq_add_of_le fs.shift_le
  have hpos : 0 < 2 ^ (4 + k) := Nat.two_pow_pos _
  refine ⟨2 ^ (4 + k) - 1, ?_⟩
  rw [Nat.sub_add_cancel hpos, sectorSize, hk, show 9 + k = 5 + (4 + k) by omega, pow_add]
  rfl

/-- The first entry of a sector, and the others. -/
theorem direntsOf_eq {s : UInt64} {data : List UInt8} (h : fs.read s = some data) {n : ℕ}
    (hn : fs.sectorSize = 32 * (n + 1)) :
    direntsOf data = direntAt data 0 :: direntsFrom data 1 n := by
  have hlen : data.length / 32 = n + 1 := by
    rw [fs.read_length s data h, ← sectorSize, hn, Nat.mul_div_cancel_left _ (by decide)]
  rw [direntsOf, hlen, direntsFrom, List.range'_succ, List.map_cons]
  rfl

/-- Within a sector the next entry is the one behind. -/
theorem getNextDirent_within {s : UInt64} {data : List UInt8} (h : fs.read s = some data)
    (cluster : Int32) {k : ℕ} (hk : 32 * (k + 1) < fs.sectorSize) :
    fs.getNextDirent ⟨cluster, ((32 * k : ℕ) : ℤ), s⟩ =
      some (direntAt data (32 * (k + 1)), ⟨cluster, ((32 * (k + 1) : ℕ) : ℤ), s⟩) := by
  have hoffset : ((32 * k : ℕ) : ℤ) + 32 = ((32 * (k + 1) : ℕ) : ℤ) := by omega
  simp only [getNextDirent, hoffset]
  rw [if_neg (by exact_mod_cast not_le.mpr hk), h, Option.map_some, Int.toNat_natCast]

/-- At its end it is the first one of the next sector. -/
theorem getNextDirent_link {s : UInt64} (cluster : Int32) {k : ℕ}
    (hk : fs.sectorSize = 32 * (k + 1)) :
    fs.getNextDirent ⟨cluster, ((32 * k : ℕ) : ℤ), s⟩ =
      if IsSector (fs.libfatNextsector s) then
        (fs.read (fs.libfatNextsector s)).map fun data =>
          (direntAt data 0, ⟨cluster, 0, fs.libfatNextsector s⟩)
      else none := by
  have hoffset : ((32 * k : ℕ) : ℤ) + 32 = ((32 * (k + 1) : ℕ) : ℤ) := by omega
  simp only [getNextDirent, hoffset]
  rw [if_pos (by exact_mod_cast hk.le)]

/-- The rest of a sector, if what comes behind it is known. -/
theorem yields_sector {s : UInt64} {data : List UInt8} (h : fs.read s = some data)
    (cluster : Int32) {m : ℕ} (hm : fs.sectorSize = 32 * (m + 1)) {es : List FatDirent}
    (hes : Yields fs.getNextDirent ⟨cluster, ((32 * m : ℕ) : ℤ), s⟩ es) :
    ∀ n k, k + n = m →
      Yields fs.getNextDirent ⟨cluster, ((32 * k : ℕ) : ℤ), s⟩
        (direntsFrom data (k + 1) n ++ es)
  | 0, k, hk => by
      rw [Nat.add_zero] at hk
      rw [hk]
      exact hes
  | n + 1, k, hk => by
      have ih := yields_sector h cluster hm hes n (k + 1) (by omega)
      rw [direntsFrom, List.range'_succ, List.map_cons, List.cons_append]
      exact .cons (getNextDirent_within h cluster (by omega)) ih

/-- **From an entry on** the cursor reads what is left of its sector and the
entries of the sectors behind. -/
theorem Chain.yields {s : UInt64} {contents : List (List UInt8)} (cluster : Int32) {n : ℕ}
    (hn : fs.sectorSize = 32 * (n + 1)) (h : fs.Chain s contents) :
    ∃ data rest, contents = data :: rest ∧ fs.read s = some data ∧
      Yields fs.getNextDirent ⟨cluster, 0, s⟩
        (direntsFrom data 1 n ++ rest.flatMap direntsOf) := by
  induction h with
  | @last s data hread hend =>
      refine ⟨data, [], rfl, hread, ?_⟩
      refine yields_sector hread cluster hn (.nil ?_) n 0 (Nat.zero_add n)
      rw [getNextDirent_link cluster hn, hend]
      rfl
  | @link s s' data contents hread hnext hsector hrest ih =>
      obtain ⟨data', rest, rfl, hread', hyields⟩ := ih
      refine ⟨data, data' :: rest, rfl, hread, ?_⟩
      refine yields_sector hread cluster hn ?_ n 0 (Nat.zero_add n)
      rw [List.flatMap_cons, direntsOf_eq hread' hn, List.cons_append]
      refine .cons ?_ hyields
      rw [getNextDirent_link cluster hn, hnext, if_pos hsector, hread']
      rfl

theorem getNextDirent_cluster (fs : LibfatFilesystem) (dp : Dirpos) (cluster : Int32) :
    fs.getNextDirent { dp with cluster } =
      (fs.getNextDirent dp).map fun r => (r.1, { r.2 with cluster }) := by
  simp only [getNextDirent]
  split
  case isTrue =>
    split
    case isTrue => rw [Option.map_map]; rfl
    case isFalse => rfl
  case isFalse => rw [Option.map_map]; rfl

/-- The position that is left is one on an entry. -/
theorem offset_of_getNextDirent {dp dp' : Dirpos} {e : FatDirent} (hdp : 0 ≤ dp.offset)
    (h : fs.getNextDirent dp = some (e, dp')) : 0 ≤ dp'.offset := by
  simp only [getNextDirent] at h
  split at h
  case isTrue =>
    split at h
    case isTrue =>
      obtain ⟨data, -, heq⟩ := Option.map_eq_some_iff.mp h
      cases heq
      exact le_refl 0
    case isFalse => cases h
  case isFalse =>
    obtain ⟨data, -, heq⟩ := Option.map_eq_some_iff.mp h
    cases heq
    exact Int.add_nonneg hdp (by decide)

/-- These entries are ahead of a position on an entry, whatever its cluster. -/
def Ahead (fs : LibfatFilesystem) (dp : Dirpos) (es : List FatDirent) : Prop :=
  0 ≤ dp.offset ∧ ∀ cluster, Yields fs.getNextDirent { dp with cluster } es

theorem Ahead.withCluster {dp : Dirpos} {es : List FatDirent} (h : fs.Ahead dp es)
    (cluster : Int32) : fs.Ahead { dp with cluster } es :=
  ⟨h.1, h.2⟩

theorem isAhead (fs : LibfatFilesystem) : IsAhead fs.getNextDirent fs.Ahead where
  nil dp h := by
    cases h.2 dp.cluster with
    | nil hnext => exact hnext
  cons dp e es h := by
    cases h.2 dp.cluster with
    | @cons _ dp' _ _ hnext _ =>
        have hnext : fs.getNextDirent dp = some (e, dp') := hnext
        refine ⟨dp', hnext, offset_of_getNextDirent h.1 hnext, fun cluster => ?_⟩
        cases h.2 cluster with
        | cons hnext' hrest =>
            rw [getNextDirent_cluster, hnext, Option.map_some] at hnext'
            cases hnext'
            exact hrest

/-- **A directory is read entry by entry.** -/
theorem DirChain.exists_ahead {cluster : Int32} {contents : List (List UInt8)}
    (h : fs.DirChain cluster contents) (dp : Dirpos) (hdp : dp.cluster = cluster) :
    ∃ e es dp', contents.flatMap direntsOf = e :: es ∧
      fs.getFirstDirent dp = some (e, dp') ∧ fs.Ahead dp' es := by
  obtain ⟨n, hn⟩ := fs.exists_sectorSize
  obtain ⟨data, rest, rfl, hread, -⟩ := h.chain.yields cluster hn
  refine ⟨direntAt data 0, direntsFrom data 1 n ++ rest.flatMap direntsOf,
    ⟨cluster, 0, fs.libfatClustertosector cluster⟩, ?_, ?_, le_refl 0, fun c => ?_⟩
  · rw [List.flatMap_cons, direntsOf_eq hread hn, List.cons_append]
  · simp only [getFirstDirent, hdp]
    rw [if_pos h.sector, hread]
    rfl
  · obtain ⟨data', rest', heq, -, hyields⟩ := h.chain.yields c hn
    cases heq
    exact hyields

end LibfatFilesystem

end Nawam
