import Nawam.Base.CString
import Nawam.Parser.FatLinks
import Nawam.Parser.IniSettings

/-!
# Extracting a FAT image

`DumpFatDir` goes through a directory with `libfat_dumpdir`, and for every
subdirectory calls itself with the cluster that its entry names; for cluster 0,
which is the root directory, it opens the image, and closes it at the end. There
is nothing that would stop it where an entry or the FAT leads back to where it
came from: it ends, whatever it meets with at the destination, exactly if the
links of the image do not (`dumpFatDir_ends_iff`).
-/

namespace Nawam

open Relation

/-! ## Source -/

/-- An image, by its sectors. -/
structure FatImage where
  read : UInt64 → Option (List UInt8)
  /-- `LIBFAT_SECTOR_SHIFT` -/
  sectorShift : ℕ
  shift_le : 9 ≤ sectorShift
  read_length : ∀ n bs, read n = some bs → bs.length = 2 ^ sectorShift

namespace FatImage

variable (image : FatImage)

def fatsize (bs : List UInt8) : UInt32 :=
  if read16 bs 22 = 0 then read32 bs 36 else (read16 bs 22).toUInt32

def sectors (bs : List UInt8) : UInt32 :=
  if read16 bs 19 = 0 then read32 bs 32 else (read16 bs 19).toUInt32

def rootdir (bs : List UInt8) : UInt64 :=
  (read16 bs 14).toUInt64 + (fatsize bs).toUInt64 * (bs.getD 16 0).toUInt64

/-- A number of bytes in sectors, rounded up. -/
def inSectors (n : UInt32) : UInt32 :=
  (n + (UInt32.ofNat (2 ^ image.sectorShift) - 1)) >>> UInt32.ofNat image.sectorShift

def data (bs : List UInt8) : UInt64 :=
  rootdir bs + (image.inSectors ((read16 bs 17).toUInt32 <<< 5)).toUInt64

/-- The type of the FAT for a number of clusters, and the size that it has at
least. -/
def fatTypeOf (nclusters : UInt32) : Option (FatType × UInt32) :=
  let endcluster := nclusters + 2
  if nclusters ≤ 0xff4 then some (.fat12, endcluster + (endcluster >>> 1))
  else if nclusters ≤ 0xfff4 then some (.fat16, endcluster <<< 1)
  else if nclusters ≤ 0xffffff4 then some (.fat28, endcluster <<< 2)
  else none

def clustshift (bs : List UInt8) : Option ℕ :=
  (List.range 9).find? fun i => UInt8.ofNat (1 <<< i) = bs.getD 13 0

end FatImage

def libfatOpen (image : FatImage) : Option LibfatFilesystem := do
  let bs ← image.read 0
  guard ((read16 bs 11).toNat = 2 ^ image.sectorShift)
  let clustshift ← FatImage.clustshift bs
  let fs_end := (FatImage.sectors bs).toUInt64
  guard (image.data bs < fs_end)
  let nclusters := ((fs_end - image.data bs) >>> UInt64.ofNat clustshift).toUInt32
  let (fatType, minfatsize) ← FatImage.fatTypeOf nclusters
  guard (image.inSectors minfatsize ≤ FatImage.fatsize bs)
  return {
    read := image.read
    sectorShift := image.sectorShift
    fatType
    clustsize := UInt32.ofNat (1 <<< clustshift)
    clustshift
    endcluster := (nclusters + 2).toInt32
    rootcluster := if fatType = .fat28 then (read32 bs 44).toInt32 else 0
    fat := (read16 bs 14).toUInt64
    rootdir := FatImage.rootdir bs
    data := image.data bs
    shift_le := image.shift_le
    read_length := image.read_length }

/-- What the extraction meets with, with what becomes of it. -/
structure DumpEnv (ω : Type) where
  /-- the ISO has the image, and its first blocks can be read -/
  readImage : ω → Bool × ω
  /-- `CreateDirectoryU`: the directory is there now -/
  createDirectory : List UInt8 → ω → Bool × ω
  /-- `PathFileExistsU` -/
  pathFileExists : List UInt8 → ω → Bool × ω
  /-- `CreateFileU`, with the attributes -/
  createFile : List UInt8 → UInt8 → ω → Bool × ω
  /-- `IS_ERROR(ErrorStatus)` -/
  isError : ω → Bool × ω
  /-- `WriteFileWithRetry`: all of it is written -/
  writeFile : List UInt8 → List UInt8 → ω → Bool × ω
  /-- `fix_config` -/
  fixConfig : List UInt8 → ω → ω

/-- The file system that is open, `lf_fs`, and everything else. -/
structure DumpState (ω : Type) where
  lfFs : Option LibfatFilesystem
  world : ω

def isConf (name : List UInt8) : Bool :=
  4 < name.length ∧ (name.drop (name.length - 5)).map asciiLower = Ascii.text ".conf"

section

variable {ω : Type} (env : DumpEnv ω)

/-- The sectors of a file, written one after the other; `false` where everything
is given up. -/
def dumpSectors (fs : LibfatFilesystem) (target : List UInt8) (size : ℕ) (s : UInt64)
    (written : ℕ) (w : ω) : Bool × ω :=
  if s ≠ 0 ∧ s < 0xFFFFFFFF ∧ written < size then
    match fs.read s with
    | none => (false, w)
    | some buf =>
        let error := env.isError w
        if error.1 then (false, error.2)
        else
          let n := min fs.sectorSize (size - written)
          let done := env.writeFile target (buf.take n) error.2
          if done.1 then
            dumpSectors fs target size (fs.libfatNextsector s) (written + n) done.2
          else (true, done.2)
  else (true, w)
termination_by size - written
decreasing_by
  have hpos : 0 < fs.sectorSize := Nat.two_pow_pos _
  omega

def targetOf (path : List UInt8) (di : LibfatDiritem) : List UInt8 :=
  path ++ (Ascii.text "\\" ++ wcharToUtf8 (di.name.takeWhile (· ≠ 0)))

/-- What is done about an item; `false` where everything is given up. -/
def dumpItem (dumpDir : List UInt8 → Int32 → DumpState ω → C (Bool × DumpState ω))
    (fs : LibfatFilesystem) (path : List UInt8) (cluster : Int32) (di : LibfatDiritem)
    (st : DumpState ω) : C (Bool × DumpState ω) :=
  let target := targetOf path di
  if di.isDir then
    let created := env.createDirectory target st.world
    if created.1 then dumpDir target cluster { st with world := created.2 }
    else .ok (true, { st with world := created.2 })
  else
    let found := env.pathFileExists target st.world
    if found.1 then .ok (true, { st with world := found.2 })
    else
      let created := env.createFile target di.attributes found.2
      if created.1 then
        let dumped := dumpSectors env fs target di.size.toNat (fs.libfatClustertosector cluster)
          0 created.2
        if dumped.1 then
          let w := if isConf (wcharToUtf8 (di.name.takeWhile (· ≠ 0))) then
            env.fixConfig target dumped.2 else dumped.2
          .ok (true, { st with world := w })
        else .ok (false, { st with world := dumped.2 })
      else .ok (true, { st with world := created.2 })

def dumpItems (dumpDir : List UInt8 → Int32 → DumpState ω → C (Bool × DumpState ω))
    (path : List UInt8) (fuel : ℕ) : ℕ → Dirpos → DumpState ω → C (Bool × DumpState ω)
  | 0, _, _ => .error .outOfFuel
  | n + 1, dp, st =>
      match st.lfFs with
      | none => .error .badBlock
      | some fs =>
          match libfatDumpdir fs fuel dp with
          | .error e => .error e
          | .ok (.stop _) => .ok (true, st)
          | .ok (.here call dp) =>
              if call.1 < 0 then .ok (true, st)
              else
                match dumpItem env dumpDir fs path call.1 call.2 st with
                | .error e => .error e
                | .ok (false, st) => .ok (false, st)
                | .ok (true, st) =>
                    dumpItems dumpDir path fuel n { dp with cluster := call.1 } st

def dumpFatDir (image : FatImage) : ℕ → List UInt8 → Int32 → DumpState ω →
    C (Bool × DumpState ω)
  | 0, _, _, _ => .error .outOfFuel
  | fuel + 1, path, cluster, st =>
      let dump := dumpItems env (dumpFatDir image fuel) path fuel fuel ⟨cluster, -1, 0⟩
      if cluster = 0 then
        -- the root directory: the image is opened, and closed at the end
        let ready := env.readImage st.world
        if ready.1 then
          match libfatOpen image with
          | none => .ok (false, ⟨none, ready.2⟩)
          | some fs =>
              (dump ⟨some fs, ready.2⟩).map fun out => (out.1, { out.2 with lfFs := none })
        else .ok (false, ⟨none, ready.2⟩)
      else dump st

end

/-! ## Extractions that end -/

namespace FatImage

/-- The extraction ends, wherever to. -/
def Extracts (image : FatImage) : Prop :=
  ∀ (ω : Type) (env : DumpEnv ω) (path : List UInt8) (w : ω), ∃ fuel out,
    dumpFatDir env image fuel path 0 ⟨none, w⟩ = .ok out

/-- No entry or chain of clusters leads back to a place on the way to it, and no
long name overflows. -/
structure LeadsNowhereBack (image : FatImage) : Prop where
  acyclic : ∀ fs, libfatOpen image = some fs → ¬LeadsToCycle fs.Link (.start 0)
  inBounds : ∀ fs, libfatOpen image = some fs →
    ∀ n, ReflTransGen fs.Link (.start 0) n → ¬fs.Overflows n

end FatImage

/-! ## Where the links end -/

section

variable {ω : Type} {env : DumpEnv ω} {image : FatImage} {fs : LibfatFilesystem}

/-- The loop over a directory returns, with the file system still open. -/
def ItemsReturn (env : DumpEnv ω) (image : FatImage) (fs : LibfatFilesystem) (dp : Dirpos)
    (N : ℕ) : Prop :=
  ∀ k ≥ N, ∀ fuel ≥ N, ∀ n ≥ N, ∀ path st, st.lfFs = some fs →
    ∃ out, dumpItems env (dumpFatDir env image k) path fuel n dp st = .ok out ∧
      out.2.lfFs = some fs

theorem ItemsReturn.mono {dp : Dirpos} {N M : ℕ} (h : ItemsReturn env image fs dp N) (hle : N ≤ M) :
    ItemsReturn env image fs dp M :=
  fun k hk fuel hfuel n hn => h k (hle.trans hk) fuel (hle.trans hfuel) n (hle.trans hn)

/-- A subdirectory, which is not the root directory, returns if the loop over it
does. -/
theorem dumpFatDir_returns {cluster : Int32} (hcluster : cluster ≠ 0) {N : ℕ}
    (h : ItemsReturn env image fs ⟨cluster, -1, 0⟩ N) {k : ℕ} (hk : N < k) (path : List UInt8)
    {st : DumpState ω} (hst : st.lfFs = some fs) :
    ∃ out, dumpFatDir env image k path cluster st = .ok out ∧ out.2.lfFs = some fs := by
  obtain ⟨k, rfl⟩ := Nat.exists_eq_succ_of_ne_zero (Nat.ne_zero_of_lt hk)
  have hle := Nat.le_of_lt_succ hk
  obtain ⟨out, hout⟩ := h k hle k hle k hle path st hst
  refine ⟨out, ?_, hout.2⟩
  rw [← hout.1, dumpFatDir, if_neg hcluster]

/-- So does what is done about an item. -/
theorem dumpItem_returns (env : DumpEnv ω) (image : FatImage) (k : ℕ) {cluster : Int32}
    {di : LibfatDiritem}
    (hdir : di.isDir = true → ∀ path st, st.lfFs = some fs →
      ∃ out, dumpFatDir env image k path cluster st = .ok out ∧ out.2.lfFs = some fs)
    (path : List UInt8) {st : DumpState ω} (hst : st.lfFs = some fs) :
    ∃ out, dumpItem env (dumpFatDir env image k) fs path cluster di st = .ok out ∧
      out.2.lfFs = some fs := by
  simp only [dumpItem]
  split
  case isTrue h =>
    split
    case isTrue => exact hdir h _ _ hst
    case isFalse => exact ⟨_, rfl, hst⟩
  case isFalse =>
    split
    case isTrue => exact ⟨_, rfl, hst⟩
    case isFalse =>
      split
      case isTrue =>
        split
        case isTrue => exact ⟨_, rfl, hst⟩
        case isFalse => exact ⟨_, rfl, hst⟩
      case isFalse => exact ⟨_, rfl, hst⟩

/-- From a place between two items whose links come to an end, and which does not
lead to the root directory. -/
theorem exists_itemsReturn (env : DumpEnv ω) (image : FatImage) {n : DirNode}
    (hacc : Acc (TransGen (flip fs.Link)) n) (hends : fs.Ends n) (hj : n.j = -1)
    (hroot : ¬TransGen fs.Link n (.start 0)) : ∃ N, ItemsReturn env image fs n.dp N := by
  induction hacc with
  | intro n _ ih =>
      obtain ⟨j, dp⟩ := n
      obtain rfl : j = -1 := hj
      obtain ⟨call, hcalls, N, hN⟩ := LibfatFilesystem.libfatDumpdir_calls hends
      have hstep : ∀ fuel ≥ N, ∀ k m path st, st.lfFs = some fs →
          dumpItems env (dumpFatDir env image k) path fuel (m + 1) dp st =
            match call with
            | .stop _ => .ok (true, st)
            | .here call dp =>
                if call.1 < 0 then .ok (true, st)
                else
                  match dumpItem env (dumpFatDir env image k) fs path call.1 call.2 st with
                  | .error e => .error e
                  | .ok (false, st) => .ok (false, st)
                  | .ok (true, st) => dumpItems env (dumpFatDir env image k) path fuel m
                      { dp with cluster := call.1 } st := by
        intro fuel hfuel k m path st hst
        rw [dumpItems, hst]
        simp only [hN fuel hfuel]
        cases call with
        | stop code => rfl
        | here call dp => rfl
      have hlast (h : ∀ fuel ≥ N, ∀ k m path st, st.lfFs = some fs →
          dumpItems env (dumpFatDir env image k) path fuel (m + 1) dp st = .ok (true, st)) :
          ∃ N, ItemsReturn env image fs dp N := by
        refine ⟨N + 1, fun k _ fuel hfuel m hm path st hst => ⟨(true, st), ?_, hst⟩⟩
        obtain ⟨m, rfl⟩ := Nat.exists_eq_succ_of_ne_zero (Nat.ne_zero_of_lt hm)
        exact h fuel (Nat.le_of_succ_le hfuel) k m path st hst
      cases call with
      | stop code => exact hlast hstep
      | here call dp' =>
          by_cases hneg : call.1 < 0
          · simp only [if_pos hneg] at hstep
            exact hlast hstep
          simp only [if_neg hneg] at hstep
          obtain ⟨hitem, hdir⟩ := hcalls.resolve_left hneg
          -- what is behind the item, and below it if it is a directory
          obtain ⟨N₁, hN₁⟩ := ih _ (transGen_swap.mpr hitem) (hends.of_leads hitem.to_reflTransGen)
            rfl fun h => hroot (hitem.trans h)
          obtain ⟨N₂, hN₂⟩ : ∃ N₂, call.2.isDir = true →
              call.1 ≠ 0 ∧ ItemsReturn env image fs ⟨call.1, -1, 0⟩ N₂ := by
            by_cases h : call.2.isDir = true
            · have hbelow := hdir h
              obtain ⟨N₂, hN₂⟩ := ih _ (transGen_swap.mpr hbelow)
                (hends.of_leads hbelow.to_reflTransGen) rfl fun h => hroot (hbelow.trans h)
              refine ⟨N₂, fun _ => ⟨fun hzero => hroot ?_, hN₂⟩⟩
              rw [← hzero]
              exact hbelow
            · exact ⟨0, fun hdir => absurd hdir h⟩
          refine ⟨N + N₁ + N₂ + 1, fun k hk fuel hfuel m hm path st hst => ?_⟩
          obtain ⟨m, rfl⟩ := Nat.exists_eq_succ_of_ne_zero (Nat.ne_zero_of_lt hm)
          rw [hstep fuel (by omega) k m path st hst]
          obtain ⟨⟨ret, st'⟩, hout, hst'⟩ := dumpItem_returns env image k
            (fun h path st hst => dumpFatDir_returns (hN₂ h).1 (hN₂ h).2 (by omega) path hst)
            path hst
          rw [hout]
          cases ret with
          | false => exact ⟨_, rfl, hst'⟩
          | true => exact hN₁ k (by omega) fuel (by omega) m (by omega) path st' hst'

end

/-! ## Where the extraction ends -/

/-- Every directory can be created, and all files are there. -/
def allThere : DumpEnv Unit where
  readImage w := (true, w)
  createDirectory _ w := (true, w)
  pathFileExists _ w := (true, w)
  createFile _ _ w := (true, w)
  isError w := (false, w)
  writeFile _ _ w := (true, w)
  fixConfig _ w := w

section

variable {image : FatImage} {fs : LibfatFilesystem}

/-- What a return from a directory says: it is `TRUE`, the links of the directory
end, and the file system is open unless it was the root directory. -/
structure Dumped (fs : LibfatFilesystem) (cluster : Int32) (out : Bool × DumpState Unit) :
    Prop where
  ret : out.1 = true
  ends : fs.Ends (.start cluster)
  lfFs : out.2.lfFs = if cluster = 0 then none else some fs

theorem ends_of_dumpItems
    {dumpDir : List UInt8 → Int32 → DumpState Unit → C (Bool × DumpState Unit)} {fuel : ℕ}
    (hdump : ∀ path cluster st out, st.lfFs = some fs →
      dumpDir path cluster st = .ok out → Dumped fs cluster out) (path : List UInt8) :
    ∀ {n : ℕ} {dp : Dirpos} {st : DumpState Unit} {out : Bool × DumpState Unit},
      st.lfFs = some fs → dumpItems allThere dumpDir path fuel n dp st = .ok out →
      out.1 = true ∧ out.2.lfFs = some fs ∧ fs.Ends ⟨-1, dp⟩ := by
  intro n
  induction n with
  | zero => exact fun _ h => nomatch h
  | succ n ih =>
      intro dp st out hst h
      simp only [dumpItems, hst] at h
      cases hcall : libfatDumpdir fs fuel dp with
      | error e =>
          rw [hcall] at h
          cases h
      | ok reached =>
          rw [hcall] at h
          cases reached with
          | stop code =>
              cases h
              exact ⟨rfl, hst, LibfatFilesystem.ends_of_libfatDumpdir hcall trivial⟩
          | here call dp' =>
              by_cases hneg : call.1 < 0
              · simp only [if_pos hneg] at h
                cases h
                exact ⟨rfl, hst, LibfatFilesystem.ends_of_libfatDumpdir hcall (.inl hneg)⟩
              simp only [if_neg hneg] at h
              by_cases hdir : call.2.isDir = true
              · have hitem : dumpItem allThere dumpDir fs path call.1 call.2 st =
                    dumpDir (targetOf path call.2) call.1 st := if_pos hdir
                rw [hitem] at h
                cases hsub : dumpDir (targetOf path call.2) call.1 st with
                | error e =>
                    rw [hsub] at h
                    cases h
                | ok below =>
                    obtain ⟨ret, st'⟩ := below
                    have hdumped := hdump _ _ _ _ hst hsub
                    obtain rfl : ret = true := hdumped.ret
                    rw [hsub] at h
                    by_cases hzero : call.1 = 0
                    · -- the file system was closed
                      have hclosed : st'.lfFs = none := by
                        rw [hdumped.lfFs, if_pos hzero]
                      cases n with
                      | zero => cases h
                      | succ n =>
                          simp only [dumpItems, hclosed] at h
                          cases h
                    · have hopen : st'.lfFs = some fs := by
                        rw [hdumped.lfFs, if_neg hzero]
                      obtain ⟨hret, hlfFs, hends⟩ := ih hopen h
                      exact ⟨hret, hlfFs, LibfatFilesystem.ends_of_libfatDumpdir hcall
                        (.inr ⟨hends, fun _ => hdumped.ends⟩)⟩
              · have hitem : dumpItem allThere dumpDir fs path call.1 call.2 st = .ok (true, st) :=
                  if_neg hdir
                rw [hitem] at h
                obtain ⟨hret, hlfFs, hends⟩ := ih hst h
                exact ⟨hret, hlfFs, LibfatFilesystem.ends_of_libfatDumpdir hcall
                  (.inr ⟨hends, fun h => absurd h hdir⟩)⟩

theorem dumped_of_dumpFatDir (hopen : libfatOpen image = some fs) :
    ∀ (k : ℕ) (path : List UInt8) (cluster : Int32) (st : DumpState Unit)
      (out : Bool × DumpState Unit), cluster = 0 ∨ st.lfFs = some fs →
      dumpFatDir allThere image k path cluster st = .ok out → Dumped fs cluster out := by
  intro k
  induction k with
  | zero => exact fun _ _ _ _ _ h => nomatch h
  | succ k ih =>
      intro path cluster st out hst h
      have hitems {st : DumpState Unit} {out : Bool × DumpState Unit} (hst : st.lfFs = some fs)
          (h : dumpItems allThere (dumpFatDir allThere image k) path k k ⟨cluster, -1, 0⟩ st =
            .ok out) : out.1 = true ∧ out.2.lfFs = some fs ∧ fs.Ends (.start cluster) :=
        ends_of_dumpItems (fun path cluster st out hst => ih path cluster st out (.inr hst))
          path hst h
      rw [dumpFatDir] at h
      by_cases hcluster : cluster = 0
      · rw [if_pos hcluster] at h
        have hready : (allThere.readImage st.world).1 = true := rfl
        simp only [hready, if_true, hopen] at h
        cases hloop : dumpItems allThere (dumpFatDir allThere image k) path k k ⟨cluster, -1, 0⟩
            ⟨some fs, (allThere.readImage st.world).2⟩ with
        | error e =>
            rw [hloop] at h
            cases h
        | ok out' =>
            rw [hloop] at h
            cases h
            obtain ⟨hret, -, hends⟩ := hitems rfl hloop
            exact ⟨hret, hends, (if_pos hcluster).symm⟩
      · rw [if_neg hcluster] at h
        obtain ⟨hret, hlfFs, hends⟩ := hitems (hst.resolve_left hcluster) h
        exact ⟨hret, hends, by rw [hlfFs, if_neg hcluster]⟩

end

/-- **`DumpFatDir` ends** exactly where the links of the image do: none leads back
to where it comes from, and no name overflows on the way. -/
theorem dumpFatDir_ends_iff (image : FatImage) : image.Extracts ↔ image.LeadsNowhereBack := by
  constructor
  · intro h
    have hends : ∀ fs, libfatOpen image = some fs → fs.Ends (.start 0) := by
      intro fs hopen
      obtain ⟨fuel, out, hout⟩ := h Unit allThere [] ()
      exact (dumped_of_dumpFatDir hopen fuel [] 0 _ out (.inl rfl) hout).ends
    exact ⟨fun fs hopen => ((fs.ends_start_iff 0).mp (hends fs hopen)).1,
      fun fs hopen => ((fs.ends_start_iff 0).mp (hends fs hopen)).2⟩
  · intro h ω env path w
    cases hready : (env.readImage w).1 with
    | false => exact ⟨1, (false, ⟨none, (env.readImage w).2⟩), by simp [dumpFatDir, hready]⟩
    | true =>
        cases hopen : libfatOpen image with
        | none =>
            exact ⟨1, (false, ⟨none, (env.readImage w).2⟩), by simp [dumpFatDir, hready, hopen]⟩
        | some fs =>
            have hacyclic := h.acyclic fs hopen
            have hends := (fs.ends_start_iff 0).mpr ⟨hacyclic, h.inBounds fs hopen⟩
            have hacc := (LibfatFilesystem.ends_iff.mp hends).1
            obtain ⟨N, hN⟩ := exists_itemsReturn env image hacc.transGen hends rfl
              fun hcycle => hacyclic ⟨_, .refl, hcycle⟩
            obtain ⟨out, hout, -⟩ := hN N (le_refl N) N (le_refl N) N (le_refl N) path
              ⟨some fs, (env.readImage w).2⟩ rfl
            refine ⟨N + 1, (out.1, { out.2 with lfFs := none }), ?_⟩
            have hout : dumpItems env (dumpFatDir env image N) path N N ⟨0, -1, 0⟩
              ⟨some fs, (env.readImage w).2⟩ = .ok out := hout
            simp only [dumpFatDir, hready, hopen, if_true, hout]
            rfl

/-! ## A chain of one cluster -/

/-- The boot sector of a FAT32 image whose root directory starts with cluster 2. -/
def cyclicBoot : List UInt8 :=
  List.replicate 11 0 ++ [0, 2, 1, 1, 0, 1, 0, 0, 0, 0, 0xf8, 0, 0] ++ List.replicate 8 0 ++
    [0xfb, 1, 1, 0, 0, 2, 0, 0, 0, 0, 0, 0, 2, 0, 0, 0] ++ List.replicate 464 0

theorem cyclicBoot_length : cyclicBoot.length = 512 := by
  simp only [cyclicBoot, List.length_append, List.length_replicate]
  rfl

/-- A FAT where cluster 2 is followed by itself. -/
def cyclicFat : List UInt8 :=
  [0xf8, 0xff, 0xff, 0x0f, 0xff, 0xff, 0xff, 0x0f, 2, 0, 0, 0] ++ List.replicate 500 0

theorem cyclicFat_length : cyclicFat.length = 512 := by
  simp only [cyclicFat, List.length_append, List.length_replicate]
  rfl

def deletedSector : List UInt8 := List.replicate 512 0xe5

theorem cyclicImage_length (n : UInt64) (bs : List UInt8)
    (h : some (if n = 0 then cyclicBoot else if n = 1 then cyclicFat else deletedSector) =
      some bs) : bs.length = 2 ^ 9 := by
  obtain rfl := Option.some.inj h
  split
  case isTrue => exact cyclicBoot_length
  case isFalse =>
    split
    case isTrue => exact cyclicFat_length
    case isFalse => exact List.length_replicate

def cyclicImage : FatImage where
  read n := some (if n = 0 then cyclicBoot else if n = 1 then cyclicFat else deletedSector)
  sectorShift := 9
  shift_le := le_refl 9
  read_length := cyclicImage_length

theorem cyclicImage_opens : ∃ fs, libfatOpen cyclicImage = some fs ∧ fs.sectorSize = 512 ∧
    fs.libfatClustertosector 0 = 513 ∧ fs.libfatNextsector 513 = 513 ∧
    fs.read 513 = some deletedSector :=
  ⟨_, rfl, rfl, rfl, rfl, rfl⟩

theorem isIgnored_deletedSector {k : ℕ} (hk : k < 512) :
    (LibfatFilesystem.direntAt deletedSector k).isIgnored = true := by
  have hid : (LibfatFilesystem.direntAt deletedSector k).id = 0xe5 := by
    rw [LibfatFilesystem.direntAt, deletedSector, List.drop_replicate, List.take_replicate,
      FatDirent.id, List.getD_eq_getElem?_getD, List.getElem?_replicate, if_pos (by omega)]
    rfl
  simp [FatDirent.isIgnored, hid]

/-- Along a chain of deleted entries that leads back to its sector, what is not
listed is passed over forever. -/
theorem walk_cyclic {fs : LibfatFilesystem} (hsize : fs.sectorSize = 512)
    (hnext : fs.libfatNextsector 513 = 513) (hread : fs.read 513 = some deletedSector)
    (cluster : Int32) : ∀ (fuel : ℕ) {offset : ℤ} {e : FatDirent}, 0 ≤ offset → offset < 512 →
      e.isIgnored = true →
      walk fs.getNextDirent ignoredBody fuel () e ⟨cluster, offset, 513⟩ = .error .outOfFuel := by
  intro fuel
  induction fuel with
  | zero => exact fun _ _ _ => rfl
  | succ fuel ih =>
      intro offset e hpos hlt hignored
      rw [walk, ignoredBody, if_pos hignored]
      by_cases hend : ((512 : ℕ) : ℤ) ≤ offset + 32
      · have hstep : fs.getNextDirent ⟨cluster, offset, 513⟩ =
            some (LibfatFilesystem.direntAt deletedSector 0, ⟨cluster, 0, 513⟩) := by
          simp only [LibfatFilesystem.getNextDirent]
          rw [hsize, if_pos hend, hnext, if_pos (by decide), hread]
          rfl
        simp only [hstep]
        exact ih (le_refl 0) (by decide) (isIgnored_deletedSector (by decide))
      · have hstep : fs.getNextDirent ⟨cluster, offset, 513⟩ =
            some (LibfatFilesystem.direntAt deletedSector (offset + 32).toNat,
              ⟨cluster, offset + 32, 513⟩) := by
          simp only [LibfatFilesystem.getNextDirent]
          rw [hsize, if_neg hend, hread]
          rfl
        simp only [hstep]
        exact ih (by omega) (by omega) (isIgnored_deletedSector (by omega))

/-- Where the root directory is a chain of deleted entries that leads back to its
start the extraction never ends, whatever it meets with. -/
theorem dumpFatDir_cyclic : ¬cyclicImage.Extracts ∧
    ∀ (ω : Type) (env : DumpEnv ω) (path : List UInt8) (w : ω) (fuel : ℕ),
      (env.readImage w).1 = true →
      dumpFatDir env cyclicImage fuel path 0 ⟨none, w⟩ = .error .outOfFuel := by
  have hforever (ω : Type) (env : DumpEnv ω) (path : List UInt8) (w : ω) (fuel : ℕ)
      (hready : (env.readImage w).1 = true) :
      dumpFatDir env cyclicImage fuel path 0 ⟨none, w⟩ = .error .outOfFuel := by
    obtain ⟨fs, hopen, hsize, hstart, hnext, hread⟩ := cyclicImage_opens
    have hcall : ∀ fuel, libfatDumpdir fs fuel ⟨0, -1, 0⟩ = .error .outOfFuel := by
      intro fuel
      have hfirst : fs.firstDirent ⟨0, -1, 0⟩ =
          some (LibfatFilesystem.direntAt deletedSector 0, ⟨0, 0, 513⟩) := by
        rw [LibfatFilesystem.firstDirent, if_pos (by decide), LibfatFilesystem.getFirstDirent]
        simp only [hstart, hread]
        rfl
      simp only [LibfatFilesystem.libfatDumpdir_eq, hfirst, LibfatFilesystem.callFrom]
      rw [walk_cyclic hsize hnext hread 0 fuel (le_refl 0) (by decide)
        (isIgnored_deletedSector (by decide))]
      rfl
    cases fuel with
    | zero => rfl
    | succ fuel =>
        cases fuel with
        | zero => simp [dumpFatDir, hready, hopen, dumpItems, Except.map]
        | succ fuel => simp [dumpFatDir, hready, hopen, dumpItems, hcall, Except.map]
  refine ⟨fun h => ?_, hforever⟩
  obtain ⟨fuel, out, hout⟩ := h Unit allThere [] ()
  rw [hforever Unit allThere [] () fuel rfl] at hout
  cases hout

end Nawam
