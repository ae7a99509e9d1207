import Nawam.Parser.FatChain
import Nawam.Parser.TokenLine

/-!
# Listing a FAT directory

`libfat_dumpdir` gives one item of a directory a call. It passes over what is
not listed, collects a long name from the entries in front of the one it belongs
to, and makes a name out of the 8.3 name where there is none. `listDir` is the
loop of its caller. Both go along the chain of the directory; with
`listDir_eq` the result is a function of the entries alone (`listEntries`).
-/

namespace Nawam

/-! ## Source -/

structure LibfatDiritem where
  /-- `wchar_t name[256]` -/
  name : List Wchar
  size : UInt32
  attributes : UInt8

/-- `ARRAYSIZE(di->name)` -/
abbrev nameSize : ℕ := 256

namespace FatDirent

/-- `name[0]`, the sequence number in an entry of a long name. -/
def id (dep : FatDirent) : UInt8 := dep.getD 0 0

/-- `name`, as bytes. -/
def shortBytes (dep : FatDirent) : List UInt8 := dep.take 11

def attr (dep : FatDirent) : UInt8 := dep.getD 11 0

def caseflags (dep : FatDirent) : UInt8 := dep.getD 12 0

def size (dep : FatDirent) : UInt32 := read32 dep 28

/-- `clustlo` and `clusthi` -/
def startCluster (dep : FatDirent) : UInt32 :=
  (read16 dep 26).toUInt32 + ((read16 dep 20).toUInt32 <<< 16)

/-- Volume labels, deleted entries as well as '.' and '..' entries. -/
def isIgnored (dep : FatDirent) : Bool :=
  dep.attr = 0x08 || dep.id = 0xe5 ||
    (dep.id = 46 && dep.getD 2 0 = 32 && (dep.getD 1 0 = 32 || dep.getD 1 0 = 46))

/-- The offset of a UTF-16 unit in an entry of a long name. -/
def unitOffset (i : ℕ) : ℕ :=
  if i < 5 then 1 + 2 * i else if i < 11 then 4 + 2 * i else 6 + 2 * i

/-- What `fill_utf16` reads. -/
def units (dep : FatDirent) : List Wchar :=
  (List.range 13).map fun i => read16 dep (unitOffset i)

end FatDirent

/-- `fill_utf16(&di->name[13 * i], dep->name)` -/
def fillUtf16 (name : List Wchar) (i : ℕ) (dep : FatDirent) : C (List Wchar) :=
  if 13 * i + 13 ≤ name.length then
    .ok (name.take (13 * i) ++ dep.units ++ name.drop (13 * i + 13))
  else .error .outOfBounds

/-- A turn of the loop over what is not listed. -/
def ignoredBody (_ : Unit) (dep : FatDirent) : C (Turn Unit) :=
  .ok (if dep.isIgnored then .on () else .leave)

/-- The index that a sequence number stands for, cut off by a comparison with a
`size_t`. -/
def slotIndex (i : ℤ) : ℕ := if i < 0 ∨ 243 < i then 243 else i.toNat

/-- A turn of the loop over the entries of a long name, with `j` and the name
so far. -/
def longNameBody (state : ℤ × List Wchar) (dep : FatDirent) :
    C (Turn (ℤ × List Wchar)) :=
  let (j, name) := state
  if dep.attr ≠ 0x0F then .ok .leave
  -- End of LFN marker was not found
  else if j < 0 ∧ dep.id &&& 0xF0 ≠ 0x40 then .ok .leave
  else
    let i : ℤ := (dep.id &&& 0x0F).toNat - 1
    if 0 ≤ j ∧ i ≠ j - 1 then .ok (.stop (-3))
    else (fillUtf16 name (slotIndex i) dep).map fun name => .on (i, name)

/-- A character of an 8.3 name, put into lower case where the flags say so. -/
def shortChar (caseflags : UInt8) (i : ℕ) (c : UInt8) : Wchar :=
  if 65 ≤ c ∧ c ≤ 90 ∧ (i < 8 ∧ caseflags &&& 0x02 ≠ 0 ∨ 8 ≤ i ∧ caseflags &&& 0x04 ≠ 0)
  then c.toUInt16 + 0x20 else c.toUInt16

/-- The loop over the bytes of an 8.3 name from the `i`-th on. -/
def shortNameFrom (caseflags : UInt8) : ℕ → List UInt8 → List Wchar
  | _, [] => []
  | i, c :: cs =>
      if 8 ≤ i ∧ c = 32 then []
      else
        (if i = 8 then [46] else []) ++
          ((if c = 32 then [] else [shortChar caseflags i c]) ++
            shortNameFrom caseflags (i + 1) cs)

/-- The name that is made out of an 8.3 name. -/
def shortNameOf (dep : FatDirent) : List Wchar :=
  shortNameFrom dep.caseflags 0 dep.shortBytes

/-- The item for an entry, with the long name that was collected, and the value
returned for it. -/
def diritemOf (name : List Wchar) (dep : FatDirent) : Int32 × LibfatDiritem :=
  let name := name.set (nameSize - 1) 0
  let name :=
    if name.getD 0 0 = 0 then
      shortNameOf dep ++ name.drop (shortNameOf dep).length
    else name
  (dep.startCluster.toInt32, ⟨name, dep.size, dep.attr &&& 0x37⟩)

/-- `memset(di->name, 0, sizeof(di->name))` -/
def noName : List Wchar := List.replicate nameSize 0

/-- `libfat_dumpdir`: a negative code, or the value returned and the item, and
the position of the next call. -/
def libfatDumpdir (fs : LibfatFilesystem) (fuel : ℕ) (dp : Dirpos) :
    C (Reached (Int32 × LibfatDiritem) Dirpos) :=
  match if dp.offset < 0 then fs.getFirstDirent dp else fs.getNextDirent dp with
  | none => .ok (.stop (-1))
  | some (dep, dp) =>
      Reached.bind (walk fs.getNextDirent ignoredBody fuel () dep dp) fun (_, dep) dp =>
        if dep.id = 0 then .ok (.stop (-2))
        else
          Reached.bind (walk fs.getNextDirent longNameBody fuel (-1, noName) dep dp)
            fun ((_, name), dep) dp => .ok (.here (diritemOf name dep) dp)

/-- What the caller sees of an item: the name is a C string. -/
structure DirItem where
  name : List Wchar
  size : UInt32
  attributes : UInt8
  cluster : UInt32
deriving DecidableEq

def DirItem.of (call : Int32 × LibfatDiritem) : DirItem :=
  ⟨call.2.name.takeWhile (· ≠ 0), call.2.size, call.2.attributes, call.1.toUInt32⟩

/-- The loop of `DumpFatDir`: the items up to a negative value. -/
def listDir (fs : LibfatFilesystem) (fuel : ℕ) : ℕ → Dirpos → C (List DirItem)
  | 0, _ => .error .outOfFuel
  | n + 1, dp =>
      match libfatDumpdir fs fuel dp with
      | .error e => .error e
      | .ok (.stop _) => .ok []
      | .ok (.here call dp) =>
          if call.1 < 0 then .ok []
          else (listDir fs fuel n { dp with cluster := call.1 }).map (DirItem.of call :: ·)

/-! ## The entries alone -/

/-- `libfat_dumpdir`, on the entries that are left. -/
def dumpEntries (es : List FatDirent) :
    C (Reached (Int32 × LibfatDiritem) (List FatDirent)) :=
  Reached.bind (walkList ignoredBody () es) fun (_, dep) es =>
    if dep.id = 0 then .ok (.stop (-2))
    else
      Reached.bind (walkList longNameBody (-1, noName) (dep :: es))
        fun ((_, name), dep) es => .ok (.here (diritemOf name dep) es)

theorem dumpEntries_length {es rest : List FatDirent} {call : Int32 × LibfatDiritem}
    (h : dumpEntries es = .ok (.here call rest)) : rest.length < es.length := by
  obtain ⟨⟨⟨⟩, dep⟩, es', hwalk, h⟩ := Reached.bind_eq_here h
  have hlt := walkList_length hwalk
  dsimp only at h
  split at h
  case isTrue => cases h
  case isFalse =>
    obtain ⟨⟨⟨j, name⟩, dep'⟩, es'', hwalk', h⟩ := Reached.bind_eq_here h
    have hlt' := walkList_length hwalk'
    simp only [Except.ok.injEq, Reached.here.injEq] at h
    rw [List.length_cons, h.2] at hlt'
    omega

def listEntries (es : List FatDirent) : C (List DirItem) :=
  match _hdump : dumpEntries es with
  | .error e => .error e
  | .ok (.stop _) => .ok []
  | .ok (.here call rest) =>
      if call.1 < 0 then .ok []
      else (listEntries rest).map (DirItem.of call :: ·)
termination_by es.length
decreasing_by exact dumpEntries_length _hdump

theorem listEntries_stop {es : List FatDirent} {code : Int32}
    (h : dumpEntries es = .ok (.stop code)) : listEntries es = .ok [] := by
  rw [listEntries]
  split
  case h_1 h' => rw [h] at h'; cases h'
  case h_2 => rfl
  case h_3 h' => rw [h] at h'; cases h'

theorem listEntries_error {es : List FatDirent} {e : Fault}
    (h : dumpEntries es = .error e) : listEntries es = .error e := by
  rw [listEntries]
  split
  case h_1 h' => rw [h] at h'; cases h'; rfl
  case h_2 h' => rw [h] at h'; cases h'
  case h_3 h' => rw [h] at h'; cases h'

theorem listEntries_here {es rest : List FatDirent} {call : Int32 × LibfatDiritem}
    (h : dumpEntries es = .ok (.here call rest)) :
    listEntries es =
      if call.1 < 0 then .ok [] else (listEntries rest).map (DirItem.of call :: ·) := by
  rw [listEntries]
  split
  case h_1 h' => rw [h] at h'; cases h'
  case h_2 h' => rw [h] at h'; cases h'
  case h_3 h' => rw [h] at h'; cases h'; rfl

/-! ## Along the chain -/

variable {fs : LibfatFilesystem}

/-- A call that reads an entry does what it does on the entries. -/
theorem libfatDumpdir_mirrors {dp dp' : Dirpos} {dep : FatDirent} {es : List FatDirent}
    {fuel : ℕ}
    (hread : (if dp.offset < 0 then fs.getFirstDirent dp else fs.getNextDirent dp) =
      some (dep, dp'))
    (hahead : fs.Ahead dp' es) (hfuel : es.length < fuel) :
    Mirrors fs.Ahead (libfatDumpdir fs fuel dp) (dumpEntries (dep :: es)) := by
  rw [libfatDumpdir, hread]
  refine (fs.isAhead.walk_mirrors hahead hfuel).bind ?_
  rintro ⟨⟨⟩, dep⟩ dp es hwalk hahead
  dsimp only
  split
  case isTrue => rfl
  case isFalse =>
    have hlt := walkList_length hwalk
    rw [List.length_cons] at hlt
    refine (fs.isAhead.walk_mirrors hahead (by omega)).bind ?_
    rintro ⟨⟨j, name⟩, dep⟩ dp es - hahead
    exact ⟨dp, rfl, hahead⟩

theorem libfatDumpdir_ahead {dp : Dirpos} {es : List FatDirent} {fuel : ℕ}
    (hahead : fs.Ahead dp es) (hfuel : es.length ≤ fuel) :
    Mirrors fs.Ahead (libfatDumpdir fs fuel dp) (dumpEntries es) := by
  have hoffset : ¬dp.offset < 0 := not_lt.mpr hahead.1
  cases es with
  | nil =>
      rw [libfatDumpdir, if_neg hoffset, fs.isAhead.nil dp hahead]
      rfl
  | cons e es =>
      obtain ⟨dp', hnext, hrest⟩ := fs.isAhead.cons dp e es hahead
      exact libfatDumpdir_mirrors (by rw [if_neg hoffset, hnext]) hrest hfuel

theorem listDir_succ {dp : Dirpos} {es : List FatDirent} {fuel n : ℕ}
    (hcall : Mirrors fs.Ahead (libfatDumpdir fs fuel dp) (dumpEntries es))
    (hrest : ∀ dp' rest call, dumpEntries es = .ok (.here call rest) →
      fs.Ahead dp' rest → listDir fs fuel n dp' = listEntries rest) :
    listDir fs fuel (n + 1) dp = listEntries es := by
  rw [listDir]
  match hdump : dumpEntries es with
  | .error e =>
      rw [hdump] at hcall
      rw [show libfatDumpdir fs fuel dp = .error e from hcall, listEntries_error hdump]
  | .ok (.stop code) =>
      rw [hdump] at hcall
      rw [show libfatDumpdir fs fuel dp = .ok (.stop code) from hcall,
        listEntries_stop hdump]
  | .ok (.here call rest) =>
      rw [hdump] at hcall
      obtain ⟨dp', hcall, hahead⟩ := hcall
      rw [hcall, listEntries_here hdump]
      dsimp only
      rw [hrest _ rest call hdump (hahead.withCluster call.1)]

theorem listDir_ahead {fuel : ℕ} : ∀ (n : ℕ) {dp : Dirpos} {es : List FatDirent},
    fs.Ahead dp es → es.length ≤ fuel → es.length < n →
    listDir fs fuel n dp = listEntries es
  | n + 1, dp, es, hahead, hfuel, hn => by
      refine listDir_succ (libfatDumpdir_ahead hahead hfuel) ?_
      intro dp' rest call hdump hahead'
      have hlt := dumpEntries_length hdump
      exact listDir_ahead n hahead' (by omega) (by omega)

/-- **The listing is one of the entries**: with fuel enough it is what
`listEntries` makes of them. -/
theorem listDir_eq {cluster : Int32} {contents : List (List UInt8)}
    (h : fs.DirChain cluster contents) {fuel n : ℕ}
    (hfuel : (contents.flatMap direntsOf).length ≤ fuel)
    (hn : (contents.flatMap direntsOf).length < n) :
    listDir fs fuel n ⟨cluster, -1, 0⟩ = listEntries (contents.flatMap direntsOf) := by
  obtain ⟨e, es, dp', heq, hfirst, hahead⟩ := h.exists_ahead ⟨cluster, -1, 0⟩ rfl
  rw [heq] at hfuel hn ⊢
  obtain ⟨m, rfl⟩ := Nat.exists_eq_succ_of_ne_zero (Nat.ne_zero_of_lt hn)
  have hcall : Mirrors fs.Ahead (libfatDumpdir fs fuel ⟨cluster, -1, 0⟩)
      (dumpEntries (e :: es)) :=
    libfatDumpdir_mirrors (by rw [if_pos (show (-1 : ℤ) < 0 by decide), hfirst]) hahead hfuel
  refine listDir_succ hcall ?_
  intro dp' rest call hdump hahead'
  have hlt := dumpEntries_length hdump
  exact listDir_ahead m hahead' (by omega) (by omega)

end Nawam
