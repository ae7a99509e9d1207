import Nawam.Base.Trace
import Nawam.Net.DbxInfo
import Nawam.Net.Download
import Nawam.Security.CommitDocument

/-!
# The DBX refresh

`NawamReadDbxCache`, `NawamCommitDbxCache` and `NawamRefreshDbx` of `net.c`.
For each architecture a marker in the settings says how recent the cached DBX
is, and the revocation check prefers the cache to the embedded DBX when the
marker is above the embedded time stamp. Cache and marker are two separate
stores, updated one after the other over a network and a disk that may fail
at any point; the invariant (`Fresh`) is that a marker is never ahead of what
is in the cache.

A cache file carries, besides its bytes, the time stamp of the commit it was
fetched for. No code reads that; it is there for the invariant.
-/

namespace Nawam

open Ascii

/-! ## State -/

/-- A cache file, and the commit it was obtained for. -/
structure CacheFile where
  bytes : List UInt8
  commit : ℕ

/-- The settings, all `int64_t`, and the files. -/
structure DbxState where
  setting : List UInt8 → ℤ
  files : Files (List UInt8) CacheFile
  int64 : ∀ key, -2 ^ 63 ≤ setting key ∧ setting key < 2 ^ 63

/-- `(int64_t)n` for a `uint64_t` -/
def toInt64 (n : ℕ) : ℤ :=
  if n % 2 ^ 64 < 2 ^ 63 then (n % 2 ^ 64 : ℕ)
  else ((n % 2 ^ 64 : ℕ) : ℤ) - 2 ^ 64

theorem toInt64_bounds (n : ℕ) : -2 ^ 63 ≤ toInt64 n ∧ toInt64 n < 2 ^ 63 := by
  unfold toInt64
  split
  · omega
  · omega

theorem toInt64_of_lt {n : ℕ} (h : n < 2 ^ 63) : toInt64 n = n := by
  unfold toInt64
  rw [if_pos (by omega)]
  omega

/-- `WriteSetting64`, when it stores the value. -/
def DbxState.writeSetting64 (st : DbxState) (key : List UInt8) (n : ℕ) :
    DbxState where
  setting := Function.update st.setting key (toInt64 n)
  files := st.files
  int64 := by
    intro k
    by_cases hk : k = key
    · subst hk
      rw [Function.update_self]
      exact toInt64_bounds n
    · rw [Function.update_of_ne hk]
      exact st.int64 k

/-! ## Source -/

structure CommitEnv where
  utf8ToWchar : Bool
  /-- the directory is there, or could be made -/
  createDirectory : Bool
  /-- the unique part of the name `GetTempFileNameW` chooses -/
  getTempFileName : Option (List UInt8)
  createFile : Bool
  writeFile : Bool
  written : ℕ
  flushFileBuffers : Bool
  malloc : Bool
  setFilePointer : Bool
  /-- what is read back -/
  readFile : Option (List UInt8)
  closeHandle : Bool
  /-- `MoveFileExW` replaces the target, or does nothing -/
  moveFileEx : Bool
  deleteFile : Bool

structure RefreshEnv where
  commitDownload : DownloadEnv
  dbxDownload : DownloadEnv
  /-- `time(NULL)` -/
  now : ℤ
  /-- the calls of `NawamReadDbxCache` succeed -/
  cacheReadable : Bool
  commit : CommitEnv
  /-- `WriteSetting64` stores the value, and what it returns -/
  settingStored : Bool
  settingReturned : Bool

/-- `NawamReadDbxCache`; the caller only looks at the result. -/
def nawamReadDbxCache (readable : Bool) (files : Files (List UInt8) CacheFile)
    (path : List UInt8) : Bool :=
  match files path with
  | none => false
  | some file => readable && (nawamDownloadLengthValid file.bytes.length true &&
      nawamDbxValid file.bytes)

/-- The path up to its last backslash, `none` if there is none. -/
def directoryOf (path : List UInt8) : Option (List UInt8) :=
  match path.reverse.dropWhile (· ≠ backslash) with
  | [] => none
  | _ :: rest => some rest.reverse

/-- The file `GetTempFileNameW(directory, L"ndb", 0, ..)` makes. -/
def temporaryFile (directory unique : List UInt8) : List UInt8 :=
  directory ++ (text "\\" ++ (text "ndb" ++ (unique ++ text ".TMP")))

/-- `NawamCommitDbxCache`; `timestamp` is recorded with the file. -/
def nawamCommitDbxCache (env : CommitEnv) (path data : List UInt8)
    (timestamp : ℕ) (files : Files (List UInt8) CacheFile) :
    Bool × Files (List UInt8) CacheFile :=
  if !nawamDbxValid data then (false, files)
  else if !env.utf8ToWchar then (false, files)
  else
    match directoryOf path with
    | none => (false, files)
    | some directory =>
        if !env.createDirectory then (false, files)
        else
          match env.getTempFileName with
          | none => (false, files)
          | some unique =>
              let temporary := temporaryFile directory unique
              let drop (files : Files (List UInt8) CacheFile) :=
                if env.deleteFile then files.delete temporary else files
              let files := files.write temporary ⟨[], timestamp⟩
              if !env.createFile then (false, drop files)
              else
                let files := files.write temporary
                  ⟨data.take env.written, timestamp⟩
                if !env.writeFile || env.written ≠ data.length ||
                    !env.flushFileBuffers then (false, drop files)
                else if !env.malloc || !env.setFilePointer ||
                    env.readFile ≠ some data then (false, drop files)
                else if !env.closeHandle then (false, drop files)
                else if !env.moveFileEx then (false, drop files)
                else (true, files.replace temporary path)

/-- `strstr`: the rest of `s` from the first `needle` on. -/
def strstr (needle : List UInt8) : List UInt8 → Option (List UInt8)
  | [] => if needle = [] then some [] else none
  | c :: s => if needle <+: c :: s then some (c :: s) else strstr needle s

/-- The loop that encodes the path of the commits query, from offset `n` of
`timestamp_url` on. -/
def encodeLoop : ℕ → List UInt8 → Option (List UInt8)
  | _, [] => some []
  | n, c :: s =>
      if 512 ≤ n + 32 then none
      else
        let code := if c = 47 then text "%2F" else [c]
        (encodeLoop (n + code.length) s).map (code ++ ·)

/-- `timestamp_url` -/
def commitsUrl (url : List UInt8) : Option (List UInt8) := do
  let part ← strstr (text "contents/") url
  let front := url.take (url.length - part.length) ++ text "commits?path="
  if 512 ≤ front.length then none
  else
    let encoded ← encodeLoop front.length (part.drop 9)
    some (front ++ (encoded ++ text "&page=1&per_page=1"))

/-- `DownloadToFileOrBuffer(url, NULL, &data, NULL, FALSE)`: the size, and the
first `size` bytes of the buffer. -/
def downloadToBuffer (env : DownloadEnv) (url : List UInt8) :
    C (ℕ × List UInt8) := do
  let d ← downloadToFileOrBufferEx env url none true fun _ => none
  return (d.result, (d.buffer.getD []).take d.result)

/-- The end of an iteration: the download at the commit `sha`, the cache, and
only then the marker. -/
def installDbx (appDataDir : List UInt8) (env : RefreshEnv)
    (url archname : List UInt8) (timestamp : ℕ) (sha : List UInt8)
    (st : DbxState) : C (Bool × DbxState) := do
  let pinnedUrl := url ++ (text "?ref=" ++ sha)
  if 512 ≤ pinnedUrl.length then return (false, st)
  else
    let (size, data) ← downloadToBuffer env.dbxDownload pinnedUrl
    if !nawamDownloadLengthValid size true || !nawamDbxValid data then
      return (false, st)
    else
      let (committed, files) := nawamCommitDbxCache env.commit
        (dbxPath appDataDir archname) data timestamp st.files
      let st := { st with files := files }
      if !committed then return (false, st)
      else
        let key := dbxKey archname
        let st := if env.settingStored then st.writeSetting64 key timestamp
          else st
        return (env.settingReturned && st.setting key = toInt64 timestamp, st)

/-- An iteration of `NawamRefreshDbx`: `true` counts as ok. -/
def refreshArch (appDataDir : List UInt8) (env : RefreshEnv) (i : ℕ)
    (st : DbxState) : C (Bool × DbxState) := do
  let info ← entry dbxInfo i
  let archname ← entry efiArchname (i + 1)
  match commitsUrl info.url with
  | none => return (false, st)
  | some timestampUrl =>
      let (_, metadata) ← downloadToBuffer env.commitDownload timestampUrl
      match ← nawamCommitTimestamp metadata with
      | none => return (false, st)
      | some (timestamp, sha) =>
          let limit := (toUint64 env.now + 86400) % 2 ^ 64
          let previous := st.setting (dbxKey archname)
          let path := dbxPath appDataDir archname
          if env.now ≤ 0 ∨ limit < timestamp then return (false, st)
          else if previous < 0 ∨ limit < toUint64 previous then
            return (false, st)
          -- the embedded DBX is current
          else if timestamp ≤ info.timestamp ∧
              toUint64 previous ≤ info.timestamp then return (true, st)
          else if maxPath ≤ path.length then return (false, st)
          else if timestamp ≤ toUint64 previous ∧
              nawamReadDbxCache env.cacheReadable st.files path = true then
            return (true, st)
          -- a cache of the same commit is repaired, one is never rolled back
          else if timestamp < toUint64 previous then return (false, st)
          else
            installDbx appDataDir env info.url archname timestamp sha st

/-- The label of an iteration: the architecture, and whether it counted as
ok or as failed. -/
structure ArchOutcome where
  arch : ℕ
  ok : Bool
deriving DecidableEq, Repr

def refreshLoop (appDataDir : List UInt8) (envs : ℕ → RefreshEnv) :
    DbxState → C (Trace ArchOutcome DbxState) :=
  runAll (fun i st => do
      let (ok, st) ← refreshArch appDataDir (envs i) i st
      return [(⟨i, ok⟩, st)])
    (List.range dbxInfo.length)

/-- `NawamRefreshDbx`: the two counters, and the states it goes through. -/
def nawamRefreshDbx (appDataDir : List UInt8) (envs : ℕ → RefreshEnv)
    (ok failed : ℕ) (st : DbxState) :
    C (ℕ × ℕ × Trace ArchOutcome DbxState) := do
  let trace ← refreshLoop appDataDir envs st
  return (ok + trace.countP (·.1.ok), failed + trace.countP (!·.1.ok), trace)

end Nawam
