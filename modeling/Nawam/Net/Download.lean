import Nawam.Base.Files
import Nawam.Safety.Guards

/-!
# Downloads

`DownloadToFileOrBufferEx` of `net.c`: a document is received into a buffer
or over a file, whose previous version is kept aside until the new one is
complete. What the network, the disk and the user do is the environment
(`DownloadEnv`), and nothing is assumed of it; the function is followed
through each of its exits. The calls that only report progress are left out.
-/

namespace Nawam

open Ascii

/-! ## Source -/

/-- What one iteration of the receive loop meets. -/
structure ReadStep where
  /-- `IS_ERROR(ErrorStatus)`: the user has cancelled -/
  cancelled : Bool
  /-- what `InternetReadFile` delivers, `none` if it fails -/
  read : Option (List UInt8)
  /-- `WriteFile` returned nonzero -/
  writeOk : Bool
  /-- `dwWritten` -/
  written : ℕ

/-- The behaviour of everything around the function. -/
structure DownloadEnv where
  crackUrl : Bool
  getInternetSession : Bool
  internetConnect : Bool
  httpOpenRequest : Bool
  httpAddRequestHeaders : Bool
  httpSendRequest : Bool
  /-- the status code, `none` if the query fails -/
  statusCode : Option ℕ
  /-- the bytes of the Content-Length header, `none` if the query fails -/
  contentLength : Option (List UInt8)
  /-- `calloc` of the backup's name, `MoveFileU` to it, `CreateFileU` -/
  callocName : Bool
  moveToBackup : Bool
  createFile : Bool
  /-- `calloc` of the buffer -/
  callocBuffer : Bool
  stream : ℕ → ReadStep
  /-- `DeleteFileU(file)`, `MoveFileU(bak_file, file)` on the way out -/
  deleteFile : Bool
  moveFromBackup : Bool
  /-- `DeleteFileU(bak_file)` -/
  deleteBackup : Bool

/-- The request up to the declared length: `DownloadStatus`, and `total_size`
if the function goes on. -/
def request (env : DownloadEnv) (url : List UInt8) (buffered : Bool) :
    ℕ × Option ℕ :=
  if !(env.crackUrl && env.getInternetSession && env.internetConnect &&
      env.httpOpenRequest) then (404, none)
  else if text "api.github.com" <:+: url ∧ env.httpAddRequestHeaders = false then
    (404, none)
  else if !env.httpSendRequest then (404, none)
  else
    match env.statusCode with
    | none => (404, none)
    | some status =>
        if status ≠ 200 then (status, none)
        else
          match env.contentLength with
          | none => (status, none)
          | some strsize =>
              if 32 ≤ strsize.length then (status, none)
              else
                match nawamParseContentLength strsize with
                | none => (status, none)
                | some totalSize =>
                    if nawamDownloadLengthValid totalSize buffered then
                      (status, some totalSize)
                    else (status, none)

/-- `file` with `.bak` behind it -/
def bakFile (file : List UInt8) : List UInt8 := file ++ text ".bak"

/-- What the function holds while it receives. -/
structure Receiver where
  files : Files (List UInt8) (List UInt8)
  /-- `*buffer`: the block, `none` for `NULL` -/
  buffer : Option (List UInt8)
  fileCreated : Bool
  backupMoved : Bool
  /-- `size` -/
  size : ℕ
  /-- offset and length of every copy into the block -/
  copies : List (ℕ × ℕ)

/-- Make the target: whether the function goes on, and what it holds. -/
def openTarget (env : DownloadEnv) (file : Option (List UInt8))
    (buffer : Bool) (totalSize : ℕ) (files : Files (List UInt8) (List UInt8)) :
    Bool × Receiver :=
  match file with
  | some path =>
      let create (files : Files (List UInt8) (List UInt8))
          (backupMoved : Bool) : Bool × Receiver :=
        if env.createFile then
          (true, ⟨files.write path [], none, true, backupMoved, 0, []⟩)
        else (false, ⟨files, none, false, backupMoved, 0, []⟩)
      if (files path).isSome then
        -- MoveFileU does not replace a backup that is already there
        if env.callocName && (env.moveToBackup &&
            (files (bakFile path)).isNone) then
          create (files.replace path (bakFile path)) true
        else (false, ⟨files, none, false, false, 0, []⟩)
      else create files false
  | none =>
      if buffer && env.callocBuffer then
        (true, ⟨files, some (List.replicate (totalSize + 2) 0), false, false, 0,
          []⟩)
      else (false, ⟨files, none, false, false, 0, []⟩)

/-- A chunk goes to the file or into the block; `false` is `goto out`. -/
def storeChunk (file : Option (List UInt8)) (step : ReadStep)
    (chunk : List UInt8) (rx : Receiver) : C (Bool × Receiver) :=
  match file with
  | some path =>
      let contents := (rx.files path).getD [] ++ chunk.take step.written
      let rx' := { rx with files := rx.files.write path contents }
      if !step.writeOk || step.written ≠ chunk.length then return (false, rx')
      else return (true, { rx' with size := rx.size + chunk.length })
  | none => do
      match rx.buffer with
      | none => .error .badBlock
      | some block =>
          let block ← copyInto block rx.size chunk
          return (true, { rx with
            buffer := some block
            size := rx.size + chunk.length
            copies := rx.copies ++ [(rx.size, chunk.length)] })

/-- How the receive loop was left: `break`, or one of the `goto out`. -/
inductive LoopEnd where
  | complete
  | cancelled
  | readFailed
  | chunkRejected
  | writeFailed
deriving DecidableEq, Repr

/-- `while (1)`, from iteration `i` on. -/
def receiveLoop (stream : ℕ → ReadStep) (file : Option (List UInt8))
    (totalSize : ℕ) : ℕ → ℕ → Receiver → C (LoopEnd × Receiver)
  | 0, _, _ => .error .outOfFuel
  | fuel + 1, i, rx => do
      let step := stream i
      if step.cancelled then return (.cancelled, rx)
      else
        match step.read with
        | none => return (.readFailed, rx)
        | some chunk =>
            if chunk.length = 0 then return (.complete, rx)
            else if !nawamDownloadChunkValid totalSize rx.size chunk.length then
              return (.chunkRejected, rx)
            else
              let (stored, rx) ← storeChunk file step chunk rx
              if stored then receiveLoop stream file totalSize fuel (i + 1) rx
              else return (.writeFailed, rx)

/-- `ErrorStatus` after the call. -/
inductive ErrorStatus where
  | none
  | cancelled
  | invalidData
  | writeFault
deriving DecidableEq, Repr

/-- `ErrorStatus` at `out`; a complete loop only fails on the length. -/
def LoopEnd.errorStatus : LoopEnd → ErrorStatus
  | .complete => .writeFault
  | .cancelled => .cancelled
  | .readFailed => .none
  | .chunkRejected => .invalidData
  | .writeFailed => .none

structure Download where
  /-- `r ? size : 0` -/
  result : ℕ
  buffer : Option (List UInt8)
  files : Files (List UInt8) (List UInt8)
  downloadStatus : ℕ
  errorStatus : ErrorStatus
  copies : List (ℕ × ℕ)

/-- The failing exit: delete what was created, put the backup back. -/
def undo (env : DownloadEnv) (file : Option (List UInt8)) (rx : Receiver) :
    Files (List UInt8) (List UInt8) :=
  match file with
  | none => rx.files
  | some path =>
      let files := if rx.fileCreated && env.deleteFile then
        rx.files.delete path else rx.files
      if rx.backupMoved && (env.moveFromBackup && (files path).isNone) then
        files.replace (bakFile path) path else files

/-- The successful exit: the backup is not needed any more. -/
def commit (env : DownloadEnv) (file : Option (List UInt8)) (rx : Receiver) :
    Files (List UInt8) (List UInt8) :=
  match file with
  | none => rx.files
  | some path =>
      if rx.backupMoved && env.deleteBackup then
        rx.files.delete (bakFile path) else rx.files

/-- `DownloadToFileOrBufferEx`; `buffer` is whether the caller gives a
pointer for the buffer. -/
def downloadToFileOrBufferEx (env : DownloadEnv) (url : List UInt8)
    (file : Option (List UInt8)) (buffer : Bool)
    (files : Files (List UInt8) (List UInt8)) : C Download := do
  match request env url file.isNone with
  | (status, none) => return ⟨0, none, files, status, .none, []⟩
  | (status, some totalSize) =>
      let (opened, rx) := openTarget env file buffer totalSize files
      if !opened then return ⟨0, none, undo env file rx, status, .none, []⟩
      else
        let (left, rx) ←
          receiveLoop env.stream file totalSize (totalSize + 1) 0 rx
        if left = .complete ∧ rx.size = totalSize then
          return ⟨rx.size, rx.buffer, commit env file rx, 200, .none, rx.copies⟩
        else
          return ⟨0, none, undo env file rx, status, left.errorStatus, rx.copies⟩

/-! ## The loop -/

/-- What the loop leaves alone: every file but the target, and what the exits
look at. -/
structure Kept (file : Option (List UInt8)) (totalSize : ℕ)
    (start rx : Receiver) : Prop where
  others : ∀ q, file ≠ some q → rx.files q = start.files q
  created : rx.fileCreated = start.fileCreated
  moved : rx.backupMoved = start.backupMoved
  copies : ∀ c ∈ rx.copies, c.1 + c.2 ≤ totalSize

/-- The chunks are at the target, and nothing else is. -/
structure Received (file : Option (List UInt8)) (totalSize : ℕ)
    (chunks : List (List UInt8)) (rx : Receiver) : Prop where
  size_eq : rx.size = chunks.flatten.length
  size_le : rx.size ≤ totalSize
  inFile : ∀ path, file = some path → rx.files path = some chunks.flatten
  inBuffer : file = none → rx.buffer
    = some (chunks.flatten ++ List.replicate (totalSize + 2 - rx.size) 0)

/-- The server delivered these chunks, one in each iteration. -/
def Delivered (stream : ℕ → ReadStep) (chunks : List (List UInt8)) : Prop :=
  ∀ i < chunks.length, (stream i).read = chunks[i]?

theorem Delivered.concat {stream : ℕ → ReadStep} {chunks : List (List UInt8)}
    {chunk : List UInt8} (h : Delivered stream chunks)
    (hread : (stream chunks.length).read = some chunk) :
    Delivered stream (chunks ++ [chunk]) := by
  intro i hi
  rw [List.length_append, List.length_singleton] at hi
  by_cases hlt : i < chunks.length
  · rw [h i hlt, List.getElem?_append_left hlt]
  · have heq : i = chunks.length := by omega
    subst heq
    rw [hread]
    simp

section Loop

variable {file : Option (List UInt8)} {totalSize : ℕ} {start rx : Receiver}
  {chunks : List (List UInt8)}

/-- A chunk that fits is stored behind the others, or the step fails and only
the target differs. -/
theorem storeChunk_spec (hkept : Kept file totalSize start rx)
    (hrx : Received file totalSize chunks rx) (step : ReadStep)
    {chunk : List UInt8} (hfits : rx.size + chunk.length ≤ totalSize) :
    ∃ stored rx', storeChunk file step chunk rx = .ok (stored, rx') ∧
      Kept file totalSize start rx' ∧
      (stored = true → Received file totalSize (chunks ++ [chunk]) rx' ∧
        rx'.size = rx.size + chunk.length) := by
  have hflat : (chunks ++ [chunk]).flatten = chunks.flatten ++ chunk := by simp
  cases file with
  | some path =>
      have hothers : ∀ (contents : List UInt8) q, some path ≠ some q →
          rx.files.write path contents q = start.files q := by
        intro contents q hq
        rw [Files.write_other fun h => hq (congrArg some h.symm)]
        exact hkept.others q hq
      unfold storeChunk
      simp only [hrx.inFile path rfl, Option.getD_some]
      by_cases hfail : (!step.writeOk || step.written ≠ chunk.length) = true
      · refine ⟨false, _, by rw [if_pos hfail]; rfl, ?_, by simp⟩
        exact ⟨hothers _, hkept.created, hkept.moved, hkept.copies⟩
      · have hwritten : step.written = chunk.length := by
          by_contra hne
          exact hfail (by simp [hne])
        refine ⟨true, _, by rw [if_neg hfail]; rfl, ?_, ?_⟩
        · exact ⟨hothers _, hkept.created, hkept.moved, hkept.copies⟩
        · intro _
          refine ⟨⟨?_, hfits, ?_, by simp⟩, rfl⟩
          · rw [hflat, List.length_append, ← hrx.size_eq]
          · intro path' hpath
            rw [← Option.some.inj hpath, hflat, hwritten, List.take_length]
            exact Files.write_same ..
  | none =>
      have hblock := hrx.inBuffer rfl
      have hsize := hrx.size_eq
      -- the copy lands right behind the chunks
      have hcopy : copyInto
          (chunks.flatten ++ List.replicate (totalSize + 2 - rx.size) 0) rx.size
          chunk = .ok ((chunks ++ [chunk]).flatten ++
            List.replicate (totalSize + 2 - (rx.size + chunk.length)) 0) := by
        unfold copyInto
        rw [if_pos (by simp only [List.length_append, List.length_replicate];
                       omega)]
        rw [hsize, List.take_left, ← List.drop_drop, List.drop_left,
          List.drop_replicate, hflat, List.append_assoc, Nat.sub_sub]
      refine ⟨true, { rx with
        buffer := some ((chunks ++ [chunk]).flatten ++
          List.replicate (totalSize + 2 - (rx.size + chunk.length)) 0)
        size := rx.size + chunk.length
        copies := rx.copies ++ [(rx.size, chunk.length)] }, ?_, ?_, ?_⟩
      · simp only [storeChunk, hblock, hcopy, C.ok_bind, C.pure_eq]
      · refine ⟨hkept.others, hkept.created, hkept.moved, ?_⟩
        intro c hc
        rcases List.mem_append.mp hc with hc | hc
        · exact hkept.copies c hc
        · rw [List.mem_singleton.mp hc]
          exact hfits
      · intro _
        refine ⟨⟨?_, hfits, by simp, fun _ => rfl⟩, rfl⟩
        rw [hflat, List.length_append, ← hsize]

theorem chunkValid_iff (total used chunk : ℕ) :
    nawamDownloadChunkValid total used chunk = true ↔ used + chunk ≤ total := by
  simp only [nawamDownloadChunkValid, Bool.and_eq_true, decide_eq_true_eq]
  omega

/-- **A run of the loop**: it ends, it touches nothing but the target, and if
the server ended the stream the target holds what was delivered. -/
theorem receiveLoop_spec (stream : ℕ → ReadStep) : ∀ (fuel : ℕ)
    (chunks : List (List UInt8)) (rx : Receiver),
    Kept file totalSize start rx → Received file totalSize chunks rx →
    Delivered stream chunks → totalSize < fuel + rx.size →
    ∃ left rx', receiveLoop stream file totalSize fuel chunks.length rx
        = .ok (left, rx') ∧ Kept file totalSize start rx' ∧
      (left = .complete → ∃ chunks', Received file totalSize chunks' rx' ∧
        Delivered stream chunks' ∧
        (stream chunks'.length).read = some []) := by
  intro fuel
  induction fuel with
  | zero =>
      intro chunks rx _ hrx _ hfuel
      have := hrx.size_le
      omega
  | succ fuel ih =>
      intro chunks rx hkept hrx hdel hfuel
      rw [receiveLoop]
      simp only
      by_cases hcancel : (stream chunks.length).cancelled = true
      · exact ⟨.cancelled, rx, by rw [if_pos hcancel]; rfl, hkept, by simp⟩
      rw [if_neg hcancel]
      cases hread : (stream chunks.length).read with
      | none => exact ⟨.readFailed, rx, rfl, hkept, by simp⟩
      | some chunk =>
          simp only
          by_cases hempty : chunk.length = 0
          · refine ⟨.complete, rx, by rw [if_pos hempty]; rfl, hkept, ?_⟩
            intro _
            refine ⟨chunks, hrx, hdel, ?_⟩
            rw [hread, List.length_eq_zero_iff.mp hempty]
          rw [if_neg hempty]
          by_cases hvalid : nawamDownloadChunkValid totalSize rx.size
              chunk.length = true
          · rw [if_neg (by simp [hvalid])]
            obtain ⟨stored, rx', hstore, hkept', hrx'⟩ := storeChunk_spec hkept
              hrx (stream chunks.length) ((chunkValid_iff _ _ _).mp hvalid)
            rw [hstore, C.ok_bind]
            cases stored with
            | false => exact ⟨.writeFailed, rx', rfl, hkept', by simp⟩
            | true =>
                obtain ⟨hreceived, hsize⟩ := hrx' rfl
                have hnext := ih (chunks ++ [chunk]) rx' hkept' hreceived
                  (hdel.concat hread) (by omega)
                rw [List.length_append, List.length_singleton] at hnext
                exact hnext
          · exact ⟨.chunkRejected, rx, by rw [if_pos (by simp [hvalid])]; rfl,
              hkept, by simp⟩

end Loop

/-! ## The exits -/

theorem bakFile_ne (path : List UInt8) : bakFile path ≠ path := by
  intro h
  have hlen := congrArg List.length h
  rw [bakFile, List.length_append] at hlen
  have h4 : (text ".bak").length = 4 := by decide
  omega

section Exits

variable {env : DownloadEnv} {file : Option (List UInt8)} {buffer : Bool}
  {totalSize : ℕ} {files : Files (List UInt8) (List UInt8)}

/-- The ways a target is made, or is not. -/
theorem openTarget_cases (env : DownloadEnv) (file : Option (List UInt8))
    (buffer : Bool) (totalSize : ℕ) (files : Files (List UInt8) (List UInt8)) :
    (openTarget env file buffer totalSize files
        = (false, ⟨files, none, false, false, 0, []⟩)) ∨
    (file = none ∧ openTarget env file buffer totalSize files
        = (true, ⟨files, some (List.replicate (totalSize + 2) 0), false, false,
            0, []⟩)) ∨
    (∃ path, file = some path ∧ files path = none ∧
      openTarget env file buffer totalSize files
        = (true, ⟨files.write path [], none, true, false, 0, []⟩)) ∨
    (∃ path contents, file = some path ∧ files path = some contents ∧
      files (bakFile path) = none ∧
      openTarget env file buffer totalSize files
        = (env.createFile, ⟨if env.createFile then
              (files.replace path (bakFile path)).write path []
            else files.replace path (bakFile path),
            none, env.createFile, true, 0, []⟩)) := by
  unfold openTarget
  cases file with
  | none =>
      by_cases halloc : (buffer && env.callocBuffer) = true
      · exact Or.inr (Or.inl ⟨rfl, by simp [halloc]⟩)
      · exact Or.inl (by simp [halloc])
  | some path =>
      cases hold : files path with
      | none =>
          by_cases hcreate : env.createFile = true
          · exact Or.inr (Or.inr (Or.inl ⟨path, rfl, hold, by simp [hold, hcreate]⟩))
          · exact Or.inl (by simp [hold, hcreate])
      | some contents =>
          by_cases hmoved : (env.callocName && (env.moveToBackup &&
              (files (bakFile path)).isNone)) = true
          · have hfree : files (bakFile path) = none := by
              simp only [Bool.and_eq_true, Option.isNone_iff_eq_none] at hmoved
              exact hmoved.2.2
            refine Or.inr (Or.inr (Or.inr ⟨path, contents, rfl, hold, hfree, ?_⟩))
            simp only [hold, Option.isSome_some, if_true, hmoved]
            cases env.createFile with
            | true => rfl
            | false => rfl
          · exact Or.inl (by simp [hold, hmoved])

/-- The calls that restore a file succeed, if there is one to restore. -/
def Restores (env : DownloadEnv) (file : Option (List UInt8)) : Prop :=
  file = none ∨ (env.deleteFile = true ∧ env.moveFromBackup = true)

theorem Restores.of_some {path : List UInt8} (h : Restores env (some path)) :
    env.deleteFile = true ∧ env.moveFromBackup = true :=
  h.resolve_left (by simp)

/-- With the backup in place, undoing brings the old file back. -/
theorem undo_backup {path contents : List UInt8}
    (hmove : env.moveFromBackup = true) (hold : files path = some contents)
    (hfree : files (bakFile path) = none) {rx : Receiver}
    (hmoved : rx.backupMoved = true)
    (hfiles : (if rx.fileCreated && env.deleteFile then rx.files.delete path
      else rx.files) = files.replace path (bakFile path)) :
    undo env (some path) rx = files := by
  have hback := Files.replace_replace (bakFile_ne path).symm hold hfree
  have hgone : files.replace path (bakFile path) path = none := by
    rw [Files.replace_of_some _ hold,
      Files.write_other (bakFile_ne path).symm, Files.delete_same]
  simp only [undo, hfiles, hmoved, hmove, hgone, Option.isNone_none,
    Bool.and_self, if_true]
  exact hback

/-- A target that could not be made leaves no trace. -/
theorem undo_of_not_opened (hrestores : Restores env file)
    (h : (openTarget env file buffer totalSize files).1 = false) :
    undo env file (openTarget env file buffer totalSize files).2 = files := by
  rcases openTarget_cases env file buffer totalSize files with heq |
    ⟨-, heq⟩ | ⟨path, -, -, heq⟩ | ⟨path, contents, rfl, hold, hfree, heq⟩
  · rw [heq]
    cases file with
    | none => rfl
    | some path => simp [undo]
  · simp [heq] at h
  · simp [heq] at h
  · have hcreate : env.createFile = false := by simpa [heq] using h
    rw [heq]
    exact undo_backup hrestores.of_some.2 hold hfree rfl (by simp [hcreate])

/-- A target that was made is empty, and can be undone from any state the
loop leaves. -/
theorem opened_spec (hrestores : Restores env file)
    (h : (openTarget env file buffer totalSize files).1 = true) :
    Kept file totalSize (openTarget env file buffer totalSize files).2
        (openTarget env file buffer totalSize files).2 ∧
      Received file totalSize [] (openTarget env file buffer totalSize files).2 ∧
      ∀ rx, Kept file totalSize (openTarget env file buffer totalSize files).2
        rx → undo env file rx = files := by
  rcases openTarget_cases env file buffer totalSize files with heq |
    ⟨rfl, heq⟩ | ⟨path, rfl, hnone, heq⟩ | ⟨path, contents, rfl, hold, hfree, heq⟩
  · simp [heq] at h
  · rw [heq]
    refine ⟨⟨fun _ _ => rfl, rfl, rfl, by simp⟩,
      ⟨rfl, Nat.zero_le _, by simp, fun _ => rfl⟩, ?_⟩
    intro rx hkept
    funext q
    exact hkept.others q (by simp)
  · rw [heq]
    refine ⟨⟨fun _ _ => rfl, rfl, rfl, by simp⟩, ⟨rfl, Nat.zero_le _, ?_, by simp⟩,
      ?_⟩
    · intro path' hpath
      rw [← Option.some.inj hpath]
      exact Files.write_same ..
    · intro rx hkept
      have hrest : rx.files.delete path = files := by
        apply Files.delete_of_none hnone
        intro q hq
        rw [hkept.others q fun h => hq (Option.some.inj h).symm]
        exact Files.write_other hq _
      simp [undo, hkept.created, hkept.moved, hrestores.of_some.1, hrest]
  · have hcreate : env.createFile = true := by simpa [heq] using h
    rw [hcreate] at heq
    rw [heq]
    refine ⟨⟨fun _ _ => rfl, rfl, rfl, by simp⟩, ⟨rfl, Nat.zero_le _, ?_, by simp⟩,
      ?_⟩
    · intro path' hpath
      rw [← Option.some.inj hpath]
      exact Files.write_same ..
    · intro rx hkept
      have hgone : files.replace path (bakFile path) path = none := by
        rw [Files.replace_of_some _ hold,
          Files.write_other (bakFile_ne path).symm, Files.delete_same]
      have hrest : rx.files.delete path = files.replace path (bakFile path) := by
        apply Files.delete_of_none hgone
        intro q hq
        rw [hkept.others q fun h => hq (Option.some.inj h).symm]
        exact Files.write_other hq _
      exact undo_backup hrestores.of_some.2 hold hfree hkept.moved
        (by simp [hkept.created, hrestores.of_some.1, hrest])

end Exits

/-! ## Atomicity -/

def declaredLength (env : DownloadEnv) : Option ℕ :=
  env.contentLength.bind nawamParseContentLength

theorem request_spec {env : DownloadEnv} {url : List UInt8} {buffered : Bool}
    {status totalSize : ℕ}
    (h : request env url buffered = (status, some totalSize)) :
    declaredLength env = some totalSize ∧
      nawamDownloadLengthValid totalSize buffered = true := by
  unfold request at h
  repeat' split at h
  all_goals simp_all [declaredLength]

/-- What a call of `DownloadToFileOrBufferEx` may come to: the target holds
exactly what the server delivered, of the length it declared, or the files
are as they were and there is no buffer. -/
structure Outcome (env : DownloadEnv) (file : Option (List UInt8))
    (files : Files (List UInt8) (List UInt8)) (d : Download) : Prop where
  all_or_nothing :
    (0 < d.result ∧ ∃ chunks, Delivered env.stream chunks ∧
        (env.stream chunks.length).read = some [] ∧
        d.result = chunks.flatten.length ∧
        declaredLength env = some d.result ∧
        nawamDownloadLengthValid d.result file.isNone = true ∧
        (∀ path, file = some path → d.files path = some chunks.flatten) ∧
        (file = none → d.buffer = some (chunks.flatten ++ [0, 0]) ∧
          d.files = files)) ∨
      (d.result = 0 ∧ d.buffer = none ∧ d.files = files)
  /-- no copy into the buffer passes the declared length -/
  copies_le : ∀ c ∈ d.copies, ∃ total, declaredLength env = some total ∧
    c.1 + c.2 ≤ total

theorem download_outcome (env : DownloadEnv) (url : List UInt8)
    (file : Option (List UInt8)) (buffer : Bool)
    (files : Files (List UInt8) (List UInt8)) (hrestores : Restores env file) :
    ∃ d, downloadToFileOrBufferEx env url file buffer files = .ok d ∧
      Outcome env file files d := by
  unfold downloadToFileOrBufferEx
  rcases hreq : request env url file.isNone with ⟨status, _ | totalSize⟩
  · exact ⟨_, rfl, Or.inr ⟨rfl, rfl, rfl⟩, by simp⟩
  obtain ⟨hdeclared, hvalid⟩ := request_spec hreq
  have hpos : 0 < totalSize := by
    simp only [nawamDownloadLengthValid, Bool.and_eq_true, decide_eq_true_eq,
      ne_eq] at hvalid
    omega
  simp only
  by_cases hopened : (openTarget env file buffer totalSize files).1 = true
  · rw [if_neg (by simp [hopened])]
    obtain ⟨hkept, hreceived, hundo⟩ := opened_spec hrestores hopened
    obtain ⟨left, rx, hrun, hkept', hcomplete⟩ := receiveLoop_spec env.stream
      (totalSize + 1) [] _ hkept hreceived (by simp [Delivered])
      (by omega)
    rw [List.length_nil] at hrun
    rw [hrun, C.ok_bind]
    by_cases hdone : left = .complete ∧ rx.size = totalSize
    · rw [if_pos hdone]
      obtain ⟨chunks, hrx, hdel, hend⟩ := hcomplete hdone.1
      refine ⟨_, rfl, Or.inl ⟨by rw [hdone.2]; exact hpos, chunks, hdel, hend,
        hrx.size_eq, by rw [hdone.2]; exact hdeclared,
        by rw [hdone.2]; exact hvalid, ?_, ?_⟩, ?_⟩
      · rintro path rfl
        have hfile := hrx.inFile path rfl
        simp only [commit]
        split
        · rw [Files.delete_other (bakFile_ne path).symm, hfile]
        · exact hfile
      · rintro rfl
        have hbuffer := hrx.inBuffer rfl
        rw [hdone.2] at hbuffer
        exact ⟨by simpa using hbuffer, hundo rx hkept'⟩
      · intro c hc
        exact ⟨totalSize, hdeclared, hkept'.copies c hc⟩
    · rw [if_neg hdone]
      exact ⟨_, rfl, Or.inr ⟨rfl, rfl, hundo rx hkept'⟩,
        fun c hc => ⟨totalSize, hdeclared, hkept'.copies c hc⟩⟩
  · rw [if_pos (by simp [hopened])]
    exact ⟨_, rfl, Or.inr ⟨rfl, rfl, undo_of_not_opened hrestores
      (by simpa using hopened)⟩, by simp⟩

/-- **A download is all or nothing**, whatever the server, the disk and the
user do. The delete and the move that restore a file are taken to succeed. -/
theorem downloadToFileOrBufferEx_atomic (env : DownloadEnv) (url : List UInt8)
    (file : Option (List UInt8)) (buffer : Bool)
    (files : Files (List UInt8) (List UInt8))
    (hdelete : env.deleteFile = true) (hmove : env.moveFromBackup = true) :
    ∃ d, downloadToFileOrBufferEx env url file buffer files = .ok d ∧
      Outcome env file files d :=
  download_outcome env url file buffer files (Or.inr ⟨hdelete, hmove⟩)

/-- A server that sends two chunks of three declared bytes, and a disk that
fails on the second. -/
def shortDisk : DownloadEnv where
  crackUrl := true
  getInternetSession := true
  internetConnect := true
  httpOpenRequest := true
  httpAddRequestHeaders := true
  httpSendRequest := true
  statusCode := some 200
  contentLength := some (text "3")
  callocName := true
  moveToBackup := true
  createFile := true
  callocBuffer := true
  stream := fun i =>
    if i = 0 then ⟨false, some [1, 2], true, 2⟩
    else if i = 1 then ⟨false, some [3], false, 0⟩
    else ⟨false, some [], true, 0⟩
  deleteFile := true
  moveFromBackup := true
  deleteBackup := true

theorem downloadToFileOrBufferEx_atomic_shortDisk :
    ∃ d, downloadToFileOrBufferEx shortDisk (text "https://a/b")
        (some (text "f")) false (fun q => if q = text "f" then some [9] else none)
        = .ok d ∧
      Outcome shortDisk (some (text "f"))
        (fun q => if q = text "f" then some [9] else none) d :=
  downloadToFileOrBufferEx_atomic shortDisk (text "https://a/b")
    (some (text "f")) false (fun q => if q = text "f" then some [9] else none)
    rfl rfl

/-- A download into a buffer leaves the files alone and needs no restoring. -/
theorem download_buffer (env : DownloadEnv) (url : List UInt8)
    (files : Files (List UInt8) (List UInt8)) :
    ∃ d, downloadToFileOrBufferEx env url none true files = .ok d ∧
      d.files = files ∧
      ((d.result = 0 ∧ d.buffer = none) ∨
        ∃ data, 0 < data.length ∧ d.result = data.length ∧
          nawamDownloadLengthValid data.length true = true ∧
          d.buffer = some (data ++ [0, 0])) := by
  obtain ⟨d, hrun, hout⟩ := download_outcome env url none true files (Or.inl rfl)
  refine ⟨d, hrun, ?_⟩
  rcases hout.all_or_nothing with
    ⟨hpos, chunks, -, -, hlen, -, hvalid, -, hbuffer⟩ | ⟨hzero, hnone, hfiles⟩
  · obtain ⟨hblock, hfiles⟩ := hbuffer rfl
    rw [hlen] at hpos hvalid
    exact ⟨hfiles, Or.inr ⟨chunks.flatten, hpos, hlen, hvalid, hblock⟩⟩
  · exact ⟨hfiles, Or.inl ⟨hzero, hnone⟩⟩

end Nawam
