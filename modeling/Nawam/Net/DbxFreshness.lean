import Nawam.Net.RefreshDbx
import Nawam.Safety.DbxFormat

/-!
# A marker is never ahead of its cache

The invariant of the DBX refresh. `UseLocalDbx` trusts the marker alone: once
it is above the embedded time stamp, revocation is decided by the cached DBX.
So a marker above the embedded time stamp has to come with a valid cache file
of a commit at least as recent (`Fresh`).

`RefreshStep` says what one iteration can do: leave every cache and every
marker as they are, or replace one cache and then, at most, raise that
architecture's marker to the commit of the new cache. Everything else follows
from it.
-/

namespace Nawam

open Ascii

/-! ## The cache file -/

theorem directoryOf_append {directory name : List UInt8}
    (h : backslash ∉ name) :
    directoryOf (directory ++ backslash :: name) = some directory := by
  have hskip : ∀ c ∈ name.reverse, decide (c ≠ backslash) = true := by
    intro c hc
    rw [decide_eq_true_eq]
    rintro rfl
    exact h (List.mem_reverse.mp hc)
  unfold directoryOf
  rw [List.reverse_append, List.reverse_cons, List.append_assoc,
    List.dropWhile_append_of_pos hskip]
  simp

def cacheDir (appDataDir : List UInt8) : List UInt8 :=
  appDataDir ++ (text "\\" ++ filesDir)

theorem dbxPath_eq (appDataDir archname : List UInt8) :
    dbxPath appDataDir archname
      = cacheDir appDataDir ++ backslash :: dbxName archname := by
  have hsep : text "\\" = [backslash] := by decide
  simp [dbxPath, cacheDir, hsep]

theorem directoryOf_dbxPath (appDataDir : List UInt8) {archname : List UInt8}
    (h : backslash ∉ archname) :
    directoryOf (dbxPath appDataDir archname) = some (cacheDir appDataDir) := by
  rw [dbxPath_eq]
  apply directoryOf_append
  intro hmem
  simp only [dbxName, List.mem_append] at hmem
  rcases hmem with hmem | hmem | hmem
  · exact absurd hmem (by decide)
  · exact h hmem
  · exact absurd hmem (by decide)

/-- A temporary file is never a cache file: their names start differently. -/
theorem dbxPath_ne_temporaryFile (appDataDir archname unique : List UInt8) :
    dbxPath appDataDir archname
      ≠ temporaryFile (cacheDir appDataDir) unique := by
  intro h
  rw [dbxPath_eq] at h
  have hsep : text "\\" = [backslash] := by decide
  have htail := List.append_cancel_left h
  rw [hsep, List.singleton_append, List.cons.injEq] at htail
  have hhead := congrArg List.head? htail.2
  have hd : (dbxName archname).head? = some 100 := rfl
  have hn : (text "ndb" ++ (unique ++ text ".TMP")).head? = some 110 := rfl
  rw [hd, hn] at hhead
  exact absurd hhead (by decide)

/-- The files after a commit: the cache is replaced whole or not at all, and
no other cache file changes. -/
structure CommitOutcome (appDataDir archname : List UInt8) (file : CacheFile)
    (files : Files (List UInt8) CacheFile)
    (r : Bool × Files (List UInt8) CacheFile) : Prop where
  others : ∀ name, name ≠ archname →
    r.2 (dbxPath appDataDir name) = files (dbxPath appDataDir name)
  target : r.2 (dbxPath appDataDir archname)
    = if r.1 then some file else files (dbxPath appDataDir archname)

theorem CommitOutcome.failed {appDataDir archname : List UInt8}
    {file : CacheFile} {files files' : Files (List UInt8) CacheFile}
    (h : ∀ name, files' (dbxPath appDataDir name)
      = files (dbxPath appDataDir name)) :
    CommitOutcome appDataDir archname file files (false, files') :=
  ⟨fun name _ => h name, h archname⟩

theorem nawamCommitDbxCache_outcome (env : CommitEnv)
    (appDataDir data : List UInt8) {archname : List UInt8}
    (ha : backslash ∉ archname) (timestamp : ℕ)
    (files : Files (List UInt8) CacheFile) :
    CommitOutcome appDataDir archname ⟨data, timestamp⟩ files
      (nawamCommitDbxCache env (dbxPath appDataDir archname) data timestamp
        files) := by
  unfold nawamCommitDbxCache
  rw [directoryOf_dbxPath appDataDir ha]
  have hne := dbxPath_ne_temporaryFile appDataDir
  -- the cache files do not see what happens to the temporary file
  have hwrite : ∀ (fs : Files (List UInt8) CacheFile) unique file name,
      fs.write (temporaryFile (cacheDir appDataDir) unique) file
        (dbxPath appDataDir name) = fs (dbxPath appDataDir name) :=
    fun fs unique file name => Files.write_other (hne name unique) file
  have hdrop : ∀ (fs : Files (List UInt8) CacheFile) unique name,
      (if env.deleteFile then
          fs.delete (temporaryFile (cacheDir appDataDir) unique) else fs)
        (dbxPath appDataDir name) = fs (dbxPath appDataDir name) := by
    intro fs unique name
    split
    · exact Files.delete_other (hne name unique)
    · rfl
  split
  · exact .failed fun _ => rfl
  split
  · exact .failed fun _ => rfl
  simp only
  split
  · exact .failed fun _ => rfl
  split
  · exact .failed fun _ => rfl
  rename_i unique _
  split
  · exact .failed fun name => by rw [hdrop, hwrite]
  split
  · exact .failed fun name => by rw [hdrop, hwrite, hwrite]
  rename_i hwritten
  split
  · exact .failed fun name => by rw [hdrop, hwrite, hwrite]
  split
  · exact .failed fun name => by rw [hdrop, hwrite, hwrite]
  split
  · exact .failed fun name => by rw [hdrop, hwrite, hwrite]
  -- the move: what was written is all of the data
  have hall : data.take env.written = data := by
    simp only [Bool.or_eq_true, decide_eq_true_eq, not_or, not_not] at hwritten
    rw [hwritten.1.2, List.take_length]
  rw [hall, Files.replace_of_some _ (Files.write_same ..)]
  refine ⟨?_, Files.write_same ..⟩
  intro name hname
  show Files.write _ _ _ _ = _
  rw [Files.write_other fun h => hname (dbxPath_injective appDataDir h),
    Files.delete_other (hne name unique), hwrite, hwrite]

/-! ## What an iteration can do -/

/-- The name of architecture `i + 1`, that of entry `i` of `dbx_info`. -/
def archnameOf (i : ℕ) : List UInt8 := (efiArchname[i + 1]?).getD []

/-- The time stamp of the embedded DBX of entry `i`. -/
def embeddedTimestamp (i : ℕ) : ℕ := (dbxInfo[i]?.map (·.timestamp)).getD 0

def DbxState.marker (st : DbxState) (archname : List UInt8) : ℤ :=
  st.setting (dbxKey archname)

def DbxState.cache (st : DbxState) (appDataDir archname : List UInt8) :
    Option CacheFile :=
  st.files (dbxPath appDataDir archname)

/-- What one iteration can do to the caches and the markers. -/
inductive RefreshStep (appDataDir archname : List UInt8)
    (st st' : DbxState) : Prop
  /-- nothing, whether it counts as ok or not -/
  | kept (cache : ∀ name, st'.cache appDataDir name = st.cache appDataDir name)
      (marker : ∀ name, st'.marker name = st.marker name)
  /-- the cache is replaced by that of a commit the marker is not ahead of,
  and the marker is raised to that commit or stays -/
  | replaced (data : List UInt8) (timestamp : ℕ)
      (valid : nawamDbxValid data = true)
      (notNegative : 0 ≤ st.marker archname)
      (notBehind : st.marker archname ≤ timestamp)
      (int64 : timestamp < 2 ^ 63)
      (cache : st'.cache appDataDir archname = some ⟨data, timestamp⟩)
      (marker : st'.marker archname = st.marker archname ∨
        st'.marker archname = timestamp)
      (otherCaches : ∀ name, name ≠ archname →
        st'.cache appDataDir name = st.cache appDataDir name)
      (otherMarkers : ∀ name, name ≠ archname →
        st'.marker name = st.marker name)

theorem RefreshStep.refl (appDataDir archname : List UInt8) (st : DbxState) :
    RefreshStep appDataDir archname st st :=
  .kept (fun _ => rfl) fun _ => rfl

theorem DbxState.writeSetting64_marker (st : DbxState) (archname : List UInt8)
    {timestamp : ℕ} (h : timestamp < 2 ^ 63) :
    (st.writeSetting64 (dbxKey archname) timestamp).marker archname
      = timestamp := by
  show Function.update st.setting _ _ _ = _
  rw [Function.update_self, toInt64_of_lt h]

theorem DbxState.writeSetting64_otherMarker (st : DbxState)
    {archname name : List UInt8} (timestamp : ℕ) (h : name ≠ archname) :
    (st.writeSetting64 (dbxKey archname) timestamp).marker name
      = st.marker name := by
  show Function.update st.setting _ _ _ = _
  rw [Function.update_of_ne fun hkey => h (dbxKey_injective hkey)]
  rfl

theorem toUint64_of_nonneg {v : ℤ} (h : 0 ≤ v) (h' : v < 2 ^ 63) :
    (toUint64 v : ℤ) = v := by
  unfold toUint64
  rw [Int.toNat_of_nonneg (Int.emod_nonneg _ (by decide))]
  omega

theorem downloadToBuffer_total (env : DownloadEnv) (url : List UInt8) :
    ∃ size data, downloadToBuffer env url = .ok (size, data) := by
  obtain ⟨d, hrun, -⟩ := download_buffer env url fun _ => none
  exact ⟨d.result, (d.buffer.getD []).take d.result,
    by simp [downloadToBuffer, hrun]⟩

/-- What the commit and the marker behind it do to the state. -/
theorem RefreshStep.of_commit {appDataDir archname data : List UInt8}
    {timestamp : ℕ} {st : DbxState} {committed : Bool}
    {files : Files (List UInt8) CacheFile} (stored : Bool)
    (hcommit : CommitOutcome appDataDir archname ⟨data, timestamp⟩ st.files
      (committed, files))
    (hvalid : nawamDbxValid data = true) (hneg : 0 ≤ st.marker archname)
    (hbehind : st.marker archname ≤ timestamp) (hint64 : timestamp < 2 ^ 63) :
    RefreshStep appDataDir archname st
      (if committed && stored then
        ({ st with files := files } : DbxState).writeSetting64
          (dbxKey archname) timestamp
      else { st with files := files }) := by
  cases committed with
  | false =>
      refine .kept ?_ fun _ => rfl
      intro name
      by_cases hname : name = archname
      · rw [hname]
        exact hcommit.target
      · exact hcommit.others name hname
  | true =>
      cases stored with
      | false =>
          exact .replaced data timestamp hvalid hneg hbehind hint64
            hcommit.target (Or.inl rfl) hcommit.others fun _ _ => rfl
      | true =>
          refine .replaced data timestamp hvalid hneg hbehind hint64
            hcommit.target (Or.inr ?_) hcommit.others ?_
          · exact DbxState.writeSetting64_marker _ archname hint64
          · intro name hname
            exact DbxState.writeSetting64_otherMarker _ timestamp hname

theorem installDbx_step (appDataDir : List UInt8) (env : RefreshEnv)
    (url : List UInt8) {archname : List UInt8} (hsep : backslash ∉ archname)
    {timestamp : ℕ} (sha : List UInt8) {st : DbxState}
    (hneg : 0 ≤ st.marker archname) (hbehind : st.marker archname ≤ timestamp)
    (hint64 : timestamp < 2 ^ 63) :
    ∃ ok st', installDbx appDataDir env url archname timestamp sha st
        = .ok (ok, st') ∧
      RefreshStep appDataDir archname st st' := by
  obtain ⟨size, data, hdata⟩ := downloadToBuffer_total env.dbxDownload
    (url ++ (text "?ref=" ++ sha))
  unfold installDbx
  simp only [hdata, C.ok_bind, C.pure_eq]
  split
  · exact ⟨false, st, rfl, .refl _ _ st⟩
  split
  · exact ⟨false, st, rfl, .refl _ _ st⟩
  rename_i hvalid
  simp only [Bool.or_eq_true, Bool.not_eq_true', not_or, Bool.not_eq_false]
    at hvalid
  have hcommit := nawamCommitDbxCache_outcome env.commit appDataDir data hsep
    timestamp st.files
  cases hr : nawamCommitDbxCache env.commit (dbxPath appDataDir archname) data
      timestamp st.files with
  | mk committed files =>
      rw [hr] at hcommit
      have hstep := RefreshStep.of_commit env.settingStored hcommit hvalid.2
        hneg hbehind hint64
      cases committed with
      | false => exact ⟨_, _, rfl, hstep⟩
      | true => exact ⟨_, _, rfl, hstep⟩

theorem entry_archnameOf : ∀ i < dbxInfo.length,
    entry efiArchname (i + 1) = .ok (archnameOf i) ∧
      backslash ∉ archnameOf i := by
  decide

/-- **An iteration is a `RefreshStep`**, and it never faults. -/
theorem refreshArch_step (appDataDir : List UInt8) (env : RefreshEnv) {i : ℕ}
    (hi : i < dbxInfo.length) (st : DbxState) :
    ∃ ok st', refreshArch appDataDir env i st = .ok (ok, st') ∧
      RefreshStep appDataDir (archnameOf i) st st' := by
  obtain ⟨hname, hsep⟩ := entry_archnameOf i hi
  obtain ⟨info, hinfo⟩ : ∃ info, entry dbxInfo i = .ok info :=
    ⟨dbxInfo[i], by simp [entry, List.getElem?_eq_getElem hi]⟩
  have hkept : ∀ ok : Bool, ∃ ok' st',
      (Except.ok (ok, st) : C (Bool × DbxState)) = .ok (ok', st') ∧
        RefreshStep appDataDir (archnameOf i) st st' :=
    fun ok => ⟨ok, st, rfl, .refl _ _ st⟩
  unfold refreshArch
  rw [hinfo, hname]
  simp only [C.ok_bind, C.pure_eq]
  cases hurl : commitsUrl info.url with
  | none => exact hkept false
  | some timestampUrl =>
      obtain ⟨size, metadata, hmetadata⟩ :=
        downloadToBuffer_total env.commitDownload timestampUrl
      obtain ⟨r, hr, hbounds⟩ := nawamCommitTimestamp_bounds metadata
      simp only [hmetadata, C.ok_bind, hr]
      cases r with
      | none => exact hkept false
      | some found =>
          obtain ⟨timestamp, sha⟩ := found
          obtain ⟨-, hint64⟩ := hbounds timestamp sha rfl
          show ∃ ok st', ite _ _ _ = _ ∧ _
          split
          · exact hkept false
          split
          · exact hkept false
          rename_i hprevious
          split
          · exact hkept true
          split
          · exact hkept false
          split
          · exact hkept true
          split
          · exact hkept false
          rename_i hrollback
          -- the marker is neither negative nor ahead of the commit
          have hneg : 0 ≤ st.marker (archnameOf i) :=
            not_lt.mp (not_or.mp hprevious).1
          have hbehind : st.marker (archnameOf i) ≤ timestamp := by
            rw [← toUint64_of_nonneg hneg (st.int64 _).2]
            exact_mod_cast not_lt.mp hrollback
          exact installDbx_step appDataDir env info.url hsep sha hneg hbehind
            hint64

/-! ## The invariant -/

/-- The marker of entry `i`, read the way `UseLocalDbx` reads it, is not above
the embedded time stamp, or the cache is a valid DBX of a commit the marker
is not ahead of. -/
def Fresh (appDataDir : List UInt8) (st : DbxState) (i : ℕ) : Prop :=
  toUint64 (st.marker (archnameOf i)) ≤ embeddedTimestamp i ∨
    ∃ file, st.cache appDataDir (archnameOf i) = some file ∧
      nawamDbxValid file.bytes = true ∧
      toUint64 (st.marker (archnameOf i)) ≤ file.commit

theorem archnameOf_injOn : ∀ i < dbxInfo.length, ∀ j < dbxInfo.length,
    archnameOf i = archnameOf j → i = j := by
  decide

theorem RefreshStep.marker_le {appDataDir archname : List UInt8}
    {st st' : DbxState} (h : RefreshStep appDataDir archname st st')
    (name : List UInt8) : st.marker name ≤ st'.marker name := by
  cases h with
  | kept _ marker => exact (marker name).ge
  | replaced _ _ _ _ notBehind _ _ marker _ otherMarkers =>
      by_cases hname : name = archname
      · subst hname
        rcases marker with hkept | hraised
        · exact hkept.ge
        · exact notBehind.trans hraised.ge
      · exact (otherMarkers name hname).ge

/-- The frame of an iteration: it is about one architecture only. -/
theorem RefreshStep.other {appDataDir archname : List UInt8}
    {st st' : DbxState} (h : RefreshStep appDataDir archname st st')
    {name : List UInt8} (hname : name ≠ archname) :
    st'.cache appDataDir name = st.cache appDataDir name ∧
      st'.marker name = st.marker name := by
  cases h with
  | kept cache marker => exact ⟨cache name, marker name⟩
  | replaced _ _ _ _ _ _ _ _ otherCaches otherMarkers =>
      exact ⟨otherCaches name hname, otherMarkers name hname⟩

theorem Fresh.congr {appDataDir : List UInt8} {st st' : DbxState} {i : ℕ}
    (h : Fresh appDataDir st i)
    (hcache : st'.cache appDataDir (archnameOf i)
      = st.cache appDataDir (archnameOf i))
    (hmarker : st'.marker (archnameOf i) = st.marker (archnameOf i)) :
    Fresh appDataDir st' i := by
  unfold Fresh
  rw [hcache, hmarker]
  exact h

/-- The cache is in place before the marker is raised, so the new cache backs
the marker whether or not the marker was stored. -/
theorem Fresh.step {appDataDir : List UInt8} {st st' : DbxState} {i j : ℕ}
    (hi : i < dbxInfo.length) (hj : j < dbxInfo.length)
    (hstep : RefreshStep appDataDir (archnameOf j) st st')
    (h : Fresh appDataDir st i) : Fresh appDataDir st' i := by
  by_cases hij : i = j
  · subst hij
    cases hstep with
    | kept cache marker => exact h.congr (cache _) (marker _)
    | replaced data timestamp valid notNegative notBehind int64 cache marker =>
        refine Or.inr ⟨_, cache, valid, ?_⟩
        have hbounds : 0 ≤ st'.marker (archnameOf i) ∧
            st'.marker (archnameOf i) ≤ timestamp := by
          rcases marker with hkept | hraised
          · rw [hkept]
            exact ⟨notNegative, notBehind⟩
          · rw [hraised]
            exact ⟨Int.natCast_nonneg _, le_refl _⟩
        have hread := toUint64_of_nonneg hbounds.1 (st'.int64 _).2
        show toUint64 (st'.marker (archnameOf i)) ≤ timestamp
        have hle := hread.trans_le hbounds.2
        exact_mod_cast hle
  · obtain ⟨hcache, hmarker⟩ := hstep.other
      fun hname => hij (archnameOf_injOn i hi j hj hname)
    exact h.congr hcache hmarker

/-! ## Runs -/

/-- Calls of `NawamRefreshDbx`, one after the other. -/
def refreshCalls (appDataDir : List UInt8) (calls : List (ℕ → RefreshEnv)) :
    DbxState → C (Trace ArchOutcome DbxState) :=
  runAll (refreshLoop appDataDir) calls

/-- The steps of the trace of a call. -/
def ArchStep (appDataDir : List UInt8) (st : DbxState) (o : ArchOutcome)
    (st' : DbxState) : Prop :=
  o.arch < dbxInfo.length ∧
    RefreshStep appDataDir (archnameOf o.arch) st st'

theorem refreshArch_noted (appDataDir : List UInt8) (env : RefreshEnv) {i : ℕ}
    (hi : i < dbxInfo.length) (st : DbxState) :
    ∃ t, (do
        let (ok, st) ← refreshArch appDataDir env i st
        return [(⟨i, ok⟩, st)] : C (Trace ArchOutcome DbxState)) = .ok t ∧
      t.Steps (ArchStep appDataDir) st ∧ True ∧ t.map (·.1.arch) = [i] := by
  obtain ⟨ok, st', hrun, hstep⟩ := refreshArch_step appDataDir env hi st
  refine ⟨[(⟨i, ok⟩, st')], ?_, ⟨⟨hi, hstep⟩, trivial⟩, trivial, rfl⟩
  simp [hrun]

/-- A call goes through all architectures and never faults. -/
theorem refreshLoop_steps (appDataDir : List UInt8) (envs : ℕ → RefreshEnv)
    (st : DbxState) :
    ∃ trace, refreshLoop appDataDir envs st = .ok trace ∧
      trace.Steps (ArchStep appDataDir) st ∧
      trace.map (·.1.arch) = List.range dbxInfo.length := by
  obtain ⟨trace, hrun, hsteps, -, hlabels⟩ := runAll_steps (fun _ => True)
    (ArchStep appDataDir) ArchOutcome.arch (fun i => [i])
    (List.range dbxInfo.length) st trivial
    fun i hi st _ => refreshArch_noted appDataDir (envs i) (List.mem_range.mp hi) st
  refine ⟨trace, hrun, hsteps, ?_⟩
  rw [hlabels]
  exact List.flatMap_singleton' _

theorem refreshCalls_steps (appDataDir : List UInt8)
    (calls : List (ℕ → RefreshEnv)) (st : DbxState) :
    ∃ trace, refreshCalls appDataDir calls st = .ok trace ∧
      trace.Steps (ArchStep appDataDir) st ∧
      trace.map (·.1.arch)
        = calls.flatMap fun _ => List.range dbxInfo.length := by
  have hcall : ∀ envs ∈ calls, ∀ st, True → ∃ t,
      refreshLoop appDataDir envs st = .ok t ∧
      t.Steps (ArchStep appDataDir) st ∧ True ∧
      t.map (·.1.arch) = List.range dbxInfo.length := by
    intro envs _ st _
    obtain ⟨t, hrun, hsteps, hlabels⟩ := refreshLoop_steps appDataDir envs st
    exact ⟨t, hrun, hsteps, trivial, hlabels⟩
  obtain ⟨trace, hrun, hsteps, -, hlabels⟩ := runAll_steps (fun _ => True)
    (ArchStep appDataDir) ArchOutcome.arch _ calls st trivial hcall
  exact ⟨trace, hrun, hsteps, hlabels⟩

/-- **Freshness of the DBX cache.** For every sequence of calls of
`NawamRefreshDbx`, whatever the server answers, whichever operation on the
files fails and whether or not the settings store what they are told to: the
calls run through all architectures; an architecture whose marker is backed
at the start is so after every iteration; and along the run no marker
decreases, and an iteration touches neither the cache nor the marker of
another architecture. -/
theorem refreshCalls_fresh (appDataDir : List UInt8)
    (calls : List (ℕ → RefreshEnv)) (st : DbxState) :
    ∃ trace, refreshCalls appDataDir calls st = .ok trace ∧
      trace.map (·.1.arch)
        = calls.flatMap (fun _ => List.range dbxInfo.length) ∧
      (∀ i < dbxInfo.length, Fresh appDataDir st i →
        ∀ x ∈ trace, Fresh appDataDir x.2 i) ∧
      trace.Steps (fun st o st' => ∀ i < dbxInfo.length,
        st.marker (archnameOf i) ≤ st'.marker (archnameOf i) ∧
        (i ≠ o.arch →
          st'.cache appDataDir (archnameOf i)
            = st.cache appDataDir (archnameOf i) ∧
          st'.marker (archnameOf i) = st.marker (archnameOf i))) st := by
  obtain ⟨trace, hrun, hsteps, hlabels⟩ :=
    refreshCalls_steps appDataDir calls st
  refine ⟨trace, hrun, hlabels, ?_, hsteps.mono ?_⟩
  · intro i hi hfresh
    have hstep : ∀ s o s', ArchStep appDataDir s o s' →
        Fresh appDataDir s i → Fresh appDataDir s' i :=
      fun s o s' h => Fresh.step hi h.1 h.2
    exact hsteps.invariant (I := (Fresh appDataDir · i)) hstep hfresh
  · intro s o s' h i hi
    refine ⟨h.2.marker_le _, ?_⟩
    intro hne
    exact h.2.other fun hname => hne (archnameOf_injOn i hi _ h.1 hname)

/-- A server that sends `body` in one piece. -/
def serving (body : List UInt8) : DownloadEnv where
  crackUrl := true
  getInternetSession := true
  internetConnect := true
  httpOpenRequest := true
  httpAddRequestHeaders := true
  httpSendRequest := true
  statusCode := some 200
  contentLength := some (text (toString body.length))
  callocName := true
  moveToBackup := true
  createFile := true
  callocBuffer := true
  stream := fun i => ⟨false, some (if i = 0 then body else []), true, 0⟩
  deleteFile := true
  moveFromBackup := true
  deleteBackup := true

def newerDbx : RefreshEnv where
  commitDownload := serving (tinyCommit "2026-09-02T12:34:56Z")
  dbxDownload := serving tinyDbx
  now := 1788400000
  cacheReadable := true
  commit :=
    { utf8ToWchar := true
      createDirectory := true
      getTempFileName := some (text "1A")
      createFile := true
      writeFile := true
      written := tinyDbx.length
      flushFileBuffers := true
      malloc := true
      setFilePointer := true
      readFile := some tinyDbx
      closeHandle := true
      moveFileEx := true
      deleteFile := true }
  settingStored := true
  settingReturned := true

def DbxState.fresh : DbxState := ⟨fun _ => 0, fun _ => none, by simp⟩

/-- From the fresh state on, `newerDbx` leaves a cache and a marker that is
above the embedded time stamp. -/
theorem refreshCalls_fresh_newerDbx :
    (refreshCalls (text "C:") [fun _ => newerDbx] DbxState.fresh).map
        (fun trace => ((trace.last DbxState.fresh).marker (text "x64"),
          ((trace.last DbxState.fresh).cache (text "C:") (text "x64")).map
            CacheFile.commit))
      = .ok (1788352496, some 1788352496) ∧
    embeddedTimestamp 1 < 1788352496 ∧
    ∃ trace, refreshCalls (text "C:") [fun _ => newerDbx] DbxState.fresh
        = .ok trace ∧
      ∀ x ∈ trace, Fresh (text "C:") x.2 1 := by
  refine ⟨by decide +kernel, by decide +kernel, ?_⟩
  obtain ⟨trace, hrun, -, hfresh, -⟩ := refreshCalls_fresh (text "C:")
    [fun _ => newerDbx] DbxState.fresh
  exact ⟨trace, hrun, hfresh 1 (by decide) (Or.inl (by decide))⟩

end Nawam
