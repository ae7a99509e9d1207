import Nawam.Net.DbxFreshness
import Nawam.Net.RefreshText

/-!
# The refresh thread

`NawamSecurityRefreshThread` of `net.c`: the three revocation texts, then the
DBX of each architecture, and one result for all of them. A run is the trace
of its sources, so that what holds after *each* source can be said; runs
follow each other, each from the state the one before it left.
-/

namespace Nawam

/-! ## Source -/

inductive Source where
  | text (source : SecuritySource)
  | dbx (i : ℕ)
deriving DecidableEq, Repr

structure SourceOutcome where
  source : Source
  ok : Bool
deriving DecidableEq, Repr

structure SecurityData where
  tables : Tables
  dbx : DbxState

structure ThreadEnv where
  opInProgress : Bool
  /-- `image_path != NULL` -/
  imageSelected : Bool
  text : SecuritySource → TextEnv
  dbx : ℕ → RefreshEnv

/-- `for (i = 0; i < 3; i++)` -/
def refreshTexts (env : ThreadEnv) :
    SecurityData → C (Trace SourceOutcome SecurityData) :=
  runAll (fun source data => do
      let (ok, tables) ←
        nawamRefreshSecurityText (env.text source) source data.tables
      return [(⟨.text source, ok⟩, { data with tables := tables })])
    [.sbatLevel, .sbActive, .sbRevoked]

/-- `NawamSecurityRefreshThread`: the result and the states it goes through. -/
def nawamSecurityRefreshThread (appDataDir : List UInt8) (env : ThreadEnv)
    (data : SecurityData) : C (ℕ × Trace SourceOutcome SecurityData) := do
  if !env.opInProgress || env.imageSelected then return (0, [])
  else
    let texts ← refreshTexts env data
    let data := texts.last data
    let (ok, failed, dbx) ← nawamRefreshDbx appDataDir env.dbx
      (texts.countP (·.1.ok)) (texts.countP (!·.1.ok)) data.dbx
    let trace := texts ++ dbx.map fun x =>
      (⟨.dbx x.1.arch, x.1.ok⟩, { data with dbx := x.2 })
    return (if ok = 0 then 0 else if failed = 0 then 2 else 1, trace)

def threadRuns (appDataDir : List UInt8) : List ThreadEnv → SecurityData →
    C (List (ℕ × Trace SourceOutcome SecurityData))
  | [], _ => return []
  | env :: envs, data => do
      let run ← nawamSecurityRefreshThread appDataDir env data
      let runs ← threadRuns appDataDir envs (run.2.last data)
      return run :: runs

/-! ## What a run is -/

/-- All sources, in the order of a run. -/
def allSources : List Source :=
  [.text .sbatLevel, .text .sbActive, .text .sbRevoked] ++
    (List.range dbxInfo.length).map .dbx

def SourceStep (env : ThreadEnv) (data : SecurityData) (o : SourceOutcome)
    (data' : SecurityData) : Prop :=
  match o.source with
  | .text source =>
      Refreshed (env.text source) source data.tables o.ok data'.tables
  | .dbx _ => data'.tables = data.tables

/-- The source was refreshed, or found to be current. -/
def Succeeded (trace : Trace SourceOutcome SecurityData) (s : Source) : Prop :=
  ∃ x ∈ trace, x.1 = ⟨s, true⟩

/-- The result says how many of the sources succeeded: all, some or none. -/
structure Verdict (result : ℕ) (trace : Trace SourceOutcome SecurityData) :
    Prop where
  all : result = 2 ↔ ∀ s ∈ allSources, Succeeded trace s
  some : result = 1 ↔ (∃ s ∈ allSources, Succeeded trace s) ∧
    ¬ ∀ s ∈ allSources, Succeeded trace s
  none : result = 0 ↔ ∀ s ∈ allSources, ¬ Succeeded trace s

structure ThreadRun (env : ThreadEnv) (data : SecurityData)
    (run : ℕ × Trace SourceOutcome SecurityData) : Prop where
  sources : run.2.map (·.1.source)
    = if env.opInProgress ∧ ¬ env.imageSelected then allSources else []
  steps : run.2.Steps (SourceStep env) data
  sound : ∀ x ∈ run.2, x.2.tables.Sound
  verdict : Verdict run.1 run.2

/-- Every run is one from the state the run before it left. -/
def ThreadRuns : SecurityData → List ThreadEnv →
    List (ℕ × Trace SourceOutcome SecurityData) → Prop
  | _, [], [] => True
  | data, env :: envs, run :: runs =>
      ThreadRun env data run ∧ ThreadRuns (run.2.last data) envs runs
  | _, _, _ => False

/-! ## The result -/

theorem allSources_nodup : allSources.Nodup := by decide

section Verdict

variable {trace : Trace SourceOutcome SecurityData}
  (hsources : trace.map (·.1.source) = allSources)
include hsources

theorem succeeded_mem {s : Source} (h : Succeeded trace s) :
    s ∈ allSources := by
  obtain ⟨x, hx, hs⟩ := h
  rw [← hsources]
  exact List.mem_map.mpr ⟨x, hx, by rw [hs]⟩

theorem countP_ok_eq_zero_iff : trace.countP (·.1.ok) = 0 ↔
    ∀ s ∈ allSources, ¬ Succeeded trace s := by
  rw [List.countP_eq_zero]
  constructor
  · rintro h s - ⟨x, hx, hs⟩
    exact h x hx (by rw [hs])
  · intro h x hx hok
    have hx' : Succeeded trace x.1.source := ⟨x, hx, by rw [← hok]⟩
    exact h _ (succeeded_mem hsources hx') hx'

/-- Every source has one outcome, so all succeeded exactly if none failed. -/
theorem countP_failed_eq_zero_iff : trace.countP (!·.1.ok) = 0 ↔
    ∀ s ∈ allSources, Succeeded trace s := by
  rw [List.countP_eq_zero]
  constructor
  · intro h s hs
    rw [← hsources] at hs
    obtain ⟨x, hx, rfl⟩ := List.mem_map.mp hs
    have hok : x.1.ok = true := by simpa using h x hx
    exact ⟨x, hx, by rw [← hok]⟩
  · intro h x hx hfailed
    have hmem : x.1.source ∈ allSources := by
      rw [← hsources]
      exact List.mem_map.mpr ⟨x, hx, rfl⟩
    obtain ⟨y, hy, hyx⟩ := h _ hmem
    have hnodup : (trace.map (·.1.source)).Nodup :=
      hsources ▸ allSources_nodup
    have hxy : x = y := List.inj_on_of_nodup_map hnodup hx hy (by rw [hyx])
    rw [hxy, hyx] at hfailed
    simp at hfailed

theorem verdict_of_counts : Verdict (if trace.countP (·.1.ok) = 0 then 0
    else if trace.countP (!·.1.ok) = 0 then 2 else 1) trace := by
  have hnone := countP_ok_eq_zero_iff hsources
  have hall := countP_failed_eq_zero_iff hsources
  -- there are sources, so not both
  have hboth : (∀ s ∈ allSources, Succeeded trace s) →
      ¬ ∀ s ∈ allSources, ¬ Succeeded trace s := by
    intro hyes hno
    have hmem : Source.text .sbatLevel ∈ allSources := by simp [allSources]
    exact hno _ hmem (hyes _ hmem)
  by_cases h0 : trace.countP (·.1.ok) = 0
  · have hno := hnone.mp h0
    rw [if_pos h0]
    refine ⟨?_, ?_, ?_⟩
    · exact iff_of_false (by decide) fun hyes => hboth hyes hno
    · refine iff_of_false (by decide) ?_
      rintro ⟨⟨s, hs, hsucc⟩, -⟩
      exact hno s hs hsucc
    · exact iff_of_true rfl hno
  · have hsome : ¬ ∀ s ∈ allSources, ¬ Succeeded trace s :=
      fun hno => h0 (hnone.mpr hno)
    rw [if_neg h0]
    by_cases hf : trace.countP (!·.1.ok) = 0
    · have hyes := hall.mp hf
      rw [if_pos hf]
      refine ⟨iff_of_true rfl hyes, ?_, iff_of_false (by decide) hsome⟩
      exact iff_of_false (by decide) fun h => h.2 hyes
    · have hnot : ¬ ∀ s ∈ allSources, Succeeded trace s :=
        fun hyes => hf (hall.mpr hyes)
      rw [if_neg hf]
      refine ⟨iff_of_false (by decide) hnot, iff_of_true rfl ⟨?_, hnot⟩,
        iff_of_false (by decide) hsome⟩
      simpa using hsome

end Verdict

/-- A run that does not start refreshes nothing. -/
theorem verdict_nil : Verdict 0 [] := by
  have hno : ∀ s, ¬ Succeeded [] s := by simp [Succeeded]
  have hmem : Source.text .sbatLevel ∈ allSources := by simp [allSources]
  refine ⟨?_, ?_, iff_of_true rfl fun s _ => hno s⟩
  · exact iff_of_false (by decide) fun h => hno _ (h _ hmem)
  · refine iff_of_false (by decide) ?_
    rintro ⟨⟨s, -, hs⟩, -⟩
    exact hno s hs

/-! ## A run -/

def SoundStep (env : ThreadEnv) (data : SecurityData) (o : SourceOutcome)
    (data' : SecurityData) : Prop :=
  SourceStep env data o data' ∧ data'.tables.Sound

theorem refreshTexts_steps (env : ThreadEnv) {data : SecurityData}
    (h : data.tables.Sound) :
    ∃ trace, refreshTexts env data = .ok trace ∧
      trace.Steps (SoundStep env) data ∧ (trace.last data).tables.Sound ∧
      trace.map (·.1.source)
        = [.text .sbatLevel, .text .sbActive, .text .sbRevoked] := by
  have hcall : ∀ source ∈ [SecuritySource.sbatLevel, .sbActive, .sbRevoked],
      ∀ data : SecurityData, data.tables.Sound → ∃ t,
      (do
        let (ok, tables) ←
          nawamRefreshSecurityText (env.text source) source data.tables
        return [(⟨.text source, ok⟩, { data with tables := tables })] :
          C (Trace SourceOutcome SecurityData)) = .ok t ∧
      t.Steps (SoundStep env) data ∧ (t.last data).tables.Sound ∧
      t.map (·.1.source) = [.text source] := by
    intro source _ data hdata
    obtain ⟨ok, tables, hrun, hsound, hstep⟩ :=
      nawamRefreshSecurityText_refreshed (env.text source) source hdata
    refine ⟨[(⟨.text source, ok⟩, { data with tables := tables })], ?_,
      ⟨⟨hstep, hsound⟩, trivial⟩, hsound, rfl⟩
    simp [hrun]
  exact runAll_steps (·.tables.Sound) (SoundStep env) SourceOutcome.source
    (fun source => [.text source]) _ data h hcall

/-- The DBX part of a run leaves the tables alone. -/
theorem dbx_steps (env : ThreadEnv) (data : SecurityData)
    (h : data.tables.Sound) (trace : Trace ArchOutcome DbxState) :
    ∀ start : SecurityData, start.tables = data.tables →
    Trace.Steps (SoundStep env) start (trace.map fun x =>
      (⟨.dbx x.1.arch, x.1.ok⟩, { data with dbx := x.2 })) := by
  induction trace with
  | nil => exact fun _ _ => trivial
  | cons x trace ih =>
      intro start hstart
      exact ⟨⟨hstart.symm, h⟩, ih _ rfl⟩

/-- **A run of the thread**, whatever its sources meet. -/
theorem nawamSecurityRefreshThread_run (appDataDir : List UInt8)
    (env : ThreadEnv) {data : SecurityData} (h : data.tables.Sound) :
    ∃ run, nawamSecurityRefreshThread appDataDir env data = .ok run ∧
      ThreadRun env data run ∧ (run.2.last data).tables.Sound := by
  unfold nawamSecurityRefreshThread
  by_cases hgate : (!env.opInProgress || env.imageSelected) = true
  · rw [if_pos hgate]
    refine ⟨(0, []), rfl, ⟨?_, trivial, by simp, verdict_nil⟩, h⟩
    rw [if_neg fun hopen => by simp [hopen.1, hopen.2] at hgate]
    rfl
  · rw [if_neg hgate]
    obtain ⟨texts, htexts, hsteps, hsound, hlabels⟩ := refreshTexts_steps env h
    obtain ⟨dbx, hdbx, -, harchs⟩ := refreshLoop_steps appDataDir env.dbx
      (texts.last data).dbx
    simp only [htexts, nawamRefreshDbx, hdbx, C.ok_bind, C.pure_eq]
    generalize hpart : dbx.map (fun x =>
      ((⟨.dbx x.1.arch, x.1.ok⟩, { texts.last data with dbx := x.2 }) :
        SourceOutcome × SecurityData)) = part
    have hpartSteps : Trace.Steps (SoundStep env) (texts.last data) part :=
      hpart ▸ dbx_steps env (texts.last data) hsound dbx _ rfl
    have hall : Trace.Steps (SoundStep env) data (texts ++ part) :=
      hsteps.append hpartSteps
    have hstates := hall.invariant (I := (·.tables.Sound))
      (fun _ _ _ hstep _ => hstep.2) h
    have hsources : (texts ++ part).map (·.1.source) = allSources := by
      rw [List.map_append, hlabels, ← hpart, List.map_map, allSources, ← harchs,
        List.map_map]
      rfl
    -- the counters of the two parts add up to those of the run
    have hok : texts.countP (·.1.ok) + dbx.countP (·.1.ok)
        = (texts ++ part).countP (·.1.ok) := by
      rw [List.countP_append, ← hpart, List.countP_map]
      rfl
    have hfailed : texts.countP (!·.1.ok) + dbx.countP (!·.1.ok)
        = (texts ++ part).countP (!·.1.ok) := by
      rw [List.countP_append, ← hpart, List.countP_map]
      rfl
    rw [hok, hfailed]
    refine ⟨_, rfl, ⟨?_, hall.mono fun _ _ _ hstep => hstep.1, hstates,
      verdict_of_counts hsources⟩, ?_⟩
    · have hopen : env.opInProgress = true ∧ ¬ env.imageSelected = true := by
        simpa using hgate
      exact hsources.trans (if_pos hopen).symm
    · exact Trace.last_of_forall (I := fun d : SecurityData => d.tables.Sound) h
        hstates

/-! ## All runs -/

/-- **A refresh of the revocation tables is all or nothing.** For every
sequence of runs of the thread and whatever each source meets: after each
source, the pair of a text and its entries is what it was and the call
failed, or is a downloaded text that the validator accepts with the entries
parsed from it and the call succeeded, and the other pairs are unchanged; the
entries never point into a text that was freed; and the result of a run is 2
if all sources succeeded, 1 if some did, else 0. Nothing is freed twice or
used after it was freed, since no run faults. -/
theorem threadRuns_all_or_nothing (appDataDir : List UInt8)
    (envs : List ThreadEnv) (data : SecurityData) (h : data.tables.Sound) :
    ∃ runs, threadRuns appDataDir envs data = .ok runs ∧
      ThreadRuns data envs runs := by
  induction envs generalizing data with
  | nil => exact ⟨[], rfl, trivial⟩
  | cons env envs ih =>
      obtain ⟨run, hrun, hthread, hlast⟩ :=
        nawamSecurityRefreshThread_run appDataDir env h
      obtain ⟨runs, hruns, hrest⟩ := ih (run.2.last data) hlast
      exact ⟨run :: runs, by simp [threadRuns, hrun, hruns], hthread, hrest⟩

def Tables.initial : Tables :=
  ⟨⟨fun _ => none, 0, fun _ _ => rfl⟩, fun _ => none⟩

theorem Tables.initial_sound : Tables.initial.Sound :=
  ⟨by simp [Tables.initial], by simp [Tables.initial],
    by simp [Tables.initial]⟩

/-- A run in which one of the texts is not a list of thumbprints. -/
def partialRefresh : ThreadEnv where
  opInProgress := true
  imageSelected := false
  text
    | .sbatLevel => ⟨serving (Ascii.text "shim,4\n"), true⟩
    | .sbActive => ⟨serving (Ascii.text "none\n"), true⟩
    | .sbRevoked => ⟨serving (Ascii.text
        "0123456789abcdef0123456789abcdef01234567\n"), true⟩
  dbx := fun _ => newerDbx

/-- Two runs from the start of the program. -/
theorem threadRuns_all_or_nothing_partial :
    (threadRuns (Ascii.text "C:") [partialRefresh, partialRefresh]
        ⟨Tables.initial, DbxState.fresh⟩).map (·.map Prod.fst) = .ok [1, 1] ∧
    ∃ runs, threadRuns (Ascii.text "C:") [partialRefresh, partialRefresh]
        ⟨Tables.initial, DbxState.fresh⟩ = .ok runs ∧
      ThreadRuns ⟨Tables.initial, DbxState.fresh⟩
        [partialRefresh, partialRefresh] runs :=
  ⟨by decide +kernel, threadRuns_all_or_nothing (Ascii.text "C:")
    [partialRefresh, partialRefresh] ⟨Tables.initial, DbxState.fresh⟩
    Tables.initial_sound⟩

end Nawam
