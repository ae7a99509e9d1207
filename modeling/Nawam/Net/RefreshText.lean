import Nawam.Base.Heap
import Nawam.Net.Download
import Nawam.Parser.Thumbprint

/-!
# The refresh of a revocation table

`NawamRefreshSecurityText` of `net.c`. Each of the three sources has two
globals, the downloaded text and the entries parsed from it, and the entries
of the SBAT level point into their text. A refresh downloads, validates and
parses into blocks of its own, and only then frees the old pair and installs
the new one.

Here a pointer is an address of a heap in which freeing or writing a block
that is not there is a fault. `Tables.Sound` is the invariant: every global is
null or owns a block, and what the entries point into is the text beside them.
-/

namespace Nawam

open Ascii

/-! ## State -/

/-- The three texts, in the order of `urls`. -/
inductive SecuritySource where
  | sbatLevel
  | sbActive
  | sbRevoked
deriving DecidableEq, Repr

/-- The globals: `sbat_level_txt`, `sb_active_txt`, `sb_revoked_txt`, and
`sbat_entries`, `sb_active_certs`, `sb_revoked_certs`. -/
inductive Slot where
  | text (source : SecuritySource)
  | entries (source : SecuritySource)
deriving DecidableEq, Repr

/-- An SBAT entry in memory: the product is an address and an offset. -/
structure SbatPointer where
  product : Option (ℕ × ℕ)
  version : ℕ
deriving DecidableEq, Repr

inductive Block where
  | text (bytes : List UInt8)
  | sbat (list : List SbatPointer)
  | thumbprints (list : ThumbprintList)
deriving DecidableEq, Repr

structure Tables where
  heap : Heap Block
  ptr : Slot → Option ℕ

/-! ## Source -/

/-- `kind != 0` -/
def SecuritySource.kind : SecuritySource → TextKind
  | .sbatLevel => .sbat
  | .sbActive => .thumbprint
  | .sbRevoked => .thumbprint

/-- `urls` -/
def SecuritySource.url : SecuritySource → List UInt8
  | .sbatLevel => text "https://rufus.ie/sbat_level.txt"
  | .sbActive => text "https://rufus.ie/sb_active.txt"
  | .sbRevoked => text "https://rufus.ie/sb_revoked.txt"

/-- What a call meets: the download, and the `calloc` of the parser. -/
structure TextEnv where
  download : DownloadEnv
  calloc : Bool

/-- `&text[off]`, for the text at an address. -/
def pointInto (text : ℕ) (e : SbatEntry) : SbatPointer :=
  ⟨e.product.map fun off => (text, off), e.version⟩

/-- `while (sbat[count].product != NULL) count++;` -/
def countProducts : List SbatPointer → C ℕ
  | [] => .error .outOfBounds
  | e :: es =>
      if e.product = none then return 0
      else do
        let n ← countProducts es
        return n + 1

/-- The parser of the source on the text at an address: the bytes of the text
afterwards, and the entries with their count, `none` for `NULL`. -/
def parseText (source : SecuritySource) (calloc : Bool) (text : ℕ)
    (bytes : List UInt8) : C (List UInt8 × Option (Block × ℕ)) :=
  match source.kind with
  | .sbat => do
      let (bytes, parsed) ← getSbatEntries calloc bytes
      match parsed with
      | none => return (bytes, none)
      | some list =>
          let sbat := list.map (pointInto text)
          let count ← countProducts sbat
          return (bytes, some (.sbat sbat, count))
  | .thumbprint => do
      let parsed ← getThumbprintEntries calloc bytes
      return (bytes, parsed.map fun certs => (.thumbprints certs, certs.count))

def safeFree (slot : Slot) (t : Tables) : C Tables := do
  let heap ← t.heap.free (t.ptr slot)
  return ⟨heap, Function.update t.ptr slot none⟩

/-- Free the old pair, entries first, and install the new one. -/
def installPair (source : SecuritySource) (entries text : ℕ) (t : Tables) :
    C Tables := do
  let t ← safeFree (.entries source) t
  let t ← safeFree (.text source) t
  let ptr := Function.update t.ptr (.entries source) (some entries)
  return ⟨t.heap, Function.update ptr (.text source) (some text)⟩

def nawamRefreshSecurityText (env : TextEnv) (source : SecuritySource)
    (t : Tables) : C (Bool × Tables) := do
  let d ← downloadToFileOrBufferEx env.download source.url none true
    fun _ => none
  match d.buffer with
  -- the validator refuses a null text
  | none => return (false, t)
  | some bytes =>
      let (text, heap) := t.heap.alloc (.text bytes)
      let expected := nawamSecurityTextValid (bytes.take d.result) source.kind
      if expected = 0 then
        let heap ← heap.free (some text)
        return (false, { t with heap := heap })
      else
        let (bytes, parsed) ← parseText source env.calloc text bytes
        -- the SBAT parser works in place
        let heap ← heap.write text (.text bytes)
        match parsed with
        | none =>
            let heap ← heap.free (some text)
            return (false, { t with heap := heap })
        | some (block, count) =>
            let (entries, heap) := heap.alloc block
            if count ≠ expected then
              let heap ← heap.free (some entries)
              let heap ← heap.free (some text)
              return (false, { t with heap := heap })
            else
              let t ← installPair source entries text { t with heap := heap }
              return (true, t)

/-! ## The invariant -/

/-- The kind of block a global may point to. -/
def Block.fits : Block → Slot → Bool
  | .text _, .text _ => true
  | .sbat _, .entries source => source.kind = .sbat
  | .thumbprints _, .entries source => source.kind = .thumbprint
  | _, _ => false

def Block.pointers : Block → List (ℕ × ℕ)
  | .sbat list => list.filterMap (·.product)
  | _ => []

/-- Every global is null or owns a block of its kind, and entries point into
the text beside them and nowhere else. -/
structure Tables.Sound (t : Tables) : Prop where
  live : ∀ slot a, t.ptr slot = some a →
    ∃ b, t.heap.blocks a = some b ∧ b.fits slot = true
  owner : ∀ slot slot' a, t.ptr slot = some a → t.ptr slot' = some a →
    slot = slot'
  inside : ∀ source a b, t.ptr (.entries source) = some a →
    t.heap.blocks a = some b → ∀ p ∈ b.pointers,
      t.ptr (.text source) = some p.1 ∧
        ∃ bytes, t.heap.blocks p.1 = some (.text bytes) ∧ p.2 < bytes.length

/-- A global with what it points to. -/
def Tables.view (t : Tables) (slot : Slot) : Option (ℕ × Option Block) :=
  (t.ptr slot).map fun a => (a, t.heap.blocks a)

/-- The pair of a source: the text and the entries. -/
def Tables.pair (t : Tables) (source : SecuritySource) :
    Option (ℕ × Option Block) × Option (ℕ × Option Block) :=
  (t.view (.text source), t.view (.entries source))

/-- The download of `env` delivers `data`. -/
def Downloads (env : DownloadEnv) (url data : List UInt8) : Prop :=
  ∃ d, downloadToFileOrBufferEx env url none true (fun _ => none) = .ok d ∧
    d.result = data.length ∧ d.buffer = some (data ++ [0, 0])

/-- The pair is `data` and the entries parsed from it. -/
def ParsedPair (source : SecuritySource) (data : List UInt8)
    (pair : Option (ℕ × Option Block) × Option (ℕ × Option Block)) : Prop :=
  ∃ text entries bytes block,
    parseText source true text (data ++ [0, 0]) = .ok (bytes, some (block,
      nawamSecurityTextValid data source.kind)) ∧
    pair = (some (text, some (.text bytes)), some (entries, some block))

/-- What a call does to the pairs: all or nothing. -/
structure Refreshed (env : TextEnv) (source : SecuritySource) (t : Tables)
    (ok : Bool) (t' : Tables) : Prop where
  others : ∀ s, s ≠ source → t'.pair s = t.pair s
  kept : ok = false → t'.pair source = t.pair source
  replaced : ok = true → ∃ data,
    Downloads env.download source.url data ∧
    0 < nawamSecurityTextValid data source.kind ∧
    ParsedPair source data (t'.pair source)

/-! ## The parsers on an accepted text -/

theorem countProducts_append {entries rest : List SbatPointer}
    (h : ∀ e ∈ entries, e.product ≠ none) (version : ℕ) :
    countProducts (entries ++ ⟨none, version⟩ :: rest)
      = .ok entries.length := by
  induction entries with
  | nil => simp [countProducts]
  | cons e entries ih =>
      have he := h e List.mem_cons_self
      have ih := ih fun x hx => h x (List.mem_cons_of_mem e hx)
      rw [List.cons_append, countProducts, if_neg he, ih]
      rfl

/-- What the parsed entries point to. -/
def Block.PointsInto (b : Block) (text : ℕ) (bytes : List UInt8) : Prop :=
  ∀ p ∈ b.pointers, p.1 = text ∧ p.2 < bytes.length

theorem entryOf_product {mem row : List UInt8} {e : SbatEntry}
    (h : EntryOf mem row e) :
    ∃ off, e.product = some off ∧ off < mem.length := by
  obtain ⟨before, hp, hprefix, -⟩ := h
  refine ⟨before.length, hp, ?_⟩
  have hle := hprefix.length_le
  simp only [List.length_append, List.length_singleton] at hle
  omega

theorem parseText_sbat {source : SecuritySource} (hkind : source.kind = .sbat)
    (text : ℕ) {data : List UInt8} {n : ℕ} (hn : 0 < n)
    (hvalid : nawamSecurityTextValid data .sbat = n) :
    ∃ bytes block, parseText source true text (data ++ [0, 0])
        = .ok (bytes, some (block, n)) ∧
      block.fits (.entries source) = true ∧ block.PointsInto text bytes := by
  obtain ⟨mem, entries, k, ls, hrun, -, hcount, -, hent⟩ :=
    getSbatEntries_reads [0] hn hvalid
  have hproduct : ∀ e ∈ entries, ∃ off, e.product = some off ∧
      off < mem.length := by
    intro e he
    obtain ⟨i, hi, rfl⟩ := List.mem_iff_getElem.mp he
    exact entryOf_product (hent.get (by rwa [hent.length_eq]) hi)
  have hlist : (entries ++ SbatEntry.zero ::
      List.replicate k SbatEntry.zero).map (pointInto text)
      = entries.map (pointInto text) ++ ⟨none, 0⟩ ::
        List.replicate k ⟨none, 0⟩ := by
    simp [pointInto, SbatEntry.zero]
  have hcounted : countProducts (entries.map (pointInto text) ++ ⟨none, 0⟩ ::
      List.replicate k ⟨none, 0⟩) = .ok n := by
    rw [countProducts_append, List.length_map, ← hent.length_eq, hcount]
    intro p hp
    obtain ⟨e, he, rfl⟩ := List.mem_map.mp hp
    obtain ⟨off, hoff, -⟩ := hproduct e he
    simp [pointInto, hoff]
  refine ⟨mem, .sbat (entries.map (pointInto text) ++ ⟨none, 0⟩ ::
    List.replicate k ⟨none, 0⟩), ?_, by simp [Block.fits, hkind], ?_⟩
  · have hrun' : getSbatEntries true (data ++ [0, 0]) = _ := hrun
    simp only [parseText, hkind, hrun', C.ok_bind, hlist, hcounted, C.pure_eq]
  · intro p hp
    obtain ⟨q, hq, hproductOf⟩ := List.mem_filterMap.mp hp
    rcases List.mem_append.mp hq with hq | hq
    · obtain ⟨e, he, rfl⟩ := List.mem_map.mp hq
      obtain ⟨off, hoff, hlt⟩ := hproduct e he
      have hp' : (text, off) = p := by
        simpa [pointInto, hoff] using hproductOf
      rw [← hp']
      exact ⟨rfl, hlt⟩
    · have hnull : q.product = none := by
        rcases List.mem_cons.mp hq with rfl | hq
        · rfl
        · rw [(List.mem_replicate.mp hq).2]
      rw [hnull] at hproductOf
      cases hproductOf

theorem parseText_thumbprint {source : SecuritySource}
    (hkind : source.kind = .thumbprint) (text : ℕ) {data : List UInt8} {n : ℕ}
    (hn : 0 < n) (hvalid : nawamSecurityTextValid data .thumbprint = n) :
    ∃ bytes block, parseText source true text (data ++ [0, 0])
        = .ok (bytes, some (block, n)) ∧
      block.fits (.entries source) = true ∧ block.PointsInto text bytes := by
  obtain ⟨ls, zeros, -, -, hrun, -⟩ := getThumbprintEntries_reads [0] hn hvalid
  have hrun' : getThumbprintEntries true (data ++ [0, 0]) = _ := hrun
  refine ⟨data ++ [0, 0], .thumbprints
    ⟨n, (ls.filter isDataRow).flatMap hexBytes ++ zeros⟩, ?_,
    by simp [Block.fits, hkind], by simp [Block.PointsInto, Block.pointers]⟩
  simp only [parseText, hkind, hrun', C.ok_bind, C.pure_eq, Option.map_some]

/-- On an accepted text the parser finds what the validator counted. -/
theorem parseText_of_valid (source : SecuritySource) (text : ℕ)
    {data : List UInt8} {n : ℕ} (hn : 0 < n)
    (hvalid : nawamSecurityTextValid data source.kind = n) :
    ∃ bytes block, parseText source true text (data ++ [0, 0])
        = .ok (bytes, some (block, n)) ∧
      block.fits (.entries source) = true ∧ block.PointsInto text bytes := by
  cases hkind : source.kind with
  | sbat => exact parseText_sbat hkind text hn (by rwa [hkind] at hvalid)
  | thumbprint =>
      exact parseText_thumbprint hkind text hn (by rwa [hkind] at hvalid)

theorem parseText_of_no_memory (source : SecuritySource) (text : ℕ)
    (data : List UInt8) : ∃ bytes,
      parseText source false text (data ++ [0, 0]) = .ok (bytes, none) := by
  have hcstr : ∃ str, cstrAt (data ++ [0, 0]) 0 = .ok str :=
    ⟨_, if_pos (by simp)⟩
  obtain ⟨str, hstr⟩ := hcstr
  cases hkind : source.kind with
  | sbat => simp [parseText, hkind, getSbatEntries, hstr]
  | thumbprint => simp [parseText, hkind, getThumbprintEntries, hstr]

/-! ## The heap along a call -/

/-- Blocks that are added do not disturb the tables. -/
theorem Tables.Sound.extend {t : Tables} (h : t.Sound) {heap : Heap Block}
    (hext : ∀ a b, t.heap.blocks a = some b → heap.blocks a = some b) :
    ({ t with heap := heap } : Tables).Sound where
  live := by
    intro slot a ha
    obtain ⟨b, hb, hfits⟩ := h.live slot a ha
    exact ⟨b, hext a b hb, hfits⟩
  owner := h.owner
  inside := by
    intro source a b ha hb p hp
    obtain ⟨c, hc, -⟩ := h.live _ a ha
    have hbc : c = b := by
      rw [show heap.blocks a = some c from hext a c hc] at hb
      exact Option.some.inj hb
    obtain ⟨htext, bytes, hbytes, hlt⟩ := h.inside source a c ha hc p
      (by rwa [hbc])
    exact ⟨htext, bytes, hext _ _ hbytes, hlt⟩

theorem Tables.view_extend {t : Tables} (h : t.Sound) {heap : Heap Block}
    (hext : ∀ a b, t.heap.blocks a = some b → heap.blocks a = some b)
    (slot : Slot) : ({ t with heap := heap } : Tables).view slot
      = t.view slot := by
  unfold Tables.view
  cases ha : t.ptr slot with
  | none => rfl
  | some a =>
      obtain ⟨b, hb, -⟩ := h.live slot a ha
      rw [Option.map_some, Option.map_some, hb, hext a b hb]

/-- A call that ends with the blocks it began with has changed nothing. -/
theorem Refreshed.failed {env : TextEnv} {source : SecuritySource} {t : Tables}
    (h : t.Sound) {heap : Heap Block} (hblocks : heap.blocks = t.heap.blocks) :
    ({ t with heap := heap } : Tables).Sound ∧
      Refreshed env source t false { t with heap := heap } := by
  have hext : ∀ a b, t.heap.blocks a = some b → heap.blocks a = some b := by
    intro a b hb
    rwa [hblocks]
  have hpair : ∀ s, ({ t with heap := heap } : Tables).pair s = t.pair s := by
    intro s
    unfold Tables.pair
    rw [Tables.view_extend h hext, Tables.view_extend h hext]
  exact ⟨h.extend hext, fun s _ => hpair s, fun _ => hpair source, by simp⟩

/-- The pair of a source was replaced: its globals are the new pointers, and
only the blocks of the old pair are gone. -/
structure Installed (source : SecuritySource) (entries text : ℕ)
    (t t' : Tables) : Prop where
  text : t'.ptr (.text source) = some text
  entries : t'.ptr (.entries source) = some entries
  others : ∀ slot, slot ≠ .text source → slot ≠ .entries source →
    t'.ptr slot = t.ptr slot
  blocks : ∀ a, t.ptr (.text source) ≠ some a →
    t.ptr (.entries source) ≠ some a → t'.heap.blocks a = t.heap.blocks a

/-- The old pair is there to be freed, and is not freed twice. -/
theorem installPair_run {t : Tables} (h : t.Sound) (source : SecuritySource)
    (entries text : ℕ) :
    ∃ t', installPair source entries text t = .ok t' ∧
      Installed source entries text t t' := by
  have hTE : Slot.text source ≠ Slot.entries source := by simp
  have hlive : ∀ a, t.ptr (.entries source) = some a →
      ∃ b, t.heap.blocks a = some b := by
    intro a ha
    obtain ⟨b, hb, -⟩ := h.live _ a ha
    exact ⟨b, hb⟩
  obtain ⟨heap₁, hfree₁, hblocks₁⟩ := Heap.free_of_live_or_null hlive
  -- the entries are not the text, so the text is still there
  have hlive₁ : ∀ a, t.ptr (.text source) = some a →
      ∃ b, heap₁.blocks a = some b := by
    intro a ha
    obtain ⟨b, hb, -⟩ := h.live _ a ha
    refine ⟨b, ?_⟩
    rw [hblocks₁, if_neg fun he => hTE (h.owner _ _ a ha he)]
    exact hb
  obtain ⟨heap₂, hfree₂, hblocks₂⟩ := Heap.free_of_live_or_null hlive₁
  refine ⟨⟨heap₂, Function.update (Function.update (Function.update
    (Function.update t.ptr (.entries source) none) (.text source) none)
    (.entries source) (some entries)) (.text source) (some text)⟩, ?_, ?_⟩
  · simp only [installPair, safeFree, hfree₁, C.ok_bind, C.pure_eq]
    rw [Function.update_of_ne hTE, hfree₂]
    rfl
  · refine ⟨Function.update_self .., ?_, ?_, ?_⟩
    · dsimp only
      rw [Function.update_of_ne hTE.symm, Function.update_self]
    · intro slot hT hE
      dsimp only
      rw [Function.update_of_ne hT, Function.update_of_ne hE,
        Function.update_of_ne hT, Function.update_of_ne hE]
    · intro a hT hE
      show heap₂.blocks a = _
      rw [hblocks₂, if_neg hT, hblocks₁, if_neg hE]

namespace Installed

variable {t t' : Tables} {source : SecuritySource} {text entries : ℕ}
  {bytes : List UInt8} {block : Block}

theorem ptr_cases (hi : Installed source entries text t t') {slot : Slot}
    {a : ℕ} (ha : t'.ptr slot = some a) :
    (slot = .text source ∧ a = text) ∨ (slot = .entries source ∧ a = entries) ∨
      (slot ≠ .text source ∧ slot ≠ .entries source ∧ t.ptr slot = some a) := by
  by_cases hT : slot = .text source
  · rw [hT, hi.text] at ha
    exact Or.inl ⟨hT, (Option.some.inj ha).symm⟩
  · by_cases hE : slot = .entries source
    · rw [hE, hi.entries] at ha
      exact Or.inr (Or.inl ⟨hE, (Option.some.inj ha).symm⟩)
    · rw [hi.others slot hT hE] at ha
      exact Or.inr (Or.inr ⟨hT, hE, ha⟩)

/-- Another source's block is not one of the old pair. -/
theorem blocks_other (hi : Installed source entries text t t') (h : t.Sound)
    {slot : Slot} (hT : slot ≠ .text source) (hE : slot ≠ .entries source)
    {a : ℕ} (ha : t.ptr slot = some a) :
    t'.heap.blocks a = t.heap.blocks a :=
  hi.blocks a (fun h' => hT (h.owner _ _ a ha h'))
    fun h' => hE (h.owner _ _ a ha h')

theorem view_other (hi : Installed source entries text t t') (h : t.Sound)
    {slot : Slot} (hT : slot ≠ .text source) (hE : slot ≠ .entries source) :
    t'.view slot = t.view slot := by
  unfold Tables.view
  rw [hi.others slot hT hE]
  cases ha : t.ptr slot with
  | none => rfl
  | some a =>
      rw [Option.map_some, Option.map_some, hi.blocks_other h hT hE ha]

theorem pair_other (hi : Installed source entries text t t') (h : t.Sound)
    {s : SecuritySource} (hs : s ≠ source) : t'.pair s = t.pair s := by
  unfold Tables.pair
  rw [hi.view_other h (by simpa using hs) (by simp),
    hi.view_other h (by simp) (by simpa using hs)]

section New

variable (hi : Installed source entries text t t')
  (hfree : ∀ slot, t.ptr slot ≠ some text ∧ t.ptr slot ≠ some entries)
  (htext : t.heap.blocks text = some (.text bytes))
  (hentries : t.heap.blocks entries = some block)
include hi hfree htext hentries

theorem blocks_new : t'.heap.blocks text = some (.text bytes) ∧
    t'.heap.blocks entries = some block := by
  rw [hi.blocks text (hfree _).1 (hfree _).1,
    hi.blocks entries (hfree _).2 (hfree _).2]
  exact ⟨htext, hentries⟩

theorem pair_new : t'.pair source
    = (some (text, some (.text bytes)), some (entries, some block)) := by
  obtain ⟨htext', hentries'⟩ := hi.blocks_new hfree htext hentries
  unfold Tables.pair Tables.view
  rw [hi.text, hi.entries, Option.map_some, Option.map_some, htext', hentries']

theorem sound (h : t.Sound) (hne : entries ≠ text)
    (hfits : block.fits (.entries source) = true)
    (hinto : block.PointsInto text bytes) : t'.Sound := by
  obtain ⟨htext', hentries'⟩ := hi.blocks_new hfree htext hentries
  refine ⟨?_, ?_, ?_⟩
  · intro slot a ha
    rcases hi.ptr_cases ha with ⟨rfl, rfl⟩ | ⟨rfl, rfl⟩ | ⟨hT, hE, ha⟩
    · exact ⟨_, htext', rfl⟩
    · exact ⟨block, hentries', hfits⟩
    · rw [hi.blocks_other h hT hE ha]
      exact h.live slot a ha
  · intro slot slot' a ha ha'
    rcases hi.ptr_cases ha with ⟨hs, hat⟩ | ⟨hs, hae⟩ | ⟨-, -, hold⟩
    · rcases hi.ptr_cases ha' with ⟨hs', -⟩ | ⟨-, hae⟩ | ⟨-, -, hold⟩
      · rw [hs, hs']
      · exact absurd (hae.symm.trans hat) hne
      · exact absurd (hat ▸ hold) (hfree slot').1
    · rcases hi.ptr_cases ha' with ⟨-, hat⟩ | ⟨hs', -⟩ | ⟨-, -, hold⟩
      · exact absurd (hae.symm.trans hat) hne
      · rw [hs, hs']
      · exact absurd (hae ▸ hold) (hfree slot').2
    · rcases hi.ptr_cases ha' with ⟨-, hat⟩ | ⟨-, hae⟩ | ⟨-, -, hold'⟩
      · exact absurd (hat ▸ hold) (hfree slot).1
      · exact absurd (hae ▸ hold) (hfree slot).2
      · exact h.owner slot slot' a hold hold'
  · intro s a b ha hb p hp
    by_cases hs : s = source
    · subst hs
      have hae : entries = a := Option.some.inj (hi.entries.symm.trans ha)
      rw [← hae, hentries'] at hb
      obtain ⟨hp₁, hp₂⟩ := hinto p (by rwa [Option.some.inj hb])
      rw [hp₁]
      exact ⟨hi.text, bytes, htext', hp₂⟩
    · have hT : Slot.text s ≠ .text source := by simpa using hs
      have hE : Slot.entries s ≠ .entries source := by simpa using hs
      rw [hi.others _ (by simp) hE] at ha
      rw [hi.blocks_other h (by simp) hE ha] at hb
      obtain ⟨hptr, old, hold, hlt⟩ := h.inside s a b ha hb p hp
      refine ⟨(hi.others _ hT (by simp)).trans hptr, old, ?_, hlt⟩
      rw [hi.blocks_other h hT (by simp) hptr]
      exact hold

end New

end Installed

/-! ## A call -/

section Call

variable {t : Tables} (h : t.Sound) {text : ℕ}
  (hnew : t.heap.blocks text = none)
include hnew

/-- Giving back the downloaded text leaves the blocks of the start. -/
theorem free_text {heap : Heap Block} {b : Block}
    (hblocks : heap.blocks = Function.update t.heap.blocks text (some b)) :
    ∃ heap', heap.free (some text) = .ok heap' ∧
      heap'.blocks = t.heap.blocks := by
  have hlive : heap.blocks text = some b := by
    rw [hblocks, Function.update_self]
  obtain ⟨heap', hfree, hblocks'⟩ := Heap.free_of_live hlive
  refine ⟨heap', hfree, ?_⟩
  rw [hblocks', hblocks, Function.update_idem, Function.update_eq_self_iff]
  exact hnew.symm

include h

/-- Installing a text and entries that were allocated for it. -/
theorem install_new {source : SecuritySource} {bytes : List UInt8}
    {block : Block} {heap heap' : Heap Block} {entries : ℕ}
    (htext : heap.blocks
      = Function.update t.heap.blocks text (some (.text bytes)))
    (hnone : heap.blocks entries = none)
    (hentries : heap'.blocks
      = Function.update heap.blocks entries (some block))
    (hfits : block.fits (.entries source) = true)
    (hinto : block.PointsInto text bytes) :
    ∃ t', installPair source entries text { t with heap := heap' } = .ok t' ∧
      t'.Sound ∧ (∀ s, s ≠ source → t'.pair s = t.pair s) ∧
      t'.pair source
        = (some (text, some (.text bytes)), some (entries, some block)) := by
  have hne : entries ≠ text := by
    rintro rfl
    rw [htext, Function.update_self] at hnone
    cases hnone
  -- a block that was there before is neither of the new ones
  have hold : ∀ a b, t.heap.blocks a = some b → a ≠ text ∧ a ≠ entries := by
    intro a b hb
    have hat : a ≠ text := by
      rintro rfl
      rw [hnew] at hb
      cases hb
    refine ⟨hat, ?_⟩
    rintro rfl
    rw [htext, Function.update_of_ne hat, hb] at hnone
    cases hnone
  have hext : ∀ a b, t.heap.blocks a = some b → heap'.blocks a = some b := by
    intro a b hb
    obtain ⟨hat, hae⟩ := hold a b hb
    rw [hentries, Function.update_of_ne hae, htext, Function.update_of_ne hat,
      hb]
  have hfree : ∀ slot, t.ptr slot ≠ some text ∧ t.ptr slot ≠ some entries := by
    intro slot
    constructor
    · intro hptr
      obtain ⟨b, hb, -⟩ := h.live slot text hptr
      exact (hold text b hb).1 rfl
    · intro hptr
      obtain ⟨b, hb, -⟩ := h.live slot entries hptr
      exact (hold entries b hb).2 rfl
  have htext' : heap'.blocks text = some (.text bytes) := by
    rw [hentries, Function.update_of_ne hne.symm, htext, Function.update_self]
  have hentries' : heap'.blocks entries = some block := by
    rw [hentries, Function.update_self]
  have hsound := h.extend hext
  obtain ⟨t', hrun, hi⟩ := installPair_run hsound source entries text
  refine ⟨t', hrun, hi.sound hfree htext' hentries' hsound hne hfits hinto, ?_,
    hi.pair_new hfree htext' hentries'⟩
  intro s hs
  rw [hi.pair_other hsound hs]
  unfold Tables.pair
  rw [Tables.view_extend h hext, Tables.view_extend h hext]

end Call

/-- **A refresh of a table is all or nothing**, whatever the server sends and
whether or not there is memory; it never frees or uses a block that is not
there. -/
theorem nawamRefreshSecurityText_refreshed (env : TextEnv)
    (source : SecuritySource) {t : Tables} (h : t.Sound) :
    ∃ ok t', nawamRefreshSecurityText env source t = .ok (ok, t') ∧
      t'.Sound ∧ Refreshed env source t ok t' := by
  obtain ⟨d, hd, -, hbuffer⟩ := download_buffer env.download source.url
    fun _ => none
  unfold nawamRefreshSecurityText
  rw [hd]
  simp only [C.ok_bind]
  rcases hbuffer with ⟨-, hnone⟩ | ⟨data, -, hsize, -, hsome⟩
  · rw [hnone]
    exact ⟨false, t, rfl, Refreshed.failed h rfl⟩
  rw [hsome, hsize]
  simp only [List.take_left]
  obtain ⟨text, heap₁, halloc₁, hnew, hblocks₁⟩ :=
    t.heap.alloc_fresh (.text (data ++ [0, 0]))
  simp only [halloc₁]
  by_cases hzero : nawamSecurityTextValid data source.kind = 0
  · obtain ⟨heap₂, hfree, hblocks₂⟩ := free_text hnew hblocks₁
    simp only [if_pos hzero, hfree, C.ok_bind]
    exact ⟨false, _, rfl, Refreshed.failed h hblocks₂⟩
  rw [if_neg hzero]
  have hpos := Nat.pos_of_ne_zero hzero
  have hlive : heap₁.blocks text = some (.text (data ++ [0, 0])) := by
    rw [hblocks₁, Function.update_self]
  cases env.calloc with
  | false =>
      obtain ⟨bytes, hparse⟩ := parseText_of_no_memory source text data
      obtain ⟨heap₂, hwrite, hblocks₂⟩ :=
        Heap.write_of_live hlive (.text bytes)
      rw [hblocks₁, Function.update_idem] at hblocks₂
      obtain ⟨heap₃, hfree, hblocks₃⟩ := free_text hnew hblocks₂
      simp only [hparse, hwrite, hfree, C.ok_bind]
      exact ⟨false, _, rfl, Refreshed.failed h hblocks₃⟩
  | true =>
      obtain ⟨bytes, block, hparse, hfits, hinto⟩ :=
        parseText_of_valid source text hpos rfl
      obtain ⟨heap₂, hwrite, hblocks₂⟩ :=
        Heap.write_of_live hlive (.text bytes)
      rw [hblocks₁, Function.update_idem] at hblocks₂
      obtain ⟨entries, heap₃, halloc₃, hnone, hblocks₃⟩ :=
        heap₂.alloc_fresh block
      obtain ⟨t', hrun, hsound, hothers, hpair⟩ :=
        install_new h hnew hblocks₂ hnone hblocks₃ hfits hinto
      simp only [hparse, hwrite, halloc₃, hrun, C.ok_bind]
      -- the parser found as many entries as the validator counted
      rw [if_neg (by simp)]
      refine ⟨true, t', rfl, hsound, hothers, by simp, ?_⟩
      intro _
      refine ⟨data, ⟨d, hd, hsize, hsome⟩, hpos, ?_⟩
      rw [hpair]
      exact ⟨text, entries, bytes, block, hparse, rfl⟩

end Nawam
