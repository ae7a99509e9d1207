import Nawam.Drive.ToggleEsp
import Mathlib.Data.Fintype.Prod

/-!
# Toggling back

Along any interleaving of toggles the drives are as they were at the start but
for the type of the ESP of those that are toggled, and the slots hold, besides
what they held at the start, the GUIDs of the toggled ESPs, each once. From
there the second toggle of a drive finds its ESP and restores its type. What it
clears is another matter: `toggleEsp_reverts_iff` says that a whole run does
what it should exactly when at every second toggle the settings are in the
registry and the GUID is in the slot whose number is one more than the index of
the ESP.
-/

namespace Nawam

variable {ι : Type}

/-! ## One entry among many -/

/-- The only one of its kind is found at one place only. -/
theorem eq_of_countP_one {α : Type} {p : α → Bool} : ∀ {l : List α} {i k : ℕ} {a b : α},
    l.countP p = 1 → l[i]? = some a → p a = true → l[k]? = some b → p b = true →
    i = k
  | [], i, _, _, _, h, _, _, _, _ => by simp at h
  | x :: l, 0, 0, _, _, _, _, _, _, _ => rfl
  | x :: l, 0, k + 1, a, b, h, ha, hpa, hb, hpb => by
      obtain rfl : x = a := by simpa using ha
      rw [List.countP_cons_of_pos hpa] at h
      have hzero : l.countP p = 0 := by omega
      exact absurd hpb (List.countP_eq_zero.mp hzero b
        (List.mem_of_getElem? (by simpa using hb)))
  | x :: l, i + 1, 0, a, b, h, ha, hpa, hb, hpb => by
      obtain rfl : x = b := by simpa using hb
      rw [List.countP_cons_of_pos hpb] at h
      have hzero : l.countP p = 0 := by omega
      exact absurd hpa (List.countP_eq_zero.mp hzero a
        (List.mem_of_getElem? (by simpa using ha)))
  | x :: l, i + 1, k + 1, a, b, h, ha, hpa, hb, hpb => by
      rw [List.getElem?_cons_succ] at ha hb
      have hpos : 0 < l.countP p :=
        List.countP_pos_iff.mpr ⟨a, List.mem_of_getElem? ha, hpa⟩
      have hone : l.countP p = 1 := by
        rw [List.countP_cons] at h
        omega
      exact congrArg (· + 1) (eq_of_countP_one hone ha hpa hb hpb)

namespace DriveLayout

variable {layout : DriveLayout} {k : ℕ}

theorem espIndex_eq_some (h : layout.espIndex = some k) :
    ∃ entry, layout.partitionEntry[k]? = some entry ∧ layout.isEsp entry = true := by
  obtain ⟨hlt, hesp, -⟩ := List.findIdx?_eq_some_iff_getElem.mp h
  exact ⟨layout.partitionEntry[k], List.getElem?_eq_getElem hlt, hesp⟩

/-- Without its only ESP a drive has none. -/
theorem espIndex_modifyEntry (hone : layout.partitionEntry.countP layout.isEsp = 1)
    (hk : layout.espIndex = some k) (bootSector : Option (List UInt8)) :
    (layout.modifyEntry k (layout.toBasic bootSector)).espIndex = none := by
  obtain ⟨entry, hentry, hesp⟩ := espIndex_eq_some hk
  refine List.findIdx?_eq_none_iff.mpr fun e he => ?_
  show layout.isEsp e = false
  obtain ⟨i, hi⟩ := List.getElem?_of_mem he
  rw [modifyEntry, List.getElem?_modify] at hi
  by_cases hik : k = i
  · subst hik
    rw [hentry] at hi
    obtain rfl : layout.toBasic bootSector entry = e := by simpa using hi
    exact isEsp_toBasic layout bootSector entry
  · have hi : layout.partitionEntry[i]? = some e := by simpa [hik] using hi
    cases hother : layout.isEsp e with
    | false => rfl
    | true => exact absurd (eq_of_countP_one hone hentry hesp hi hother) hik

/-- The layout is back to what it was. -/
theorem modifyEntry_back (hk : layout.espIndex = some k)
    (bootSector : Option (List UInt8)) :
    (layout.modifyEntry k (layout.toBasic bootSector)).modifyEntry k layout.toEsp =
      layout := by
  obtain ⟨entry, hentry, hesp⟩ := espIndex_eq_some hk
  obtain ⟨style, signature, entries⟩ := layout
  refine congrArg (DriveLayout.mk style signature) (List.ext_getElem? fun i => ?_)
  show ((entries.modify k _).modify k _)[i]? = entries[i]?
  simp only [List.getElem?_modify]
  by_cases hik : k = i
  · subst hik
    have hentry : entries[k]? = some entry := hentry
    simp only [if_true, hentry]
    exact congrArg some (toEsp_toBasic hesp)
  · simp [hik]

theorem exists_espGuid (hk : layout.espIndex = some k) :
    ∃ g, layout.espGuid = some g ∧ layout.guids[k]? = some g := by
  obtain ⟨entry, hentry, -⟩ := espIndex_eq_some hk
  have hguid : layout.guids[k]? = some (layout.guidOf entry) := by
    simp [guids, hentry]
  exact ⟨_, by simp [espGuid, hk, hguid], hguid⟩

theorem espGuid_mem {g : Guid} (hg : layout.espGuid = some g) : g ∈ layout.guids := by
  obtain ⟨i, -, hi⟩ := Option.bind_eq_some_iff.mp hg
  exact List.mem_of_getElem? hi

end DriveLayout

/-! ## Worlds, and what a run should do -/

/-- The drives that are toggled, which are those without an ESP. -/
def World.toggled [Fintype ι] (σ : World ι) : Finset ι :=
  Finset.univ.filter fun d => (σ.drives d).espIndex = none

/-- Where a run starts: every drive has exactly one ESP, whose GUID names
nothing else on any drive, and no slot names a partition. -/
structure World.Ready [DecidableEq ι] (σ : World ι) : Prop where
  oneEsp : ∀ d, (σ.drives d).partitionEntry.countP (σ.drives d).isEsp = 1
  apart : ∀ d, ∀ g ∈ (σ.drives d).espGuid, ∀ d',
    (σ.drives d').guids.count g = if d' = d then 1 else 0
  unnamed : ∀ j ∈ espSlots, ∀ d, ∀ g ∈ (σ.drives d).guids,
    g = getEspGuid j σ.settings → g = .null

/-- A toggle, with no more drives toggled after it than there were slots free
for at the start. -/
structure Toggles [DecidableEq ι] [Fintype ι] (σ₀ σ : World ι)
    (a : ι × Option (List UInt8)) (σ' : World ι) : Prop where
  step : σ' = σ.toggle a
  room : σ₀.settings.occupied.card + σ'.toggled.card ≤ maxEspToggle

/-- What the second toggle of a drive should do: its partitions are what they
were at the start, all other drives are left alone, and the slot that held
the GUID of its ESP is cleared, and nothing else in the settings changes. -/
structure Reverts [DecidableEq ι] (σ₀ σ : World ι) (d : ι) (σ' : World ι) :
    Prop where
  drives : σ'.drives = Function.update σ.drives d (σ₀.drives d)
  settings : ∃ j ∈ espSlots, ∃ g ∈ (σ₀.drives d).espGuid,
    σ.settings.value (slotKey j) = guidToString g true ∧
      σ'.settings = { σ.settings with
        value := Function.update σ.settings.value (slotKey j) [] }

/-- The settings are in the registry. The GUID of the ESP is not the null one, and
it is in the slot whose number is one more than the index of the ESP. -/
def OwnSlot (σ₀ σ : World ι) (d : ι) : Prop :=
  σ.settings.ini = false ∧
    ∃ k ∈ (σ₀.drives d).espIndex, ∃ g ∈ (σ₀.drives d).espGuid, g ≠ .null ∧
    UInt8.ofNat (k + 1) ∈ espSlots ∧
    σ.settings.value (slotKey (.ofNat (k + 1))) = guidToString g true

/-! ## The invariant of a run -/

/-- What is kept of the start `σ₀` along a run. -/
structure EspKept [Fintype ι] (σ₀ σ : World ι) : Prop where
  untoggled : ∀ d, (σ.drives d).espIndex ≠ none → σ.drives d = σ₀.drives d
  toggled : ∀ d, (σ.drives d).espIndex = none → ∃ k bootSector,
    (σ₀.drives d).espIndex = some k ∧
      σ.drives d = (σ₀.drives d).modifyEntry k ((σ₀.drives d).toBasic bootSector)
  slots : ∀ j ∈ espSlots,
    (∀ d, ∀ g ∈ (σ₀.drives d).guids, g = getEspGuid j σ.settings → g = .null) ∨
      ∃ d g, (σ.drives d).espIndex = none ∧ (σ₀.drives d).espGuid = some g ∧
        σ.settings.value (slotKey j) = guidToString g true
  once : ∀ d g, (σ₀.drives d).espGuid = some g → g ≠ .null →
    ∀ i ∈ espSlots, ∀ j ∈ espSlots, σ.settings.value (slotKey i) = guidToString g true →
      σ.settings.value (slotKey j) = guidToString g true → i = j
  card : σ.settings.occupied.card = σ₀.settings.occupied.card + σ.toggled.card

namespace World.Ready

variable [DecidableEq ι] {σ : World ι} (h : σ.Ready)
include h

theorem exists_espIndex (d : ι) : ∃ k, (σ.drives d).espIndex = some k := by
  have hpos : 0 < (σ.drives d).partitionEntry.countP (σ.drives d).isEsp := by
    rw [h.oneEsp d]
    exact Nat.one_pos
  obtain ⟨entry, hmem, hesp⟩ := List.countP_pos_iff.mp hpos
  refine Option.ne_none_iff_exists'.mp fun hnone => ?_
  exact absurd hesp (by simp [List.findIdx?_eq_none_iff.mp hnone entry hmem])

theorem espGuid_names {d d' : ι} {g : Guid} (hg : (σ.drives d).espGuid = some g)
    (hmem : g ∈ (σ.drives d').guids) : d' = d := by
  have hcount := h.apart d g hg d'
  by_contra hne
  rw [if_neg hne] at hcount
  exact absurd hmem (List.count_eq_zero.mp hcount)

theorem espGuid_index {d : ι} {k i : ℕ} {g : Guid}
    (hk : (σ.drives d).espIndex = some k) (hg : (σ.drives d).espGuid = some g)
    (hi : (σ.drives d).guids[i]? = some g) : i = k := by
  have hcount := h.apart d g hg d
  rw [if_pos rfl] at hcount
  obtain ⟨g', hg', hkg⟩ := DriveLayout.exists_espGuid hk
  rw [hg, Option.some.injEq] at hg'
  subst hg'
  exact eq_of_countP_one hcount hi (beq_self_eq_true g) hkg (beq_self_eq_true g)

theorem kept [Fintype ι] : EspKept σ σ where
  untoggled _ _ := rfl
  toggled d hnone := by
    obtain ⟨k, hk⟩ := h.exists_espIndex d
    exact absurd hnone (by simp [hk])
  slots j hj := .inl (h.unnamed j hj)
  once d g hg hnull i hi j hj hslot _ := by
    refine absurd (h.unnamed i hi d g (DriveLayout.espGuid_mem hg) ?_) hnull
    rw [getEspGuid, hslot, stringToGuid_guidToString]
  card := by
    have hempty : σ.toggled = ∅ := by
      refine Finset.filter_eq_empty_iff.mpr fun d _ => ?_
      obtain ⟨k, hk⟩ := h.exists_espIndex d
      simp [hk]
    rw [hempty]
    rfl

end World.Ready

/-! ## One toggle -/

namespace World

variable [DecidableEq ι] [Fintype ι] {σ σ' : World ι} {d : ι} {layout : DriveLayout}

omit [DecidableEq ι] in
theorem mem_toggled : d ∈ σ.toggled ↔ (σ.drives d).espIndex = none := by
  simp [toggled]

theorem toggled_insert (hdrives : σ'.drives = Function.update σ.drives d layout)
    (hlayout : layout.espIndex = none) : σ'.toggled = insert d σ.toggled := by
  ext e
  rw [mem_toggled, hdrives, Finset.mem_insert, mem_toggled]
  by_cases hed : e = d
  · subst hed
    simp [hlayout]
  · simp [hed]

theorem toggled_erase (hdrives : σ'.drives = Function.update σ.drives d layout)
    (hlayout : layout.espIndex ≠ none) : σ'.toggled = σ.toggled.erase d := by
  ext e
  rw [mem_toggled, hdrives, Finset.mem_erase, mem_toggled]
  by_cases hed : e = d
  · subst hed
    simp [hlayout]
  · simp [hed]

end World

section Step

variable [DecidableEq ι] [Fintype ι] {σ₀ σ σ' : World ι} {d : ι} {k : ℕ} {g : Guid}
  {bootSector : Option (List UInt8)}

section Invariant

variable (h : EspKept σ₀ σ)
include h

omit [DecidableEq ι] in
theorem EspKept.guids (d : ι) : (σ.drives d).guids = (σ₀.drives d).guids := by
  by_cases hesp : (σ.drives d).espIndex = none
  · obtain ⟨k, bootSector, -, hlayout⟩ := h.toggled d hesp
    rw [hlayout]
    exact DriveLayout.guids_modifyEntry (DriveLayout.guidOf_toBasic _ _)
  · rw [h.untoggled d hesp]

/-- **The second toggle** restores the drive, and clears the slot after the
index of its ESP. -/
theorem EspKept.toggle_back (hesp : (σ.drives d).espIndex = none)
    (hk : (σ₀.drives d).espIndex = some k)
    (hfind : (σ.drives d).findStored σ.settings = some k) :
    σ.toggle (d, bootSector) =
      { drives := Function.update σ.drives d (σ₀.drives d)
        settings := clearEspInfo (.ofNat (k + 1)) σ.settings } := by
  obtain ⟨k', bootSector', hk', hlayout⟩ := h.toggled d hesp
  obtain rfl : k = k' := Option.some.inj (hk.symm.trans hk')
  have hback := DriveLayout.modifyEntry_back hk bootSector'
  rw [World.toggle_of_stored bootSector hesp hfind, hlayout]
  exact congrArg (fun layout => World.mk (Function.update σ.drives d layout) _) hback

end Invariant

variable (h₀ : σ₀.Ready) (h : EspKept σ₀ σ)
include h₀ h

/-- No slot holds the GUID of an ESP that is in place. -/
theorem EspKept.not_stored (hesp : (σ.drives d).espIndex ≠ none)
    (hg : (σ₀.drives d).espGuid = some g) (hnull : g ≠ .null) {j : UInt8}
    (hj : j ∈ espSlots) : σ.settings.value (slotKey j) ≠ guidToString g true := by
  intro hslot
  rcases h.slots j hj with hunnamed | ⟨e, g', he, hg', hslot'⟩
  · refine hnull (hunnamed d g (DriveLayout.espGuid_mem hg) ?_)
    rw [getEspGuid, hslot, stringToGuid_guidToString]
  · obtain rfl : g = g' := guidToString_injective (hslot.symm.trans hslot')
    obtain rfl := h₀.espGuid_names hg (DriveLayout.espGuid_mem hg')
    exact hesp he

/-- What the search finds is the ESP. -/
theorem EspKept.of_findStored (hk : (σ₀.drives d).espIndex = some k)
    (hg : (σ₀.drives d).espGuid = some g) {i : ℕ}
    (hfind : (σ.drives d).findStored σ.settings = some i) : i = k ∧ g ≠ .null := by
  obtain ⟨j, hj, hfind⟩ := List.exists_of_findSome?_eq_some hfind
  by_cases hnull : getEspGuid j σ.settings = .null
  · simp [hnull] at hfind
  · simp only [hnull, if_false] at hfind
    obtain ⟨hi, hentry, -⟩ := List.findIdx?_eq_some_iff_getElem.mp hfind
    have hindex : (σ₀.drives d).guids[i]? = some (getEspGuid j σ.settings) := by
      rw [← h.guids d, DriveLayout.guids, List.getElem?_map,
        List.getElem?_eq_getElem hi, Option.map_some, of_decide_eq_true hentry]
    have hmem := List.mem_of_getElem? hindex
    rcases h.slots j hj with hunnamed | ⟨e, g', -, hg', hslot⟩
    · exact absurd (hunnamed d _ hmem rfl) hnull
    · have hstored : getEspGuid j σ.settings = g' := by
        rw [getEspGuid, hslot, stringToGuid_guidToString]
      rw [hstored] at hindex hmem hnull
      obtain rfl := h₀.espGuid_names hg' hmem
      obtain rfl : g = g' := Option.some.inj (hg.symm.trans hg')
      exact ⟨h₀.espGuid_index hk hg hindex, hnull⟩

/-- It is found when a slot holds its GUID. -/
theorem EspKept.findStored_of_slot (hk : (σ₀.drives d).espIndex = some k)
    (hg : (σ₀.drives d).espGuid = some g) (hnull : g ≠ .null) {j : UInt8}
    (hj : j ∈ espSlots) (hslot : σ.settings.value (slotKey j) = guidToString g true) :
    (σ.drives d).findStored σ.settings = some k := by
  cases hfind : (σ.drives d).findStored σ.settings with
  | some i => rw [(h.of_findStored h₀ hk hg hfind).1]
  | none =>
      have hstored : getEspGuid j σ.settings = g := by
        rw [getEspGuid, hslot, stringToGuid_guidToString]
      have hmiss := List.findSome?_eq_none_iff.mp hfind j hj
      simp only [hstored, hnull, if_false] at hmiss
      have hmem : g ∈ (σ.drives d).guids := by
        rw [h.guids d]
        exact DriveLayout.espGuid_mem hg
      obtain ⟨entry, hentry, hguid⟩ := List.mem_map.mp hmem
      exact absurd (List.findIdx?_eq_none_iff.mp hmiss entry hentry) (by simp [hguid])

/-- **The first toggle** keeps the invariant: there is room, so the GUID goes
into an empty slot. -/
theorem EspKept.first_toggle (hesp : (σ.drives d).espIndex ≠ none)
    (hstep : Toggles σ₀ σ (d, bootSector) σ') : EspKept σ₀ σ' := by
  have hsame := h.untoggled d hesp
  obtain ⟨k, hk⟩ := h₀.exists_espIndex d
  obtain ⟨g, hg, -⟩ := DriveLayout.exists_espGuid hk
  have htoggle := World.toggle_of_esp bootSector (hsame ▸ hk) (hsame ▸ hg)
  rw [← hstep.step, hsame] at htoggle
  have hnone := DriveLayout.espIndex_modifyEntry (h₀.oneEsp d) hk bootSector
  have hdrives : σ'.drives = Function.update σ.drives d
      ((σ₀.drives d).modifyEntry k ((σ₀.drives d).toBasic bootSector)) :=
    congrArg World.drives htoggle
  have htoggled : σ'.toggled.card = σ.toggled.card + 1 := by
    rw [World.toggled_insert hdrives hnone, Finset.card_insert_of_notMem]
    exact fun hmem => hesp (World.mem_toggled.mp hmem)
  have hroom : σ.settings.occupied.card < maxEspToggle := by
    have hle := hstep.room
    rw [htoggled] at hle
    rw [h.card]
    omega
  obtain ⟨j, hj, hempty, hstore⟩ := storeEspInfo_of_room g hroom
  have hsettings : σ'.settings =
      writeSettingStr (slotKey j) (guidToString g true) σ.settings :=
    (congrArg World.settings htoggle).trans hstore
  have hself : σ'.settings.value (slotKey j) = guidToString g true := by
    rw [hsettings, writeSettingStr_self (.inr (guidToString_ne_nil g))]
  have hother {i : UInt8} (hij : i ≠ j) :
      σ'.settings.value (slotKey i) = σ.settings.value (slotKey i) := by
    rw [hsettings, writeSettingStr_of_ne hij]
  have hstill {e : ι} (he : (σ.drives e).espIndex = none) :
      (σ'.drives e).espIndex = none :=
    World.mem_toggled.mp (World.toggled_insert hdrives hnone ▸
      Finset.mem_insert_of_mem (World.mem_toggled.mpr he))
  constructor
  case untoggled =>
    intro e he
    by_cases hed : e = d
    · subst hed
      rw [hdrives, Function.update_self] at he
      exact absurd hnone he
    · rw [hdrives, Function.update_of_ne hed] at he ⊢
      exact h.untoggled e he
  case toggled =>
    intro e he
    by_cases hed : e = d
    · subst hed
      exact ⟨k, bootSector, hk, by rw [hdrives, Function.update_self]⟩
    · rw [hdrives, Function.update_of_ne hed] at he ⊢
      exact h.toggled e he
  case slots =>
    intro i hi
    by_cases hij : i = j
    · subst hij
      refine .inr ⟨d, g, ?_, hg, hself⟩
      rw [hdrives, Function.update_self, hnone]
    · rw [getEspGuid, hother hij]
      rcases h.slots i hi with hunnamed | ⟨e, g', he, hg', hslot⟩
      · exact .inl hunnamed
      · exact .inr ⟨e, g', hstill he, hg', hslot⟩
  case once =>
    -- the new slot cannot hold what another one held before
    have hfresh {e : ι} {g' : Guid} (hg' : (σ₀.drives e).espGuid = some g')
        (hnull : g' ≠ .null) (hnew : σ'.settings.value (slotKey j) = guidToString g' true)
        {i : UInt8} (hi : i ∈ espSlots)
        (hslot : σ'.settings.value (slotKey i) = guidToString g' true) : i = j := by
      by_contra hij
      obtain rfl : g = g' := guidToString_injective (hself.symm.trans hnew)
      rw [hother hij] at hslot
      exact h.not_stored h₀ hesp hg hnull hi hslot
    intro e g' hg' hnull i hi i' hi' hslot hslot'
    by_cases hij : i = j
    · subst hij
      exact (hfresh hg' hnull hslot hi' hslot').symm
    · by_cases hij' : i' = j
      · subst hij'
        exact hfresh hg' hnull hslot' hi hslot
      · rw [hother hij] at hslot
        rw [hother hij'] at hslot'
        exact h.once e g' hg' hnull i hi i' hi' hslot hslot'
  case card =>
    have hoccupied : σ'.settings.occupied.card = σ.settings.occupied.card + 1 := by
      rw [hsettings, Settings.occupied_of_empty hj (guidToString_ne_nil g),
        Finset.card_insert_of_notMem]
      exact fun hmem => (Settings.mem_occupied.mp hmem).2 hempty
    rw [hoccupied, h.card, htoggled, Nat.add_assoc]

/-- **The second toggle does what it should exactly when the GUID is in the
slot of its own number.** -/
theorem EspKept.reverts_iff (hesp : (σ.drives d).espIndex = none)
    (hstep : Toggles σ₀ σ (d, bootSector) σ') :
    Reverts σ₀ σ d σ' ↔ OwnSlot σ₀ σ d := by
  obtain ⟨k, hk⟩ := h₀.exists_espIndex d
  obtain ⟨g, hg, -⟩ := DriveLayout.exists_espGuid hk
  constructor
  · rintro ⟨hdrives, j, hj, g', hg', hslot, hsettings⟩
    obtain rfl : g = g' := Option.some.inj (hg.symm.trans hg')
    cases hfind : (σ.drives d).findStored σ.settings with
    | none =>
        -- nothing was found, so the drive is still without an ESP
        rw [hstep.step, World.toggle_of_not_stored bootSector hesp hfind] at hdrives
        have hd := congrFun hdrives d
        rw [Function.update_self] at hd
        rw [hd, hk] at hesp
        exact absurd hesp (by simp)
    | some i =>
        obtain ⟨rfl, hnull⟩ := h.of_findStored h₀ hk hg hfind
        have hcleared : σ'.settings = clearEspInfo (.ofNat (i + 1)) σ.settings := by
          rw [hstep.step, h.toggle_back hesp hk hfind]
        have hempty : (clearEspInfo (.ofNat (i + 1)) σ.settings).value (slotKey j) = [] := by
          rw [hcleared.symm.trans hsettings]
          exact Function.update_self ..
        have hini : σ.settings.ini = false := by
          refine (Bool.not_eq_true _).mp fun hini => guidToString_ne_nil g ?_
          rw [clearEspInfo_of_ini hini, hslot] at hempty
          exact hempty
        have hown : UInt8.ofNat (i + 1) = j := by
          by_contra hne
          rw [clearEspInfo, writeSettingStr_of_ne (Ne.symm hne), hslot] at hempty
          exact guidToString_ne_nil g hempty
        exact ⟨hini, i, hk, g, hg, hnull, hown ▸ hj, hown ▸ hslot⟩
  · rintro ⟨hini, k', hk', g', hg', hnull, hj, hslot⟩
    obtain rfl : k = k' := Option.some.inj (hk.symm.trans hk')
    obtain rfl : g = g' := Option.some.inj (hg.symm.trans hg')
    have hfind := h.findStored_of_slot h₀ hk hg hnull hj hslot
    rw [hstep.step, h.toggle_back hesp hk hfind]
    exact ⟨rfl, _, hj, g, hg, hslot, writeSettingStr_eq (.inl hini) _⟩

/-- A second toggle that clears the slot of its drive keeps the invariant. -/
theorem EspKept.second_toggle (hesp : (σ.drives d).espIndex = none)
    (hown : OwnSlot σ₀ σ d) (hstep : Toggles σ₀ σ (d, bootSector) σ') :
    EspKept σ₀ σ' := by
  obtain ⟨hini, k, hk, g, hg, hnull, hj, hslot⟩ := hown
  have hfind := h.findStored_of_slot h₀ hk hg hnull hj hslot
  have htoggle := @EspKept.toggle_back _ _ _ _ _ _ _ bootSector h hesp hk hfind
  rw [← hstep.step] at htoggle
  generalize UInt8.ofNat (k + 1) = j at hj hslot htoggle
  have hdrives : σ'.drives = Function.update σ.drives d (σ₀.drives d) :=
    congrArg World.drives htoggle
  have hsettings : σ'.settings = clearEspInfo j σ.settings :=
    congrArg World.settings htoggle
  have hself : σ'.settings.value (slotKey j) = [] := by
    rw [hsettings, clearEspInfo, writeSettingStr_self (.inl hini)]
  have hother {i : UInt8} (hij : i ≠ j) :
      σ'.settings.value (slotKey i) = σ.settings.value (slotKey i) := by
    rw [hsettings, clearEspInfo, writeSettingStr_of_ne hij]
  have hsome : (σ₀.drives d).espIndex ≠ none := by
    rw [hk]
    exact Option.some_ne_none k
  constructor
  case untoggled =>
    intro e he
    by_cases hed : e = d
    · subst hed
      rw [hdrives, Function.update_self]
    · rw [hdrives, Function.update_of_ne hed] at he ⊢
      exact h.untoggled e he
  case toggled =>
    intro e he
    by_cases hed : e = d
    · subst hed
      rw [hdrives, Function.update_self] at he
      exact absurd he hsome
    · rw [hdrives, Function.update_of_ne hed] at he ⊢
      exact h.toggled e he
  case slots =>
    intro i hi
    by_cases hij : i = j
    · subst hij
      refine .inl fun e g' _ hg' => ?_
      rw [hg', getEspGuid, hself, stringToGuid_nil]
    · rw [getEspGuid, hother hij]
      rcases h.slots i hi with hunnamed | ⟨e, g', he, hg', hslot'⟩
      · exact .inl hunnamed
      · refine .inr ⟨e, g', ?_, hg', hslot'⟩
        have hed : e ≠ d := by
          rintro rfl
          obtain rfl : g = g' := Option.some.inj (hg.symm.trans hg')
          exact hij (h.once e g hg hnull i hi j hj hslot' hslot)
        rw [hdrives, Function.update_of_ne hed, he]
  case once =>
    intro e g' hg' hnull' i hi i' hi' hheld hheld'
    have hne {i : UInt8} (hheld : σ'.settings.value (slotKey i) = guidToString g' true) :
        i ≠ j := by
      rintro rfl
      exact guidToString_ne_nil g' (hheld.symm.trans hself)
    rw [hother (hne hheld)] at hheld
    rw [hother (hne hheld')] at hheld'
    exact h.once e g' hg' hnull' i hi i' hi' hheld hheld'
  case card =>
    have hheld : j ∈ σ.settings.occupied :=
      Settings.mem_occupied.mpr ⟨hj, hslot ▸ guidToString_ne_nil g⟩
    have hmem : d ∈ σ.toggled := World.mem_toggled.mpr hesp
    have hcard := h.card
    have hpos : 0 < σ.toggled.card := Finset.card_pos.mpr ⟨d, hmem⟩
    rw [hsettings, Settings.occupied_clear hini, World.toggled_erase hdrives hsome,
      Finset.card_erase_of_mem hheld, Finset.card_erase_of_mem hmem]
    omega

end Step

/-! ## Runs -/

/-- **Toggling is reversible exactly along the runs that find every GUID in the
slot of its own number.** In any interleaving of toggles of any drives, with at
most as many toggled at a time as there are slots free, every second toggle of
a drive does what it should if and only if at every second toggle the settings are
in the registry and the number of the slot that holds the GUID of the ESP is one
more than the index of the ESP. -/
theorem toggleEsp_reverts_iff [DecidableEq ι] [Fintype ι] {σ₀ : World ι}
    (h₀ : σ₀.Ready) {run : Trace (ι × Option (List UInt8)) (World ι)}
    (hrun : run.Steps (Toggles σ₀) σ₀) :
    run.Steps
        (fun σ a σ' => (σ.drives a.1).espIndex = none → Reverts σ₀ σ a.1 σ') σ₀ ↔
      run.Steps
        (fun σ a _ => (σ.drives a.1).espIndex = none → OwnSlot σ₀ σ a.1) σ₀ := by
  refine Trace.Steps.iff_of_invariant (I := EspKept σ₀) ?_ ?_ hrun h₀.kept
  · intro σ a σ' hkept hstep
    exact forall_congr' fun hesp => hkept.reverts_iff h₀ hesp hstep
  · intro σ a σ' hkept hstep hown
    by_cases hesp : (σ.drives a.1).espIndex = none
    · exact hkept.second_toggle h₀ hesp (hown hesp) hstep
    · exact hkept.first_toggle h₀ hesp hstep

/-- A GPT drive with the ESP in front, and an MBR drive with the ESP behind
another partition. -/
def matchingDrives : World Bool where
  drives
    | false =>
        { partitionStyle := .gpt, signature := 0
          partitionEntry :=
            [⟨0x100000, 0, partitionGenericEsp, ⟨1, 2, 3, .replicate 8 4⟩⟩,
              ⟨0x6500000, 0, partitionMicrosoftData, ⟨5, 6, 7, .replicate 8 8⟩⟩] }
    | true =>
        { partitionStyle := .mbr, signature := 0x90909090
          partitionEntry :=
            [⟨0x100000, 0x07, .null, .null⟩, ⟨0x6500000, 0xef, .null, .null⟩] }
  settings := ⟨false, fun _ => []⟩

def World.toggleAll [DecidableEq ι] : World ι → List (ι × Option (List UInt8)) →
    Trace (ι × Option (List UInt8)) (World ι)
  | _, [] => []
  | σ, a :: as => (a, σ.toggle a) :: (σ.toggle a).toggleAll as

/-- Toggled there one after the other, and back in the same order. -/
theorem toggleEsp_reverts_iff_matchingDrives :
    (matchingDrives.toggleAll
      [(false, none), (true, none), (false, none), (true, none)]).Steps
        (fun σ a σ' => (σ.drives a.1).espIndex = none →
          Reverts matchingDrives σ a.1 σ') matchingDrives := by
  have hready : matchingDrives.Ready := by
    refine ⟨by decide, ?_, by decide +kernel⟩
    intro d g hg
    cases d with
    | false =>
        obtain rfl : (⟨1, 2, 3, .replicate 8 4⟩ : Guid) = g := Option.some.inj hg
        decide
    | true =>
        obtain rfl : (⟨0x90909090, 0, 0, leVector 0x6500000⟩ : Guid) = g :=
          Option.some.inj hg
        decide
  refine (toggleEsp_reverts_iff hready ?_).mpr ?_
  · exact ⟨⟨rfl, by decide⟩, ⟨rfl, by decide⟩,
      ⟨rfl, by decide⟩, ⟨rfl, by decide⟩, trivial⟩
  · refine ⟨fun h => ?_, fun h => ?_, fun _ => ?_, fun _ => ?_, trivial⟩
    · exact absurd h (by decide)
    · exact absurd h (by decide)
    · exact ⟨rfl, 0, rfl, _, rfl, by decide, by decide, by decide⟩
    · exact ⟨rfl, 1, rfl, _, rfl, by decide, by decide, by decide⟩

def espBehind : World Unit where
  drives _ :=
    { partitionStyle := .gpt, signature := 0
      partitionEntry :=
        [⟨0x100000, 0, partitionMicrosoftData, ⟨5, 6, 7, .replicate 8 8⟩⟩,
          ⟨0x6500000, 0, partitionGenericEsp, ⟨1, 2, 3, .replicate 8 4⟩⟩] }
  settings := ⟨false, fun _ => []⟩

/-- Toggled there and back, the drive leaves its GUID in the first slot. -/
theorem toggleEsp_keeps_slot :
    espBehind.Ready ∧
      (espBehind.toggleAll [((), none), ((), none)]).Steps (Toggles espBehind)
        espBehind ∧
      ¬(espBehind.toggleAll [((), none), ((), none)]).Steps
        (fun σ a σ' => (σ.drives a.1).espIndex = none → Reverts espBehind σ a.1 σ')
        espBehind := by
  refine ⟨⟨by decide, ?_, by decide +kernel⟩,
    ⟨⟨rfl, by decide⟩, ⟨rfl, by decide⟩, trivial⟩, ?_⟩
  · rintro ⟨⟩ g hg
    obtain rfl : (⟨1, 2, 3, .replicate 8 4⟩ : Guid) = g := Option.some.inj hg
    decide
  · rintro ⟨-, hreverts, -⟩
    obtain ⟨-, j, hj, g, -, hslot, hsettings⟩ := hreverts (by decide)
    have hkept : ∀ j ∈ espSlots,
        (espBehind.toggle ((), none)).settings.value (slotKey j) ≠ [] →
          ((espBehind.toggle ((), none)).toggle ((), none)).settings.value (slotKey j) ≠ [] := by
      decide +kernel
    refine hkept j hj (hslot ▸ guidToString_ne_nil g) ?_
    rw [hsettings]
    exact Function.update_self ..

end Nawam
