import Mathlib.Data.List.Basic
import Mathlib.Data.List.Induction

/-!
# Reading lines into a buffer

What `fgets` makes of a text when it is called again and again with a buffer
of a given size: lines, each with the mark that ends it, and a line that is
longer than the buffer in several pieces. A text whose lines all fit is read
line by line; and where one text ends with a line mark, what follows it is
read as if it stood alone.
-/

namespace Nawam

variable {α : Type} [DecidableEq α]

/-- The pieces in which a text is read, the first one with so much room left. -/
def chunksFrom (nl : α) (size : ℕ) : ℕ → List α → List (List α)
  | _, [] => []
  | room, c :: s =>
      if c = nl ∨ room ≤ 1 then [c] :: chunksFrom nl size size s
      else
        match chunksFrom nl size (room - 1) s with
        | [] => [[c]]
        | b :: bs => (c :: b) :: bs

/-- The pieces in which a text is read. -/
def chunks (nl : α) (size : ℕ) (text : List α) : List (List α) :=
  chunksFrom nl size size text

/-- What stands behind the last line mark. -/
def openLine (nl : α) (text : List α) : List α :=
  (text.reverse.takeWhile (· ≠ nl)).reverse

/-- The text of lines, each with its mark. -/
def unlines (nl : α) (ls : List (List α)) : List α :=
  (ls.map (· ++ [nl])).flatten

variable {nl : α} {size room : ℕ} {l : List α}

@[simp] theorem chunks_nil : chunks nl size [] = [] := rfl

theorem chunksFrom_ne_nil (c : α) (s : List α) : chunksFrom nl size room (c :: s) ≠ [] := by
  unfold chunksFrom
  split
  case isTrue => exact List.cons_ne_nil _ _
  case isFalse =>
    split
    case h_1 => exact List.cons_ne_nil _ _
    case h_2 => exact List.cons_ne_nil _ _

theorem chunksFrom_cons {c : α} {s b : List α} {bs : List (List α)} (hc : c ≠ nl)
    (hroom : 1 < room) (h : chunksFrom nl size (room - 1) s = b :: bs) :
    chunksFrom nl size room (c :: s) = (c :: b) :: bs := by
  rw [chunksFrom, if_neg (by simp [hc, hroom]), h]

theorem chunksFrom_join : ∀ (s : List α) (room : ℕ),
    (chunksFrom nl size room s).flatten = s
  | [], _ => rfl
  | c :: s, room => by
      rw [chunksFrom]
      split
      case isTrue =>
        rw [List.flatten_cons, chunksFrom_join s size]
        rfl
      case isFalse =>
        have ih := chunksFrom_join s (room - 1)
        split
        case h_1 hnil =>
          rw [hnil] at ih
          rw [← ih]
          rfl
        case h_2 b bs hcons =>
          rw [hcons] at ih
          rw [← ih]
          rfl

/-- A line that fits is read with its mark. -/
theorem chunksFrom_line (rest : List α) : ∀ {l : List α} {room : ℕ}, nl ∉ l →
    l.length < room →
    chunksFrom nl size room (l ++ nl :: rest) = (l ++ [nl]) :: chunks nl size rest
  | [], room, _, _ => by
      rw [List.nil_append, chunksFrom, if_pos (.inl rfl)]
      rfl
  | c :: l, room, hl, hroom => by
      rw [List.mem_cons, not_or] at hl
      rw [List.length_cons] at hroom
      exact chunksFrom_cons (Ne.symm hl.1) (by omega) (chunksFrom_line rest hl.2 (by omega))

/-- As much as there is room for is read, if there is no mark in it. -/
theorem chunksFrom_full (rest : List α) : ∀ {l : List α} {room : ℕ}, nl ∉ l →
    l.length = room → 0 < room →
    chunksFrom nl size room (l ++ rest) = l :: chunks nl size rest
  | [], room, _, hroom, hpos => by
      rw [List.length_nil] at hroom
      omega
  | [c], room, hl, hroom, _ => by
      rw [List.cons_append, chunksFrom, if_pos (.inr (Nat.le_of_eq hroom.symm))]
      rfl
  | c :: d :: l, room, hl, hroom, _ => by
      rw [List.mem_cons, not_or] at hl
      rw [List.length_cons] at hroom
      have hlen : 0 < (d :: l).length := Nat.succ_pos _
      exact chunksFrom_cons (Ne.symm hl.1) (by omega)
        (chunksFrom_full rest hl.2 (by omega) (by omega))

theorem chunksFrom_open : ∀ {l : List α} {room : ℕ}, nl ∉ l → l ≠ [] →
    l.length ≤ room → chunksFrom nl size room l = [l]
  | [c], room, hl, _, _ => by
      unfold chunksFrom
      split
      case isTrue => rfl
      case isFalse => rfl
  | c :: d :: l, room, hl, _, hroom => by
      rw [List.mem_cons, not_or] at hl
      rw [List.length_cons] at hroom
      have hlen : 0 < (d :: l).length := Nat.succ_pos _
      exact chunksFrom_cons (Ne.symm hl.1) (by omega)
        (chunksFrom_open hl.2 (List.cons_ne_nil _ _) (by omega))

/-- **Behind a line mark reading starts afresh.** -/
theorem chunksFrom_append (rest : List α) : ∀ (l : List α) (room : ℕ),
    chunksFrom nl size room (l ++ nl :: rest) =
      chunksFrom nl size room (l ++ [nl]) ++ chunks nl size rest
  | [], room => by
      simp only [List.nil_append, chunksFrom, true_or, if_true]
      rfl
  | c :: l, room => by
      rw [List.cons_append, List.cons_append, chunksFrom, chunksFrom]
      split
      case isTrue =>
        rw [chunksFrom_append rest l size]
        rfl
      case isFalse =>
        rw [chunksFrom_append rest l (room - 1)]
        cases hhead : chunksFrom nl size (room - 1) (l ++ [nl]) with
        | nil =>
            cases l with
            | nil => exact absurd hhead (chunksFrom_ne_nil nl [])
            | cons d l => exact absurd hhead (chunksFrom_ne_nil d (l ++ [nl]))
        | cons b bs => rfl

theorem chunks_append (l rest : List α) :
    chunks nl size (l ++ nl :: rest) =
      chunks nl size (l ++ [nl]) ++ chunks nl size rest :=
  chunksFrom_append rest l size

theorem chunks_line (hl : nl ∉ l) (hsize : l.length < size) :
    chunks nl size (l ++ [nl]) = [l ++ [nl]] :=
  chunksFrom_line [] hl hsize

theorem chunks_open (hl : nl ∉ l) (hne : l ≠ []) (hsize : l.length ≤ size) :
    chunks nl size l = [l] :=
  chunksFrom_open hl hne hsize

/-- A line as long as the buffer leaves its mark behind. -/
theorem chunks_full (hl : nl ∉ l) (hsize : l.length = size) (hpos : 0 < size) :
    chunks nl size (l ++ [nl]) = [l, [nl]] := by
  have hmark : chunks nl size [nl] = [[nl]] := chunks_line (l := []) (by simp) hpos
  rw [chunks, chunksFrom_full [nl] hl hsize hpos, hmark]

/-- Texts that end with a line mark are read one after the other. -/
theorem chunks_flatten (rest : List α) : ∀ {ts : List (List α)},
    (∀ t ∈ ts, ∃ l, t = l ++ [nl]) →
    chunks nl size (ts.flatten ++ rest) =
      ts.flatMap (chunks nl size) ++ chunks nl size rest
  | [], _ => rfl
  | t :: ts, h => by
      obtain ⟨l, rfl⟩ := h t List.mem_cons_self
      have ih := chunks_flatten rest fun t ht => h t (List.mem_cons_of_mem _ ht)
      rw [List.flatten_cons, List.flatMap_cons, List.append_assoc, List.append_assoc,
        List.append_assoc, List.singleton_append, chunks_append, ih]

omit [DecidableEq α] in
theorem unlines_cons (l : List α) (ls : List (List α)) :
    unlines nl (l :: ls) = l ++ nl :: unlines nl ls := by
  simp [unlines]

omit [DecidableEq α] in
theorem unlines_append (ls ls' : List (List α)) :
    unlines nl (ls ++ ls') = unlines nl ls ++ unlines nl ls' := by
  simp [unlines]

omit [DecidableEq α] in
theorem unlines_singleton (l : List α) : unlines nl [l] = l ++ [nl] := unlines_cons l []

omit [DecidableEq α] in
theorem unlines_concat (ls : List (List α)) (l : List α) :
    unlines nl (ls ++ [l]) = unlines nl ls ++ l ++ [nl] := by
  rw [unlines_append, unlines_singleton, List.append_assoc]

omit [DecidableEq α] in
theorem unlines_getLast (ls : List (List α)) : ∀ c ∈ (unlines nl ls).getLast?, c = nl := by
  intro c hc
  cases ls using List.reverseRecOn with
  | nil => cases hc
  | append_singleton ls l =>
      rw [unlines_concat, List.getLast?_concat] at hc
      exact (Option.mem_some.mp hc).symm

/-- The lines that end with a mark, and what is behind the last one -/
def cutLines (nl : α) : List α → List (List α) × List α
  | [] => ([], [])
  | c :: s =>
      match cutLines nl s with
      | ([], last) => if c = nl then ([[]], last) else ([], c :: last)
      | (l :: ls, last) => if c = nl then ([] :: l :: ls, last) else ((c :: l) :: ls, last)

theorem cutLines_open : ∀ {last : List α}, nl ∉ last → cutLines nl last = ([], last)
  | [], _ => rfl
  | c :: last, h => by
      rw [List.mem_cons, not_or] at h
      rw [cutLines, cutLines_open h.2]
      exact if_neg (Ne.symm h.1)

theorem cutLines_line (rest : List α) : ∀ {l : List α}, nl ∉ l →
    cutLines nl (l ++ nl :: rest) = (l :: (cutLines nl rest).1, (cutLines nl rest).2)
  | [], _ => by
      rw [List.nil_append, cutLines]
      split
      case h_1 heq => simp [heq]
      case h_2 heq => simp [heq]
  | c :: l, h => by
      rw [List.mem_cons, not_or] at h
      rw [List.cons_append, cutLines, cutLines_line rest h.2]
      exact if_neg (Ne.symm h.1)

theorem cutLines_unlines {last : List α} (hlast : nl ∉ last) : ∀ {ls : List (List α)},
    (∀ l ∈ ls, nl ∉ l) → cutLines nl (unlines nl ls ++ last) = (ls, last)
  | [], _ => cutLines_open hlast
  | l :: ls, h => by
      have ih := cutLines_unlines hlast fun l' hl' => h l' (List.mem_cons_of_mem l hl')
      rw [unlines_cons, List.append_assoc, List.cons_append,
        cutLines_line _ (h l List.mem_cons_self), ih]

/-- Every text is some lines with their marks, and what is behind the last one. -/
theorem exists_unlines (nl : α) : ∀ text : List α, ∃ ls last,
    text = unlines nl ls ++ last ∧ (∀ l ∈ ls, nl ∉ l) ∧ nl ∉ last
  | [] => ⟨[], [], rfl, by simp, by simp⟩
  | c :: text => by
      obtain ⟨ls, last, htext, hls, hlast⟩ := exists_unlines nl text
      by_cases hc : c = nl
      · refine ⟨[] :: ls, last, ?_, ?_, hlast⟩
        · rw [htext, hc]
          rfl
        · intro l hl
          rcases List.mem_cons.mp hl with rfl | hl
          · exact List.not_mem_nil
          · exact hls l hl
      · cases ls with
        | nil =>
            refine ⟨[], c :: last, by rw [htext]; rfl, by simp, ?_⟩
            rw [List.mem_cons, not_or]
            exact ⟨Ne.symm hc, hlast⟩
        | cons l ls =>
            refine ⟨(c :: l) :: ls, last, by rw [htext]; rfl, ?_, hlast⟩
            intro l' hl'
            rcases List.mem_cons.mp hl' with rfl | hl'
            · rw [List.mem_cons, not_or]
              exact ⟨Ne.symm hc, hls l List.mem_cons_self⟩
            · exact hls l' (List.mem_cons_of_mem l hl')

theorem openLine_unlines {ls : List (List α)} {last : List α} (hlast : nl ∉ last) :
    openLine nl (unlines nl ls ++ last) = last := by
  have hall : ∀ c ∈ last.reverse, decide (c ≠ nl) = true := by
    intro c hc
    refine decide_eq_true fun heq => hlast ?_
    rw [← heq]
    exact List.mem_reverse.mp hc
  have hstop : ((unlines nl ls).reverse).takeWhile (· ≠ nl) = [] := by
    cases ls using List.reverseRecOn with
    | nil => rfl
    | append_singleton ls l =>
        rw [unlines_concat, List.reverse_concat, List.takeWhile_cons_of_neg (by simp)]
  rw [openLine, List.reverse_append, List.takeWhile_append_of_pos hall, hstop,
    List.append_nil, List.reverse_reverse]

end Nawam
