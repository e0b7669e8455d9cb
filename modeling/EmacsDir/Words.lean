import Mathlib.Data.List.Nodup
import Mathlib.Data.List.Infix

/-!
# Words

The words of a length over an alphabet, in the order of the letters, and what is left of them when a prefix has been
typed.  In that order the words with a common prefix follow each other (`blocks_words`).
-/

namespace Words

variable {α : Type} {L : List (List α)} {letters p l : List α} {a c : α}

/-- The words of a length. -/
def words (letters : List α) : Nat → List (List α)
  | 0 => [[]]
  | n + 1 => letters.flatMap fun a => (words letters n).map (a :: ·)

/-- The words with a common prefix follow each other. -/
def Blocks (L : List (List α)) : Prop :=
  ∀ p, ∃ u v w, L = u ++ v ++ w ∧ (∀ l ∈ v, p <+: l) ∧ ∀ l ∈ u ++ w, ¬ p <+: l

theorem words_one (letters : List α) : words letters 1 = letters.map fun a => [a] := by
  show letters.flatMap (fun a => [[a]]) = _
  rw [List.map_eq_flatMap]

theorem words_two (letters : List α) : words letters 2 = letters.flatMap fun a => letters.map fun b => [a, b] := by
  show letters.flatMap (fun a => (words letters 1).map (a :: ·)) = _
  simp only [words_one, List.map_map, Function.comp_def]

theorem length_of_mem_words {n : Nat} (h : l ∈ words letters n) : l.length = n := by
  induction n generalizing l with
  | zero => rw [List.mem_singleton.1 h, List.length_nil]
  | succ n ih =>
    obtain ⟨a, -, hl⟩ := List.mem_flatMap.1 h
    obtain ⟨l', hl', rfl⟩ := List.mem_map.1 hl
    rw [List.length_cons, ih hl']

theorem mem_of_mem_words {n : Nat} (h : l ∈ words letters n) (ha : a ∈ l) : a ∈ letters := by
  induction n generalizing l with
  | zero =>
    rw [List.mem_singleton.1 h] at ha
    cases ha
  | succ n ih =>
    obtain ⟨b, hb, hl⟩ := List.mem_flatMap.1 h
    obtain ⟨l', hl', rfl⟩ := List.mem_map.1 hl
    rcases List.mem_cons.1 ha with rfl | ha
    · exact hb
    · exact ih hl' ha

theorem length_words_succ (letters : List α) (n : Nat) :
    (words letters (n + 1)).length = letters.length * (words letters n).length := by
  rw [words, List.length_flatMap]
  simp only [List.length_map]
  rw [List.map_const', List.sum_replicate_nat]

theorem nodup_words (h : letters.Nodup) (n : Nat) : (words letters n).Nodup := by
  induction n with
  | zero => exact List.nodup_singleton []
  | succ n ih =>
    unfold words
    rw [List.nodup_flatMap]
    constructor
    · intro a _
      exact ih.map fun l l' he => (List.cons.inj he).2
    · apply h.imp
      intro a b hne l hl hl'
      obtain ⟨k, -, rfl⟩ := List.mem_map.1 hl
      obtain ⟨k', -, he⟩ := List.mem_map.1 hl'
      exact hne (List.cons.inj he).1.symm

theorem blocks_words (h : letters.Nodup) (n : Nat) : Blocks (words letters n) := by
  induction n with
  | zero =>
    intro p
    by_cases hp : p = []
    · exact ⟨[], [[]], [], rfl, by simp [hp], by simp⟩
    · exact ⟨[[]], [], [], rfl, by simp, by simpa using hp⟩
  | succ n ih =>
    intro p
    cases p with
    | nil => exact ⟨[], words letters (n + 1), [], by simp, fun l _ => List.nil_prefix, by simp⟩
    | cons a p =>
      have hother : ∀ s : List α, a ∉ s → ∀ l ∈ s.flatMap fun b => (words letters n).map (b :: ·), ¬ a :: p <+: l := by
        intro s hs l hl hbegins
        obtain ⟨b, hb, hl⟩ := List.mem_flatMap.1 hl
        obtain ⟨k, -, rfl⟩ := List.mem_map.1 hl
        obtain ⟨rfl, -⟩ := List.cons_prefix_cons.1 hbegins
        exact hs hb
      by_cases ha : a ∈ letters
      · obtain ⟨s, t, hletters⟩ := List.append_of_mem ha
        obtain ⟨u, v, w, hsplit, hv, huw⟩ := ih p
        have hwords : words letters (n + 1) = (s.flatMap (fun b => (words letters n).map (b :: ·)) ++ u.map (a :: ·)) ++
            v.map (a :: ·) ++ (w.map (a :: ·) ++ t.flatMap fun b => (words letters n).map (b :: ·)) := by
          have hflat : words letters (n + 1) = (s ++ a :: t).flatMap fun b => (words letters n).map (b :: ·) := by
            rw [← hletters]
            rfl
          rw [hflat, List.flatMap_append, List.flatMap_cons]
          conv_lhs => enter [2, 1]; rw [hsplit]
          simp
        have hnot : a ∉ s ++ t := by
          rw [hletters, List.nodup_middle, List.nodup_cons] at h
          exact h.1
        refine ⟨_, _, _, hwords, ?_, ?_⟩
        · intro l hl
          obtain ⟨k, hk, rfl⟩ := List.mem_map.1 hl
          exact List.cons_prefix_cons.2 ⟨rfl, hv k hk⟩
        · intro l hl
          have hcases : l ∈ ((s ++ t).flatMap fun b => (words letters n).map (b :: ·)) ∨ l ∈ (u ++ w).map (a :: ·) := by
            simp only [List.flatMap_append, List.map_append, List.mem_append] at hl ⊢
            tauto
          rcases hcases with hl | hl
          · exact hother (s ++ t) hnot l hl
          · obtain ⟨k, hk, rfl⟩ := List.mem_map.1 hl
            exact fun hbegins => huw k hk (List.cons_prefix_cons.1 hbegins).2
      · refine ⟨words letters (n + 1), [], [], by simp, by simp, ?_⟩
        rw [List.append_nil]
        exact hother letters ha

theorem blocks_take (h : Blocks L) (n : Nat) : Blocks (L.take n) := by
  intro p
  obtain ⟨u, v, w, rfl, hv, huw⟩ := h p
  refine ⟨u.take n, v.take (n - u.length), w.take (n - (u ++ v).length), ?_, ?_, ?_⟩
  · rw [List.take_append, List.take_append]
  · exact fun l hl => hv l (List.mem_of_mem_take hl)
  · intro l hl
    apply huw l
    rw [List.mem_append] at hl ⊢
    exact hl.imp List.mem_of_mem_take List.mem_of_mem_take

section After

variable [DecidableEq α]

/-- What is left of a word after a prefix; nothing, if it has another prefix. -/
def after (p l : List α) : List α := if p <+: l then l.drop p.length else []

theorem after_append (p l : List α) : after p (p ++ l) = l := by
  unfold after
  rw [if_pos (List.prefix_append p l), List.drop_left]

theorem head?_after : (after p l).head? = some c ↔ p ++ [c] <+: l := by
  by_cases hp : p <+: l
  · obtain ⟨t, rfl⟩ := hp
    rw [after_append, List.prefix_append_right_inj]
    cases t with
    | nil => simp
    | cons b t => simp [List.cons_prefix_cons, eq_comm]
  · have hnot : ¬ p ++ [c] <+: l := fun h => hp ((List.prefix_append p [c]).trans h)
    unfold after
    rw [if_neg hp]
    simpa using hnot

theorem tail_after : (if p ++ [c] <+: l then after p l else []).tail = after (p ++ [c]) l := by
  by_cases hp : p ++ [c] <+: l
  · obtain ⟨t, rfl⟩ := hp
    rw [if_pos (List.prefix_append _ t), after_append, List.append_assoc, after_append]
    rfl
  · unfold after
    rw [if_neg hp, if_neg hp]
    rfl

end After

end Words
