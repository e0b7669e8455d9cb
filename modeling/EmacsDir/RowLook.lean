import EmacsDir.TableLoop
import Mathlib.Data.List.Chain
import Mathlib.Data.List.Infix

/-!
# Which characters a pass looks at

`Passed word u c` says, of the text alone, that a pass that has read `u` from the start of its row goes over the
character `c` unseen: `c` is the first character, or some blank behind the first character has no end of a word
between it and `c`.  For that blank, or an earlier one after the last end of a word, started a `forward-word` that is
still going on.  `step_of_passed` and `step_of_not_passed` say that this is what the transducer does.
-/

namespace EmacsDir

open Transducer

/-- No word ends inside `u`: a word constituent is followed by a word constituent. -/
def NoWordEnd (word : Char → Bool) (u : List Char) : Prop :=
  u.IsChain fun a b => word a = true → word b = true

instance (word : Char → Bool) (u : List Char) : Decidable (NoWordEnd word u) := by
  unfold NoWordEnd
  infer_instance

/-- The text `u` contains a blank, behind its first character, after which no word ends. -/
def Jumps (word : Char → Bool) (u : List Char) : Prop :=
  ∃ x g y, u = x ++ g :: y ∧ x ≠ [] ∧ isBlank g = true ∧ NoWordEnd word (g :: y)

/-- A pass that has read `u` goes over `c` unseen. -/
def Passed (word : Char → Bool) (u : List Char) (c : Char) : Prop :=
  u = [] ∨ ∃ x g y, u = x ++ g :: y ∧ x ≠ [] ∧ isBlank g = true ∧ NoWordEnd word (g :: y ++ [c])

/-- The places of a letter in a word with one more letter at the end. -/
theorem forall_split_concat {α : Type} {P : List α → Prop} {l : List α} {a c : α} :
    (∀ u v, l ++ [c] = u ++ a :: v → P u) ↔ (∀ u v, l = u ++ a :: v → P u) ∧ (c = a → P l) := by
  constructor
  · intro h
    refine ⟨fun u v he => h u (v ++ [c]) (by rw [he]; simp), ?_⟩
    rintro rfl
    exact h l [] rfl
  · rintro ⟨h, hc⟩ u v he
    rcases List.eq_nil_or_concat v with rfl | ⟨v, d, rfl⟩
    · obtain ⟨rfl, hd⟩ := List.append_inj' he rfl
      exact hc (by simpa using hd)
    · rw [List.concat_eq_append, ← List.cons_append, ← List.append_assoc] at he
      obtain ⟨he', -⟩ := List.append_inj' he rfl
      exact h u v he'

section Passed

variable {word : Char → Bool}

theorem noWordEnd_concat {u : List Char} {c : Char} :
    NoWordEnd word (u ++ [c]) ↔ NoWordEnd word u ∧ ∀ a ∈ u.getLast?, word a = true → word c = true := by
  unfold NoWordEnd
  rw [List.isChain_append]
  simp

theorem jumps_concat {u : List Char} {c : Char} :
    Jumps word (u ++ [c]) ↔ (Jumps word u ∧ ∀ a ∈ u.getLast?, word a = true → word c = true) ∨
      (u ≠ [] ∧ isBlank c = true) := by
  constructor
  · rintro ⟨x, g, y, he, hx, hg, hy⟩
    rcases List.eq_nil_or_concat y with rfl | ⟨y, d, rfl⟩
    · obtain ⟨rfl, hc⟩ := List.append_inj' he rfl
      obtain rfl : c = g := by simpa using hc
      exact Or.inr ⟨hx, hg⟩
    · rw [List.concat_eq_append, ← List.cons_append, ← List.append_assoc] at he
      obtain ⟨rfl, hc⟩ := List.append_inj' he rfl
      obtain rfl : c = d := by simpa using hc
      rw [List.concat_eq_append, ← List.cons_append, noWordEnd_concat] at hy
      refine Or.inl ⟨⟨x, g, y, rfl, hx, hg, hy.1⟩, ?_⟩
      rw [List.getLast?_append_of_ne_nil _ (by simp)]
      exact hy.2
  · rintro (⟨⟨x, g, y, rfl, hx, hg, hy⟩, hc⟩ | ⟨hu, hc⟩)
    · refine ⟨x, g, y ++ [c], by simp, hx, hg, ?_⟩
      rw [List.getLast?_append_of_ne_nil _ (by simp)] at hc
      exact noWordEnd_concat.2 ⟨hy, hc⟩
    · exact ⟨u, c, [], rfl, hu, hc, List.isChain_singleton c⟩

theorem passed_iff {u : List Char} {c : Char} :
    Passed word u c ↔ u = [] ∨ (Jumps word u ∧ ∀ a ∈ u.getLast?, word a = true → word c = true) := by
  unfold Passed Jumps
  constructor
  · rintro (rfl | ⟨x, g, y, rfl, hx, hg, hy⟩)
    · exact Or.inl rfl
    · rw [noWordEnd_concat] at hy
      refine Or.inr ⟨⟨x, g, y, rfl, hx, hg, hy.1⟩, ?_⟩
      rw [List.getLast?_append_of_ne_nil _ (by simp)]
      exact hy.2
  · rintro (rfl | ⟨⟨x, g, y, rfl, hx, hg, hy⟩, hc⟩)
    · exact Or.inl rfl
    · rw [List.getLast?_append_of_ne_nil _ (by simp)] at hc
      exact Or.inr ⟨x, g, y, rfl, hx, hg, noWordEnd_concat.2 ⟨hy, hc⟩⟩

/-- What the mode says about the text read so far. -/
def Mode.Describes (word : Char → Bool) (q : Mode) (u : List Char) : Prop :=
  match q with
  | .start => u = []
  | .landed => u ≠ [] ∧ ¬ Jumps word u
  | .scanning => u ≠ [] ∧ ¬ Jumps word u
  | .skipping => Jumps word u ∧ ∀ a ∈ u.getLast?, word a = false
  | .inWord => Jumps word u ∧ ∀ a ∈ u.getLast?, word a = true

private theorem getLast?_jumps {u : List Char} (h : Jumps word u) : ∃ a, u.getLast? = some a := by
  obtain ⟨x, g, y, rfl, -⟩ := h
  exact ⟨_, List.getLast?_eq_some_getLast (by simp)⟩

private theorem describes_of_lookStep {u o : List Char} {c : Char} {q : Mode} (hu : u ≠ [])
    (hj : ¬ (Jumps word u ∧ ∀ a ∈ u.getLast?, word a = true → word c = true))
    (h : lookStep word c = some (o, q)) : q.Describes word (u ++ [c]) := by
  by_cases hb : isBlank c = true
  · rw [lookStep_blank hb] at h
    have hjump : Jumps word (u ++ [c]) := jumps_concat.2 (Or.inr ⟨hu, hb⟩)
    cases hw : word c <;> simp only [jumpMode, hw] at h <;> cases h
    · exact ⟨hjump, by simpa using hw⟩
    · exact ⟨hjump, by simpa using hw⟩
  · have hjump : ¬ Jumps word (u ++ [c]) := by
      rw [jumps_concat]
      rintro (h' | h')
      · exact hj h'
      · exact hb h'.2
    rcases lookStep_cases h with ⟨hb', -⟩ | ⟨-, -, rfl⟩ | ⟨-, -, -, rfl⟩
    · exact absurd hb' hb
    · exact ⟨by simp, hjump⟩
    · exact ⟨by simp, hjump⟩

/-- After reading a text from the start of the row, the mode describes it. -/
theorem describes_of_read {u o : List Char} {q : Mode} (h : (rowScan word).read .start u = some (o, q)) :
    q.Describes word u := by
  induction u using List.reverseRecOn generalizing o q with
  | nil => cases h; rfl
  | append_singleton u c ih =>
    obtain ⟨o₁, q₁, o₂, h₁, h₂, rfl⟩ := read_concat h
    have hd := ih h₁
    cases q₁ with
    | start =>
      -- the first character never starts a `forward-word`
      obtain rfl : u = [] := hd
      cases h₂
      refine ⟨by simp, ?_⟩
      rw [jumps_concat]
      rintro (⟨⟨x, g, y, he, -⟩, -⟩ | ⟨h', -⟩)
      · cases x <;> cases he
      · exact h' rfl
    | landed => exact describes_of_lookStep hd.1 (fun h' => hd.2 h'.1) h₂
    | scanning => exact describes_of_lookStep hd.1 (fun h' => hd.2 h'.1) h₂
    | skipping =>
      have hjump : Jumps word (u ++ [c]) := by
        refine jumps_concat.2 (Or.inl ⟨hd.1, ?_⟩)
        intro a ha hw
        rw [hd.2 a ha] at hw
        cases hw
      cases hw : word c <;> simp only [rowScan_skipping, jumpMode, hw] at h₂ <;> cases h₂
      · exact ⟨hjump, by simpa using hw⟩
      · exact ⟨hjump, by simpa using hw⟩
    | inWord =>
      rw [rowScan_inWord] at h₂
      split at h₂
      · rename_i hw
        cases h₂
        exact ⟨jumps_concat.2 (Or.inl ⟨hd.1, fun _ _ _ => hw⟩), by simpa using hw⟩
      · -- the word ends here, so `c` is looked at
        rename_i hw
        obtain ⟨a, ha⟩ := getLast?_jumps hd.1
        refine describes_of_lookStep (by rintro rfl; cases ha) ?_ h₂
        rintro ⟨-, h'⟩
        exact hw (h' a ha (hd.2 a ha))

theorem step_of_passed {u o : List Char} {q : Mode} {c : Char} (h : (rowScan word).read .start u = some (o, q))
    (hp : Passed word u c) : ∃ q', (rowScan word).step q c = some ([c], q') ∧ q' ≠ .scanning := by
  have hjump : jumpMode word c ≠ .scanning := by unfold jumpMode; split <;> simp
  have hd := describes_of_read h
  rw [passed_iff] at hp
  cases q with
  | start => exact ⟨_, rfl, by simp⟩
  | landed =>
    rcases hp with hp | hp
    · exact absurd hp hd.1
    · exact absurd hp.1 hd.2
  | scanning =>
    rcases hp with hp | hp
    · exact absurd hp hd.1
    · exact absurd hp.1 hd.2
  | skipping => exact ⟨_, rfl, hjump⟩
  | inWord =>
    obtain ⟨a, ha⟩ := getLast?_jumps hd.1
    rcases hp with rfl | hp
    · cases ha
    · have hw := hp.2 a ha (hd.2 a ha)
      exact ⟨.inWord, by rw [rowScan_inWord, hw]; rfl, by simp⟩

theorem step_of_not_passed {u o : List Char} {q : Mode} {c : Char}
    (h : (rowScan word).read .start u = some (o, q)) (hp : ¬ Passed word u c) :
    (rowScan word).step q c = lookStep word c := by
  have hd := describes_of_read h
  rw [passed_iff, not_or] at hp
  cases q with
  | start => exact absurd hd hp.1
  | landed => rfl
  | scanning => rfl
  | skipping =>
    refine absurd ⟨hd.1, ?_⟩ hp.2
    intro a ha hw
    rw [hd.2 a ha] at hw
    cases hw
  | inWord =>
    have hw : ¬ word c = true := fun hw => hp.2 ⟨hd.1, fun _ _ _ => hw⟩
    rw [rowScan_inWord]
    simp [hw]

/-- What a pass that has read `u` does with the next character. -/
theorem step_cases {u o o' : List Char} {q q' : Mode} {c : Char}
    (h : (rowScan word).read .start u = some (o, q)) (hs : (rowScan word).step q c = some (o', q')) :
    (Passed word u c ∧ o' = [c] ∧ q' ≠ .scanning) ∨
    (¬ Passed word u c ∧ isBlank c = true ∧ o' = ['&', c] ∧ q' = jumpMode word c) ∨
    (¬ Passed word u c ∧ c = '%' ∧ o' = ['\\', '%'] ∧ q' = .scanning) ∨
    (¬ Passed word u c ∧ isBlank c = false ∧ c ≠ '%' ∧ o' = [c] ∧ q' = .scanning) := by
  by_cases hp : Passed word u c
  · obtain ⟨_, hq, hne⟩ := step_of_passed h hp
    rw [hs] at hq
    cases hq
    exact Or.inl ⟨hp, rfl, hne⟩
  · rw [step_of_not_passed h hp] at hs
    rcases lookStep_cases hs with h' | h' | h'
    · exact Or.inr (Or.inl ⟨hp, h'⟩)
    · exact Or.inr (Or.inr (Or.inl ⟨hp, h'⟩))
    · exact Or.inr (Or.inr (Or.inr ⟨hp, h'⟩))

/-- A pass stops at a newline exactly when it looks at it. -/
theorem step_newline_eq_none {u o : List Char} {q : Mode} (h : (rowScan word).read .start u = some (o, q)) :
    (rowScan word).step q '\n' = none ↔ ¬ Passed word u '\n' := by
  constructor
  · intro hs hp
    obtain ⟨q', hq', -⟩ := step_of_passed h hp
    rw [hs] at hq'
    cases hq'
  · intro hp
    rw [step_of_not_passed h hp, lookStep_newline]

end Passed

/-- A blank behind the first character is a suffix of the tail. -/
private theorem passed_iff_tails {word : Char → Bool} {u : List Char} {c : Char} :
    (u = [] ∨ ∃ t ∈ u.tail.tails, t.head?.any isBlank = true ∧ NoWordEnd word (t ++ [c])) ↔ Passed word u c := by
  unfold Passed
  refine or_congr_right ⟨?_, ?_⟩
  · rintro ⟨t, ht, hg, hy⟩
    rw [List.mem_tails] at ht
    obtain ⟨x, hx⟩ := ht
    cases t with
    | nil => cases hg
    | cons g y =>
      cases u with
      | nil => simp at hx
      | cons d u =>
        rw [List.tail_cons] at hx
        exact ⟨d :: x, g, y, by rw [← hx]; rfl, by simp, hg, hy⟩
  · rintro ⟨x, g, y, rfl, hx, hg, hy⟩
    cases x with
    | nil => exact absurd rfl hx
    | cons d x => exact ⟨g :: y, List.mem_tails _ _ |>.2 ⟨x, rfl⟩, hg, hy⟩

instance (word : Char → Bool) (u : List Char) (c : Char) : Decidable (Passed word u c) :=
  decidable_of_iff _ passed_iff_tails

end EmacsDir
