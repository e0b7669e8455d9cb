import EmacsDir.LineRun
import Mathlib.Logic.Relation

/-!
# What lies outside the region

A region of whole lines is followed by text that the command should leave alone.  A pass ends with the first newline
that it looks at, and it inserts one character for each blank and each `%` that it looks at, and two for the row
terminator.  So where the passes begin, and whether one of them runs over the last newline of the region, is
determined by the text: `RowStep` goes from the beginning of one pass to the beginning of the next.
-/

namespace EmacsDir

open Transducer

/-- The pass over a text that starts with `u` and a newline ends with this newline. -/
def EndsRow (word : Char → Bool) (u : List Char) : Prop :=
  ¬ Passed word u '\n' ∧ ∀ x y, u = x ++ '\n' :: y → Passed word x '\n'

/-- The pass over `w` runs to the end of the buffer, and its last character is looked at and is no blank. -/
def ScansOut (word : Char → Bool) (w : List Char) : Prop :=
  (∀ x y, w = x ++ '\n' :: y → Passed word x '\n') ∧ ∃ u c, w = u ++ [c] ∧ ¬ Passed word u c ∧ isBlank c = false

/-- The number of characters inserted for `c` behind `u`. -/
def mark (word : Char → Bool) (u : List Char) (c : Char) : Nat :=
  if ¬ Passed word u c ∧ (isBlank c = true ∨ c = '%') then 1 else 0

/-- The number of characters inserted for the characters of `v` behind `u`. -/
def marks (word : Char → Bool) : List Char → List Char → Nat
  | _, [] => 0
  | u, c :: v => mark word u c + marks word (u ++ [c]) v

/-- The beginning of a pass: the original text that is left, how many of its characters belong to the region, and
how many characters have been inserted before. -/
structure RowStart where
  rest : List Char
  inside : Nat
  inserted : Nat

/-- From one pass to the next: the loop goes on while fewer characters have been inserted than are left. -/
inductive RowStep (word : Char → Bool) : RowStart → RowStart → Prop
  | row {u v : List Char} {n a : Nat} : a < n → EndsRow word u →
      RowStep word ⟨u ++ '\n' :: v, n, a⟩ ⟨v, n - (u.length + 1), a + marks word [] u + 2⟩

/-- The pass ends with a newline of the region, or it signals. -/
def RowStart.Safe (word : Char → Bool) (s : RowStart) : Prop :=
  (∃ u v, s.rest = u ++ '\n' :: v ∧ u.length < s.inside ∧ EndsRow word u) ∨ ScansOut word s.rest

/-- Every pass that begins is safe. -/
def SafeFrom (word : Char → Bool) (s : RowStart) : Prop :=
  ∀ t, Relation.ReflTransGen (RowStep word) s t → t.inserted < t.inside → t.Safe word

section Pass

variable {word : Char → Bool}

theorem marks_concat (u v : List Char) (c : Char) :
    marks word u (v ++ [c]) = marks word u v + mark word (u ++ v) c := by
  induction v generalizing u with
  | nil => simp [marks]
  | cons d v ih =>
    rw [List.cons_append, marks, marks, ih]
    simp [Nat.add_assoc]

theorem exists_read_iff {u : List Char} :
    (∃ o q, (rowScan word).read .start u = some (o, q)) ↔ ∀ x y, u = x ++ '\n' :: y → Passed word x '\n' := by
  constructor
  · rintro ⟨o, q, h⟩ x y rfl
    obtain ⟨o₁, q₁, _, h₁, h₂, -⟩ := read_append_iff.1 h
    obtain ⟨o₂, q₂, _, hs, -⟩ := read_cons_iff.1 h₂
    by_contra hp
    rw [(step_newline_eq_none h₁).2 hp] at hs
    cases hs
  · intro h
    cases hr : (rowScan word).read .start u with
    | some r => exact ⟨_, _, rfl⟩
    | none =>
      obtain ⟨x, c, y, o, q, rfl, hx, hs⟩ := read_eq_none hr
      obtain rfl := rowScan_step_eq_none hs
      exact absurd (h x y rfl) ((step_newline_eq_none hx).1 hs)

theorem endsRow_iff {u : List Char} :
    EndsRow word u ↔
      ∃ o q, (rowScan word).read .start u = some (o, q) ∧ (rowScan word).step q '\n' = none := by
  unfold EndsRow
  rw [← exists_read_iff]
  constructor
  · rintro ⟨hp, o, q, h⟩
    exact ⟨o, q, h, (step_newline_eq_none h).2 hp⟩
  · rintro ⟨o, q, h, hs⟩
    exact ⟨(step_newline_eq_none h).1 hs, o, q, h⟩

/-- At most one newline ends the pass. -/
theorem EndsRow.unique {u u' v v' : List Char} (h : EndsRow word u) (h' : EndsRow word u')
    (he : u ++ '\n' :: v = u' ++ '\n' :: v') : u = u' ∧ v = v' := by
  rcases List.append_eq_append_iff.1 he with ⟨x, rfl, hx⟩ | ⟨x, rfl, hx⟩
  · cases x with
    | nil => exact ⟨by simp, (List.cons.inj hx).2⟩
    | cons c x =>
      -- the longer text would have passed the newline that the shorter one ends with
      obtain ⟨rfl, rfl⟩ := List.cons.inj hx
      exact absurd (h'.2 u x rfl) h.1
  · cases x with
    | nil => exact ⟨by simp, (List.cons.inj hx).2.symm⟩
    | cons c x =>
      obtain ⟨rfl, rfl⟩ := List.cons.inj hx
      exact absurd (h.2 u' x rfl) h'.1

theorem length_out {u o : List Char} {q : Mode} (h : (rowScan word).read .start u = some (o, q)) :
    o.length = u.length + marks word [] u := by
  induction u using List.reverseRecOn generalizing o q with
  | nil => cases h; rfl
  | append_singleton u c ih =>
    obtain ⟨o₁, q₁, o₂, h₁, h₂, rfl⟩ := read_concat h
    have ho := ih h₁
    have hc : o₂.length = 1 + mark word u c := by
      unfold mark
      rcases step_cases h₁ h₂ with ⟨hp, rfl, -⟩ | ⟨hp, hb, rfl, -⟩ | ⟨hp, rfl, rfl, -⟩ | ⟨hp, hb, hc, rfl, -⟩
      · simp [hp]
      · simp [hp, hb]
      · simp [hp]
      · simp [hb, hc]
    rw [marks_concat, List.nil_append]
    simp only [List.length_append, List.length_cons, List.length_nil]
    omega

theorem scansOut_iff {w : List Char} (hw : w ≠ []) :
    ScansOut word w ↔ ∃ o q e, (rowScan word).read .start w = some (o, q) ∧ rowExit q [] = .error e := by
  have hlast : ∀ {o q}, (rowScan word).read .start w = some (o, q) →
      ((∃ u c, w = u ++ [c] ∧ ¬ Passed word u c ∧ isBlank c = false) ↔ ∃ e, rowExit q [] = .error e) := by
    intro o q h
    obtain ⟨u, c, rfl⟩ := (List.eq_nil_or_concat w).resolve_left hw
    rw [List.concat_eq_append] at h ⊢
    obtain ⟨o₁, q₁, o₂, h₁, h₂, -⟩ := read_concat h
    have hconcat : (∃ u' c', u ++ [c] = u' ++ [c'] ∧ ¬ Passed word u' c' ∧ isBlank c' = false) ↔
        ¬ Passed word u c ∧ isBlank c = false := by
      constructor
      · rintro ⟨u', c', he, hp⟩
        obtain ⟨rfl, hc⟩ := List.append_inj' he rfl
        obtain rfl : c = c' := by simpa using hc
        exact hp
      · exact fun hp => ⟨u, c, rfl, hp⟩
    have hexit : (∃ e, rowExit q [] = .error e) ↔ q = .scanning := by
      have hd := describes_of_read h
      cases q with
      | start => simp [Mode.Describes] at hd
      | landed => simp [rowExit]
      | scanning => simp [rowExit]
      | skipping => simp [rowExit]
      | inWord => simp [rowExit]
    rw [hconcat, hexit]
    rcases step_cases h₁ h₂ with ⟨hp, -, hq⟩ | ⟨-, hb, -, rfl⟩ | ⟨hp, rfl, -, rfl⟩ | ⟨hp, hb, -, -, rfl⟩
    · simp [hp, hq]
    · simp only [hb, jumpMode]
      split <;> simp
    · simp [hp]; rfl
    · simp [hp, hb]
  unfold ScansOut
  rw [← exists_read_iff]
  constructor
  · rintro ⟨⟨o, q, h⟩, hc⟩
    obtain ⟨e, he⟩ := (hlast h).1 hc
    exact ⟨o, q, e, h, he⟩
  · rintro ⟨o, q, e, h, he⟩
    exact ⟨⟨o, q, h⟩, (hlast h).2 ⟨e, he⟩⟩

end Pass

section Frame

variable {word : Char → Bool}

theorem SafeFrom.of_le {s : RowStart} (h : s.inside ≤ s.inserted) : SafeFrom word s := by
  intro t ht hlt
  rcases Relation.ReflTransGen.cases_head ht with rfl | ⟨_, hs, -⟩
  · omega
  · cases hs with
    | row ha _ => exact absurd ha (by simpa using h)

/-- A pass that ends with a newline of the region hands on to the next one. -/
theorem safeFrom_iff_of_endsRow {u v : List Char} {n a : Nat} (ha : a < n) (hu : EndsRow word u)
    (hn : u.length < n) :
    SafeFrom word ⟨u ++ '\n' :: v, n, a⟩ ↔ SafeFrom word ⟨v, n - (u.length + 1), a + marks word [] u + 2⟩ := by
  constructor
  · intro h t ht
    exact h t (.head (.row ha hu) ht)
  · intro h t ht hlt
    rcases Relation.ReflTransGen.cases_head ht with rfl | ⟨t', hs, ht'⟩
    · exact Or.inl ⟨u, v, rfl, hn, hu⟩
    · generalize hw : u ++ '\n' :: v = w at hs
      cases hs with
      | row _ hu' =>
        obtain ⟨rfl, rfl⟩ := hu.unique hu' hw
        exact h t ht' hlt

/-- A pass that runs over the last newline of the region and ends behind it is not safe. -/
theorem not_safeFrom {u v : List Char} {n a : Nat} (ha : a < n) (hu : EndsRow word u) (hn : n ≤ u.length) :
    ¬ SafeFrom word ⟨u ++ '\n' :: v, n, a⟩ := by
  intro h
  rcases h _ .refl ha with ⟨u', v', he, hlt, hu'⟩ | hs
  · obtain ⟨rfl, -⟩ := hu.unique hu' he
    exact absurd hlt (Nat.not_lt.2 hn)
  · exact hu.1 (hs.1 u v rfl)

/-- A pass that reads all the text is the last one. -/
theorem safeFrom_iff_of_read {w o : List Char} {q : Mode} {n a : Nat} (ha : a < n)
    (h : (rowScan word).read .start w = some (o, q)) : SafeFrom word ⟨w, n, a⟩ ↔ ScansOut word w := by
  have hpassed := exists_read_iff.1 ⟨o, q, h⟩
  constructor
  · intro hs
    rcases hs _ .refl ha with ⟨u, v, hw, -, hu⟩ | hs
    · exact absurd (hpassed u v hw) hu.1
    · exact hs
  · intro hs t ht hlt
    rcases Relation.ReflTransGen.cases_head ht with rfl | ⟨_, hs', -⟩
    · exact Or.inr hs
    · cases hs' with
      | row _ hu => exact absurd (hpassed _ _ rfl) hu.1

/-- The text outside the region is as before, and the region still consists of whole lines. -/
def Framed (pre post text : List Char) : Prop :=
  ∃ region, text = pre ++ region ++ post ∧ region.getLast? = some '\n'

/-- A text that ends with more characters than `post`, but no more newlines, is not framed. -/
private theorem not_framed {pre post X Y : List Char} (hlen : post.length < Y.length)
    (hcount : Y.count '\n' = post.count '\n') : ¬ Framed pre post (X ++ Y) := by
  rintro ⟨region, he, hlast⟩
  rw [List.append_eq_append_iff] at he
  obtain ⟨z, hz, rfl⟩ | ⟨z, -, rfl⟩ := he
  · -- the characters `z` of the region that would belong to `Y` end with a newline of their own
    have hcz : z.count '\n' = 0 := by
      rw [List.count_append] at hcount
      omega
    have hzl : 0 < z.length := by
      rw [List.length_append] at hlen
      omega
    obtain ⟨z', c, rfl⟩ := (List.eq_nil_or_concat z).resolve_left (List.length_pos_iff.1 hzl)
    have hc : (pre ++ region).getLast? = some '\n' := by
      rw [List.getLast?_append, hlast]
      rfl
    rw [hz, List.concat_eq_append, ← List.append_assoc, List.getLast?_concat] at hc
    obtain rfl : c = '\n' := by simpa using hc
    simp at hcz
  · rw [List.length_append] at hlen
    omega

/-- A pass that reads over the end of the region and then inserts the row terminator. -/
private theorem not_framed_of_read (pre p : List Char) {wr y z t o : List Char} {q : Mode}
    (h : (rowScan word).read .start (wr ++ y) = some (o, q)) (hlen : z.length < t.length)
    (hcount : t.count '\n' = z.count '\n') : ¬ Framed pre (y ++ z) (p ++ o ++ t) := by
  obtain ⟨o₁, q₁, o₂, -, h₂, rfl⟩ := read_append_iff.1 h
  have hl := length_le_out h₂
  have hc := count_newline_out h₂
  rw [show p ++ (o₁ ++ o₂) ++ t = (p ++ o₁) ++ (o₂ ++ t) by simp]
  apply not_framed
  · simp only [List.length_append]; omega
  · simp only [List.count_append]; omega

/-- A letter of a concatenation is in the first part or in the second. -/
private theorem append_eq_append_cons {α : Type} {s t u v : List α} {c : α} (h : s ++ t = u ++ c :: v) :
    (∃ x, s = u ++ c :: x ∧ v = x ++ t) ∨ ∃ y, u = s ++ y ∧ t = y ++ c :: v := by
  rcases List.append_eq_append_iff.1 h with ⟨y, hu, ht⟩ | ⟨x, hs, hx⟩
  · exact Or.inr ⟨y, hu, ht⟩
  · cases x with
    | nil => exact Or.inr ⟨[], by simp [hs], hx.symm⟩
    | cons d x =>
      obtain ⟨rfl, hv⟩ := List.cons.inj hx
      exact Or.inl ⟨x, hs, hv⟩

/-- The run of the outer loop from a line of the region leaves the text outside the region as it was exactly when
the passes are safe. -/
theorem tableRuns_framed_iff {pre R wr post : List Char} {bottom a k : Nat} {b : Buffer}
    {r : Except Signal Nat × Buffer} (h : TableRuns word bottom k b r) (hb : b = ⟨pre ++ R, wr ++ post⟩)
    (hk : k = (pre ++ R).length + 1) (hbottom : bottom + a = k + wr.length)
    (hlast : (R ++ wr).getLast? = some '\n') :
    (∀ k', r.1 = .ok k' → Framed pre post r.2.text) ↔ SafeFrom word ⟨wr ++ post, wr.length, a⟩ := by
  induction h generalizing R wr a with
  | @done k b ht =>
    subst hb
    simp only [decide_eq_false_iff_not] at ht
    have hle : wr.length ≤ a := by omega
    refine iff_of_true ?_ (.of_le hle)
    intro k' _
    exact ⟨R ++ wr, by simp [Buffer.text], hlast⟩
  | @signal k b b' e ht hpass =>
    subst hb
    have ha : a < wr.length := by simp only [decide_eq_true_eq] at ht; omega
    have hne : wr ++ post ≠ [] := by rintro h; simp [(List.append_eq_nil_iff.1 h).1] at ha
    rcases rowPass_cases word (pre ++ R) (wr ++ post) with
      ⟨_, _, _, _, _, _, _, hp⟩ | ⟨_, _, _, _, hp⟩ | ⟨o, q, e', hr, he, hp⟩
    · rw [hp] at hpass; cases hpass
    · rw [hp] at hpass; cases hpass
    · refine iff_of_true ?_ ((safeFrom_iff_of_read ha hr).2 ((scansOut_iff hne).2 ⟨o, q, e', hr, he⟩))
      intro k' hk'
      cases hk'
  | @round k k' b b' r ht hpass hrun ih =>
    subst hb
    have ha : a < wr.length := by simp only [decide_eq_true_eq] at ht; omega
    have hlastPass : bottom ≤ k' → r = (.ok k', b') := by
      intro hle
      exact hrun.deterministic (.done (by simpa using hle))
    rcases rowPass_cases word (pre ++ R) (wr ++ post) with
      ⟨u, v, o, q, hw, hr, hs, hp⟩ | ⟨o, q, hr, hq, hp⟩ | ⟨_, _, _, _, _, hp⟩
    · rw [hp] at hpass
      cases hpass
      have hu : EndsRow word u := endsRow_iff.2 ⟨o, q, hr, hs⟩
      have hout := length_out hr
      rcases append_eq_append_cons hw with ⟨wr', rfl, rfl⟩ | ⟨y, rfl, rfl⟩
      · -- the pass has ended with a newline of the region
        have hlen : (u ++ '\n' :: wr').length = u.length + 1 + wr'.length := by simp; omega
        have hsub : (u ++ '\n' :: wr').length - (u.length + 1) = wr'.length := by omega
        rw [hw, safeFrom_iff_of_endsRow ha hu (by omega), hsub]
        refine ih (R := R ++ o ++ ['\\', '\\', '\n']) ?_ ?_ ?_ ?_
        · simp
        · simp
          omega
        · rw [List.length_append] at hk ⊢
          omega
        · rw [← hlast]
          simp [List.getLast?_append, List.getLast?_cons]
      · -- the pass has run over the end of the region
        have hlen : wr.length ≤ (wr ++ y).length := by simp
        obtain rfl := hlastPass (by omega)
        rw [hw]
        refine iff_of_false ?_ (not_safeFrom ha hu hlen)
        intro hframed
        have htext := hframed _ rfl
        rw [show (⟨pre ++ R ++ o ++ ['\\', '\\', '\n'], v⟩ : Buffer).text =
          pre ++ R ++ o ++ (['\\', '\\', '\n'] ++ v) by simp [Buffer.text]] at htext
        exact not_framed_of_read pre (pre ++ R) hr (by simp) (by simp) htext
    · have hne : wr ++ post ≠ [] := by rintro h; simp [(List.append_eq_nil_iff.1 h).1] at ha
      rw [hp] at hpass
      cases hpass
      have hout := length_out hr
      rw [List.length_append] at hout
      obtain rfl := hlastPass (by omega)
      rw [safeFrom_iff_of_read ha hr, scansOut_iff hne]
      refine iff_of_false ?_ ?_
      · intro hframed
        have htext := hframed _ rfl
        rw [show (⟨pre ++ R ++ o ++ ['\\', '\\'], []⟩ : Buffer).text =
          pre ++ R ++ o ++ ['\\', '\\'] by simp [Buffer.text]] at htext
        have hnot := not_framed_of_read pre (pre ++ R) (z := []) (t := ['\\', '\\']) hr (by simp) (by simp)
        rw [List.append_nil] at hnot
        exact hnot htext
      · rintro ⟨o', q', e, hr', he⟩
        rw [hr] at hr'
        cases hr'
        rw [hq] at he
        cases he
    · rw [hp] at hpass; cases hpass

/-- On a region of whole lines, a normal exit leaves the text before and behind the region as it was exactly when
every pass that begins ends with a newline of the region, or signals. -/
theorem formatToLatexTable_frame_iff (word : Char → Bool) (pre region post : List Char) (b : Buffer) (fuel : Nat)
    (hpre : Buffer.BeginsLine pre) (hregion : region.getLast? = some '\n') (hb : b.text = pre ++ region ++ post)
    (hf : b.text.length < fuel) :
    (∀ b', formatToLatexTable word fuel (pre.length + 1) ((pre ++ region).length + 1) b = some (.ok (), b') →
      Framed pre post b'.text) ↔ SafeFrom word ⟨region ++ post, region.length, 0⟩ := by
  obtain ⟨r, hr⟩ :=
    exists_tableRuns word ((pre ++ region).length + 1) (pre.length + 1) ⟨pre, region ++ post⟩
  have hcmd := formatToLatexTable_of_runs (by rw [hb, List.append_assoc]) hpre hf hr
  have hiff : (∀ k', r.1 = .ok k' → Framed pre post r.2.text) ↔
      SafeFrom word ⟨region ++ post, region.length, 0⟩ :=
    tableRuns_framed_iff (R := []) hr (by simp) (by simp) (by simp; omega) (by simpa using hregion)
  rw [← hiff, hcmd]
  rcases r with ⟨e | k, b'⟩
  · simp [Except.map]
  · simp [Except.map]

/-- A line whose last cell is a word is safe. -/
theorem formatToLatexTable_frame_word :
    ∃ b', formatToLatexTable Char.isAlphanum 20 1 5 ⟨[], ['a', ' ', 'b', '\n', 'c', '\n']⟩ = some (.ok (), b') ∧
      Framed [] ['c', '\n'] b'.text := by
  have hrow : EndsRow Char.isAlphanum ['a', ' ', 'b'] :=
    endsRow_iff.2 ⟨['a', '&', ' ', 'b'], .inWord, rfl, rfl⟩
  have hsafe : SafeFrom Char.isAlphanum ⟨['a', ' ', 'b'] ++ '\n' :: ['c', '\n'], 4, 0⟩ :=
    (safeFrom_iff_of_endsRow (by decide) hrow (by decide)).2 (.of_le (Nat.zero_le _))
  refine ⟨⟨['a', '&', ' ', 'b', '\\', '\\', '\n'], ['c', '\n']⟩, rfl, ?_⟩
  exact (formatToLatexTable_frame_iff Char.isAlphanum [] ['a', ' ', 'b', '\n'] ['c', '\n'] ⟨[], _⟩ 20 (Or.inl rfl) rfl
    rfl (by decide)).2 hsafe _ rfl

/-- A blank at the end of the line: the terminator lands in the line behind the region. -/
theorem formatToLatexTable_frame_trailing_blank :
    ¬ ∀ b', formatToLatexTable Char.isAlphanum 20 1 4 ⟨[], ['a', ' ', '\n', 'c', '\n']⟩ = some (.ok (), b') →
      Framed [] ['c', '\n'] b'.text := by
  have hrun : formatToLatexTable Char.isAlphanum 20 1 4 ⟨[], ['a', ' ', '\n', 'c', '\n']⟩ =
      some (.ok (), ⟨['a', '&', ' ', '\n', 'c', '\\', '\\', '\n'], []⟩) := by rfl
  rw [hrun]
  intro h
  obtain ⟨region, he, -⟩ := h _ rfl
  have hlast := congrArg (fun l : List Char => l.reverse.take 2) he
  simp [Buffer.text] at hlast

end Frame

end EmacsDir
