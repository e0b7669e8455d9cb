/-!
# Regular expressions with priorities

Backtracking regular expressions over an arbitrary alphabet: repetition is of single letters, greedy or lazy, and
groups record what they matched.  `ends` lists the ends of the matches from a place in the order in which a
backtracking matcher tries them, so that its head is the match found.  `Matches` says what a match is without
priorities, and `mem_ends` is the agreement of the two.
-/

inductive Regexp (α : Type) : Type
  | empty
  | stringStart
  | behind (f : α → Bool)
  | stringEnd
  | char (f : α → Bool)
  | seq (r s : Regexp α)
  | alt (r s : Regexp α)
  | star (greedy : Bool) (f : α → Bool)
  | group (n : Nat) (r : Regexp α)

namespace Regexp

variable {α : Type}

/-- A place in a text, with the groups matched on the way to it. -/
structure Cursor (α : Type) where
  before : List α
  after : List α
  groups : List (Nat × List α)
  deriving DecidableEq, Repr

/-- The place `n` letters further. -/
def Cursor.forward (c : Cursor α) (n : Nat) : Cursor α := ⟨c.before ++ c.after.take n, c.after.drop n, c.groups⟩

/-- The ends of the matches from a place, the preferred one first. -/
def ends : Regexp α → Cursor α → List (Cursor α)
  | empty, c => [c]
  | stringStart, c => if c.before.isEmpty then [c] else []
  | behind f, c => if c.before.getLast?.all f then [c] else []
  | stringEnd, c => if c.after.isEmpty then [c] else []
  | char f, c => if c.after.head?.any f then [c.forward 1] else []
  | seq r s, c => (ends r c).flatMap (ends s)
  | alt r s, c => ends r c ++ ends s c
  | star greedy f, c =>
    let lengths := List.range ((c.after.takeWhile f).length + 1)
    (if greedy then lengths.reverse else lengths).map c.forward
  | group n r, c => (ends r c).map fun d => { d with groups := (n, d.before.drop c.before.length) :: d.groups }

/-- A match of a text: what is before it, the matched text, what is after it, and the groups. -/
structure Match (α : Type) where
  before : List α
  text : List α
  after : List α
  groups : List (Nat × List α)

/-- The text of a group. -/
def Match.group (m : Match α) (n : Nat) : Option (List α) := m.groups.lookup n

/-- Search forward from a place. -/
def searchFrom (r : Regexp α) : List α → List α → Option (Match α)
  | b, v =>
    match ends r ⟨b, v, []⟩ with
    | c :: _ => some ⟨b, c.before.drop b.length, c.after, c.groups⟩
    | [] =>
      match v with
      | [] => none
      | a :: v => searchFrom r (b ++ [a]) v

def search (r : Regexp α) (text : List α) : Option (Match α) := searchFrom r [] text

/-- Replace the matches behind `b` from left to right; `skip` letters belong to the last match.  Matches of the empty
text are left alone. -/
def replaceFrom (r : Regexp α) (rep : List α) : List α → List α → Nat → List α
  | _, [], _ => []
  | b, a :: v, skip + 1 => replaceFrom r rep (b ++ [a]) v skip
  | b, a :: v, 0 =>
    match ends r ⟨b, a :: v, []⟩ with
    | [] => a :: replaceFrom r rep (b ++ [a]) v 0
    | c :: _ =>
      match c.before.length - b.length with
      | 0 => a :: replaceFrom r rep (b ++ [a]) v 0
      | n + 1 => rep ++ replaceFrom r rep (b ++ [a]) v n

def replaceAll (r : Regexp α) (rep text : List α) : List α := replaceFrom r rep [] text 0

/-! ### Derived expressions -/

/-- The letters of `w`, up to a key such as the canonical letter case. -/
def word {β : Type} [DecidableEq β] (key : α → β) (w : List α) : Regexp α :=
  w.foldr (fun a r => seq (char fun x => key x = key a) r) empty

def opt (r : Regexp α) : Regexp α := alt r empty

def plus (greedy : Bool) (f : α → Bool) : Regexp α := seq (char f) (star greedy f)

/-! ### Matches without priorities -/

/-- The match of `r` from the first place can end at the second one. -/
def Matches : Regexp α → Cursor α → Cursor α → Prop
  | empty, c, d => d = c
  | stringStart, c, d => c.before = [] ∧ d = c
  | behind f, c, d => (∀ a ∈ c.before.getLast?, f a = true) ∧ d = c
  | stringEnd, c, d => c.after = [] ∧ d = c
  | char f, c, d => ∃ a v, c.after = a :: v ∧ f a = true ∧ d = ⟨c.before ++ [a], v, c.groups⟩
  | seq r s, c, d => ∃ e, Matches r c e ∧ Matches s e d
  | alt r s, c, d => Matches r c d ∨ Matches s c d
  | star _ f, c, d => ∃ u v, c.after = u ++ v ∧ (∀ a ∈ u, f a = true) ∧ d = ⟨c.before ++ u, v, c.groups⟩
  | group n r, c, d => ∃ e u, Matches r c e ∧ e.before = c.before ++ u ∧ d = ⟨e.before, e.after, (n, u) :: e.groups⟩

/-- A match goes forward in the text. -/
theorem Matches.text {r : Regexp α} {c d : Cursor α} (h : Matches r c d) :
    ∃ u, d.before = c.before ++ u ∧ c.after = u ++ d.after := by
  induction r generalizing c d with
  | empty => obtain rfl := h; exact ⟨[], by simp, rfl⟩
  | stringStart => obtain ⟨-, rfl⟩ := h; exact ⟨[], by simp, rfl⟩
  | behind f => obtain ⟨-, rfl⟩ := h; exact ⟨[], by simp, rfl⟩
  | stringEnd => obtain ⟨-, rfl⟩ := h; exact ⟨[], by simp, rfl⟩
  | char f => obtain ⟨a, v, hc, -, rfl⟩ := h; exact ⟨[a], rfl, hc⟩
  | seq r s ihr ihs =>
    obtain ⟨e, hr, hs⟩ := h
    obtain ⟨u, hu, hu'⟩ := ihr hr
    obtain ⟨v, hv, hv'⟩ := ihs hs
    exact ⟨u ++ v, by rw [hv, hu, List.append_assoc], by rw [hu', hv', List.append_assoc]⟩
  | alt r s ihr ihs =>
    rcases h with h | h
    · exact ihr h
    · exact ihs h
  | star g f => obtain ⟨u, v, hc, -, rfl⟩ := h; exact ⟨u, rfl, hc⟩
  | group n r ih =>
    obtain ⟨e, -, hr, -, rfl⟩ := h
    obtain ⟨u, hu, hc⟩ := ih hr
    exact ⟨u, hu, hc⟩

private theorem mem_star {f : α → Bool} {c d : Cursor α} :
    (∃ n, n < (c.after.takeWhile f).length + 1 ∧ c.forward n = d) ↔
      ∃ u v, c.after = u ++ v ∧ (∀ a ∈ u, f a = true) ∧ d = ⟨c.before ++ u, v, c.groups⟩ := by
  constructor
  · rintro ⟨n, hn, rfl⟩
    refine ⟨c.after.take n, c.after.drop n, (List.take_append_drop n c.after).symm, ?_, rfl⟩
    intro a ha
    have hsplit := List.takeWhile_append_dropWhile (p := f) (l := c.after)
    have htake : c.after.take n = (c.after.takeWhile f).take n := by
      conv => lhs; rw [← hsplit]
      exact List.take_append_of_le_length (Nat.le_of_lt_succ hn)
    rw [htake] at ha
    have hall := List.all_takeWhile (l := c.after) (p := f)
    rw [List.all_eq_true] at hall
    exact hall a (List.mem_of_mem_take ha)
  · rintro ⟨u, v, hc, hu, rfl⟩
    refine ⟨u.length, ?_, ?_⟩
    · rw [hc, List.takeWhile_append_of_pos hu, List.length_append]
      omega
    · unfold Cursor.forward
      rw [hc, List.take_left, List.drop_left]

/-- The matcher finds the matches. -/
theorem mem_ends {r : Regexp α} {c d : Cursor α} : d ∈ ends r c ↔ Matches r c d := by
  induction r generalizing c d with
  | empty => simp [ends, Matches]
  | stringStart =>
    rw [ends, Matches]
    cases h : c.before <;> simp
  | behind f =>
    rw [ends, Matches]
    cases h : c.before.getLast?.all f with
    | true =>
      rw [Option.all_eq_true] at h
      simpa using fun _ => h
    | false =>
      cases hl : c.before.getLast? with
      | none => simp [hl] at h
      | some a =>
        rw [hl, Option.all_some] at h
        simp [h]
  | stringEnd => simp [ends, Matches]
  | char f =>
    obtain ⟨b, _ | ⟨a, v⟩, g⟩ := c
    · simp [ends, Matches]
    · simp only [ends, Matches, List.head?_cons, Option.any_some]
      constructor
      · intro h
        cases hf : f a with
        | true => exact ⟨a, v, rfl, hf, by simpa [hf, Cursor.forward] using h⟩
        | false => simp [hf] at h
      · rintro ⟨a', v', hc, hf, rfl⟩
        obtain ⟨rfl, rfl⟩ := List.cons.inj hc
        simp [hf, Cursor.forward]
  | seq r s ihr ihs => simp [ends, Matches, List.mem_flatMap, ihr, ihs]
  | alt r s ihr ihs => simp [ends, Matches, ihr, ihs]
  | star g f =>
    rw [Matches, ← mem_star, ends]
    cases g <;> simp
  | group n r ih =>
    rw [ends, List.mem_map, Matches]
    constructor
    · rintro ⟨e, he, rfl⟩
      rw [ih] at he
      obtain ⟨u, hu, -⟩ := he.text
      exact ⟨e, u, he, hu, by rw [hu, List.drop_left]⟩
    · rintro ⟨e, u, he, hu, rfl⟩
      exact ⟨e, ih.2 he, by rw [hu, List.drop_left]⟩

theorem ends_eq_nil {r : Regexp α} {c : Cursor α} : ends r c = [] ↔ ∀ d, ¬ Matches r c d := by
  rw [List.eq_nil_iff_forall_not_mem]
  simp only [mem_ends]

theorem matches_plus {g : Bool} {f : α → Bool} {c d : Cursor α} :
    Matches (plus g f) c d ↔
      ∃ u v, c.after = u ++ v ∧ u ≠ [] ∧ (∀ a ∈ u, f a = true) ∧ d = ⟨c.before ++ u, v, c.groups⟩ := by
  constructor
  · rintro ⟨e, ⟨a, v, hc, ha, rfl⟩, ⟨u, w, hv, hu, rfl⟩⟩
    have hv' : v = u ++ w := hv
    exact ⟨a :: u, w, by rw [hc, hv']; rfl, by simp, by simpa [ha] using hu, by simp⟩
  · rintro ⟨u, v, hc, hne, hu, rfl⟩
    cases u with
    | nil => exact absurd rfl hne
    | cons a u =>
      rw [List.forall_mem_cons] at hu
      exact ⟨⟨c.before ++ [a], u ++ v, c.groups⟩, ⟨a, u ++ v, hc, hu.1, rfl⟩, u, v, rfl, hu.2, by simp⟩

/-- The text begins with the word, up to the key. -/
def Begins {β : Type} (key : α → β) (w v : List α) : Prop := (v.take w.length).map key = w.map key

instance {β : Type} [DecidableEq β] (key : α → β) (w v : List α) : Decidable (Begins key w v) :=
  inferInstanceAs (Decidable (_ = _))

theorem begins_iff {β : Type} {key : α → β} {w v : List α} :
    Begins key w v ↔ ∃ u t, v = u ++ t ∧ u.map key = w.map key := by
  constructor
  · intro h
    exact ⟨v.take w.length, v.drop w.length, (List.take_append_drop _ _).symm, h⟩
  · rintro ⟨u, t, rfl, h⟩
    have hlen : w.length = u.length := by simpa using (congrArg List.length h).symm
    unfold Begins
    rw [hlen, List.take_left, h]

/-! ### Searching -/

theorem searchFrom_eq_none {r : Regexp α} {b v : List α} :
    searchFrom r b v = none ↔ ∀ u w d, v = u ++ w → ¬ Matches r ⟨b ++ u, w, []⟩ d := by
  induction v generalizing b with
  | nil =>
    rw [searchFrom]
    constructor
    · intro h u w d he
      obtain ⟨rfl, rfl⟩ := List.append_eq_nil_iff.1 he.symm
      rw [List.append_nil]
      split at h
      · cases h
      · rename_i hnil
        exact ends_eq_nil.1 hnil d
    · intro h
      rw [ends_eq_nil.2 fun d => by simpa using h [] [] d rfl]
  | cons a v ih =>
    rw [searchFrom]
    constructor
    · intro h u w d he
      split at h
      · cases h
      · rename_i hnil
        cases u with
        | nil =>
          rw [List.append_nil, ← show a :: v = w from he]
          exact ends_eq_nil.1 hnil d
        | cons a' u =>
          obtain ⟨rfl, hv⟩ := List.cons.inj he
          have := ih.1 h u w d hv
          rwa [List.append_assoc] at this
    · intro h
      rw [ends_eq_nil.2 fun d => by simpa using h [] (a :: v) d rfl]
      refine ih.2 fun u w d he => ?_
      have := h (a :: u) w d (by rw [he]; rfl)
      rwa [List.append_assoc]

/-- A search finds a match. -/
theorem matches_of_searchFrom {r : Regexp α} {b v : List α} {m : Match α} (h : searchFrom r b v = some m) :
    b ++ v = m.before ++ m.text ++ m.after ∧
      Matches r ⟨m.before, m.text ++ m.after, []⟩ ⟨m.before ++ m.text, m.after, m.groups⟩ := by
  have hfound : ∀ {b v : List α} {c : Cursor α} {cs}, ends r ⟨b, v, []⟩ = c :: cs →
      b ++ v = b ++ c.before.drop b.length ++ c.after ∧
        Matches r ⟨b, c.before.drop b.length ++ c.after, []⟩ ⟨b ++ c.before.drop b.length, c.after, c.groups⟩ := by
    intro b v c cs hc
    have hm : Matches r ⟨b, v, []⟩ c := mem_ends.1 (by rw [hc]; simp)
    obtain ⟨u, hu, hv⟩ := hm.text
    obtain ⟨cb, ca, cg⟩ := c
    simp only at hu hv
    subst hu hv
    simp only [List.drop_left, List.append_assoc, true_and]
    exact hm
  induction v generalizing b with
  | nil =>
    rw [searchFrom] at h
    split at h
    · rename_i hc
      cases h
      exact hfound hc
    · cases h
  | cons a v ih =>
    rw [searchFrom] at h
    split at h
    · rename_i hc
      cases h
      exact hfound hc
    · have := ih h
      rwa [List.append_assoc] at this

theorem matches_of_search {r : Regexp α} {s : List α} {m : Match α} (h : search r s = some m) :
    s = m.before ++ m.text ++ m.after ∧
      Matches r ⟨m.before, m.text ++ m.after, []⟩ ⟨m.before ++ m.text, m.after, m.groups⟩ :=
  matches_of_searchFrom h

theorem search_eq_none {r : Regexp α} {s : List α} :
    search r s = none ↔ ∀ u v d, s = u ++ v → ¬ Matches r ⟨u, v, []⟩ d :=
  searchFrom_eq_none

theorem search_isSome {r : Regexp α} {s : List α} :
    (search r s).isSome = true ↔ ∃ u v d, s = u ++ v ∧ Matches r ⟨u, v, []⟩ d := by
  constructor
  · intro h
    obtain ⟨m, hm⟩ := Option.isSome_iff_exists.1 h
    obtain ⟨hs, hmatch⟩ := matches_of_search hm
    exact ⟨m.before, m.text ++ m.after, _, by rw [hs, List.append_assoc], hmatch⟩
  · rintro ⟨u, v, d, hs, hm⟩
    cases h : search r s with
    | some m => rfl
    | none => exact absurd hm (search_eq_none.1 h u v d hs)

/-! ### Replacing -/

theorem replaceFrom_eq_self {r : Regexp α} {rep b v : List α}
    (h : ∀ u w d, v = u ++ w → ¬ Matches r ⟨b ++ u, w, []⟩ d) : replaceFrom r rep b v 0 = v := by
  induction v generalizing b with
  | nil => rfl
  | cons a v ih =>
    rw [replaceFrom, ends_eq_nil.2 fun d => by simpa using h [] (a :: v) d rfl]
    simp only
    rw [ih]
    intro u w d he
    have := h (a :: u) w d (by rw [he]; rfl)
    rwa [List.append_assoc]

theorem replaceFrom_skip {r : Regexp α} {rep : List α} (b u v : List α) :
    replaceFrom r rep b (u ++ v) u.length = replaceFrom r rep (b ++ u) v 0 := by
  induction u generalizing b with
  | nil => simp
  | cons a u ih =>
    rw [List.cons_append, List.length_cons, replaceFrom, ih]
    simp

/-- The first match is replaced when no match begins before it. -/
theorem replaceFrom_match {r : Regexp α} (rep : List α) {b u x v : List α} (hx : x ≠ [])
    (hnone : ∀ u' w d, u' ++ w = u → w ≠ [] → ¬ Matches r ⟨b ++ u', w ++ (x ++ v), []⟩ d)
    (hends : ∀ d, Matches r ⟨b ++ u, x ++ v, []⟩ d → d.before = b ++ u ++ x)
    (hmatch : ∃ d, Matches r ⟨b ++ u, x ++ v, []⟩ d) :
    replaceFrom r rep b (u ++ (x ++ v)) 0 = u ++ (rep ++ replaceFrom r rep (b ++ u ++ x) v 0) := by
  induction u generalizing b with
  | nil =>
    cases x with
    | nil => exact absurd rfl hx
    | cons a x =>
      rw [List.nil_append, List.nil_append, List.cons_append, replaceFrom]
      simp only [List.append_nil, List.cons_append] at hends hmatch
      obtain ⟨d, hd⟩ := hmatch
      rcases hc : ends r ⟨b, a :: (x ++ v), []⟩ with _ | ⟨c, cs⟩
      · exact absurd hd (ends_eq_nil.1 hc d)
      · have hcb := hends c (mem_ends.1 (by rw [hc]; simp))
        have hlen : c.before.length - b.length = x.length + 1 := by
          rw [hcb, List.length_append, List.length_cons]
          omega
        simp only [hlen]
        rw [replaceFrom_skip]
        simp
  | cons a u ih =>
    rw [List.cons_append, replaceFrom,
      ends_eq_nil.2 fun d => by simpa using hnone [] (a :: u) d rfl (by simp)]
    simp only
    rw [ih]
    · simp
    · intro u' w d he hw
      have := hnone (a :: u') w d (by rw [← he]; rfl) hw
      rwa [List.append_assoc]
    · intro d hd
      have := hends d (by rwa [List.append_assoc] at hd)
      simpa using this
    · obtain ⟨d, hd⟩ := hmatch
      exact ⟨d, by rwa [List.append_assoc]⟩

/-! ### Words -/

theorem matches_word {β : Type} [DecidableEq β] {key : α → β} {w : List α} {c d : Cursor α} :
    Matches (word key w) c d ↔
      ∃ u v, c.after = u ++ v ∧ u.map key = w.map key ∧ d = ⟨c.before ++ u, v, c.groups⟩ := by
  induction w generalizing c with
  | nil =>
    constructor
    · intro h
      obtain rfl : d = c := h
      exact ⟨[], d.after, rfl, rfl, by simp⟩
    · rintro ⟨u, v, hc, hu, rfl⟩
      obtain rfl : u = [] := by simpa using hu
      show _ = _
      simp [← show c.after = v from hc]
  | cons a w ih =>
    constructor
    · rintro ⟨e, ⟨x, v, hc, hx, rfl⟩, hd⟩
      obtain ⟨u, t, hv, hu, rfl⟩ := ih.1 hd
      have hv' : v = u ++ t := hv
      exact ⟨x :: u, t, by rw [hc, hv']; rfl, by simpa [hu] using hx, by simp⟩
    · rintro ⟨u, v, hc, hu, rfl⟩
      cases u with
      | nil => cases hu
      | cons x u =>
        obtain ⟨hx, hu⟩ := List.cons.inj hu
        refine ⟨⟨c.before ++ [x], u ++ v, c.groups⟩, ⟨x, u ++ v, hc, by simpa using hx, rfl⟩, ?_⟩
        exact ih.2 ⟨u, v, rfl, hu, by simp⟩

end Regexp
