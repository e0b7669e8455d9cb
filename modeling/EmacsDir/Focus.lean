import Mathlib.Data.List.Nodup

/-!
# Lists with a place in them

A list without repetitions with one of its elements in focus.  New elements come in to the right of the focus.  When
elements are taken out the focus stays where it is, and if its element is taken out it moves to the next element that
remains, or to the last one if none remains on its right.  Taking out in several steps is the same as taking out at once
(`filter_filter`), so the elements may be taken out one by one in any order.
-/

/-- A list without repetitions, split at the element in focus; the left part is read from the focus. -/
structure Focus (α : Type) where
  left : List α
  here : α
  right : List α
  nodup : (left.reverse ++ here :: right).Nodup

namespace Focus

variable {α : Type}

def toList (f : Focus α) : List α := f.left.reverse ++ f.here :: f.right

theorem here_mem (f : Focus α) : f.here ∈ f.toList := by simp [toList]

theorem toList_ne_nil (f : Focus α) : f.toList ≠ [] := by simp [toList]

theorem nodup_toList (f : Focus α) : f.toList.Nodup := f.nodup

theorem here_notMem_left (f : Focus α) : f.here ∉ f.left := by
  have h := f.nodup
  rw [List.nodup_middle, List.nodup_cons] at h
  exact fun hm => h.1 (List.mem_append_left _ (List.mem_reverse.2 hm))

theorem here_notMem_right (f : Focus α) : f.here ∉ f.right := by
  have h := f.nodup
  rw [List.nodup_middle, List.nodup_cons] at h
  exact fun hm => h.1 (List.mem_append_right _ hm)

/-- A list and the element in focus determine the split. -/
theorem ext_toList {f g : Focus α} (hl : f.toList = g.toList) (hh : f.here = g.here) : f = g := by
  have hf := f.here_notMem_left
  have hg := g.here_notMem_left
  obtain ⟨l, x, r, _⟩ := f
  obtain ⟨l', x', r', _⟩ := g
  obtain rfl : x = x' := hh
  rcases List.append_eq_append_iff.1 hl with ⟨a, ha, hr⟩ | ⟨a, ha, hr⟩
  · cases a with
    | nil =>
      obtain rfl : l' = l := by simpa using ha
      cases hr
      rfl
    | cons y a =>
      obtain ⟨rfl, -⟩ := List.cons.inj hr
      have hmem : x ∈ l'.reverse := by rw [ha]; simp
      exact absurd (List.mem_reverse.1 hmem) hg
  · cases a with
    | nil =>
      obtain rfl : l = l' := by simpa using ha
      cases hr
      rfl
    | cons y a =>
      obtain ⟨rfl, -⟩ := List.cons.inj hr
      have hmem : x ∈ l.reverse := by rw [ha]; simp
      exact absurd (List.mem_reverse.1 hmem) hf

/-- A single element. -/
def single (x : α) : Focus α := ⟨[], x, [], by simp⟩

/-- The next element on the right in focus, or the next one on the left. -/
def ofLists : (l r : List α) → (l.reverse ++ r).Nodup → Option (Focus α)
  | l, x :: r, h => some ⟨l, x, r, h⟩
  | x :: l, [], h => some ⟨l, x, [], by simpa using h⟩
  | [], [], _ => none

/-- The elements are those of the two lists. -/
theorem toList_ofLists {l r : List α} {h : (l.reverse ++ r).Nodup} {f : Focus α} (hf : ofLists l r h = some f) :
    f.toList = l.reverse ++ r := by
  cases r with
  | cons x r =>
    cases hf
    rfl
  | nil =>
    cases l with
    | nil => cases hf
    | cons x l =>
      cases hf
      simp [toList]

theorem here_ofLists {l r : List α} {h : (l.reverse ++ r).Nodup} {f : Focus α} (hf : ofLists l r h = some f) :
    r.head?.or l.head? = some f.here := by
  cases r with
  | cons x r =>
    cases hf
    rfl
  | nil =>
    cases l with
    | nil => cases hf
    | cons x l =>
      cases hf
      rfl

theorem ofLists_eq_none {l r : List α} {h : (l.reverse ++ r).Nodup} :
    ofLists l r h = none ↔ l.reverse ++ r = [] := by
  cases r with
  | cons x r => simp [ofLists]
  | nil => cases l <;> simp [ofLists]

theorem ofLists_congr {l r l' r' : List α} {h : (l.reverse ++ r).Nodup} {h' : (l'.reverse ++ r').Nodup} (hl : l = l')
    (hr : r = r') : ofLists l r h = ofLists l' r' h' := by
  subst hl hr
  rfl

theorem nodup_filter {l r : List α} (p : α → Bool) (h : (l.reverse ++ r).Nodup) :
    ((l.filter p).reverse ++ r.filter p).Nodup := by
  rw [← List.filter_reverse, ← List.filter_append]
  exact h.filter p

/-- What remains of the elements. -/
def filter (p : α → Bool) (f : Focus α) : Option (Focus α) :=
  ofLists (f.left.filter p) ((f.here :: f.right).filter p) (nodup_filter p f.nodup)

variable {p q : α → Bool} {f g : Focus α}

theorem toList_filter (h : f.filter p = some g) : g.toList = f.toList.filter p := by
  rw [toList_ofLists h, toList, List.filter_append, List.filter_reverse]

theorem filter_eq_none : f.filter p = none ↔ ∀ x ∈ f.toList, p x = false := by
  rw [filter, ofLists_eq_none, ← List.filter_reverse, ← List.filter_append, List.filter_eq_nil_iff]
  simp [toList]

/-- An element that remains stays in focus. -/
theorem filter_here (h : p f.here = true) : ∃ g, f.filter p = some g ∧ g.here = f.here := by
  have hr : (f.here :: f.right).filter p = f.here :: f.right.filter p := List.filter_cons_of_pos h
  have hnodup : ((f.left.filter p).reverse ++ f.here :: f.right.filter p).Nodup := hr ▸ nodup_filter p f.nodup
  exact ⟨⟨_, _, _, hnodup⟩, ofLists_congr rfl hr, rfl⟩

theorem filter_eq_self (h : ∀ x ∈ f.toList, p x = true) : f.filter p = some f := by
  obtain ⟨g, hg, hh⟩ := filter_here (h f.here f.here_mem)
  rw [hg, Option.some.injEq]
  apply ext_toList _ hh
  rw [toList_filter hg, List.filter_eq_self]
  exact h

theorem filter_congr (h : ∀ x ∈ f.toList, p x = q x) : f.filter p = f.filter q := by
  apply ofLists_congr
  · exact List.filter_congr fun x hx => h x (List.mem_append_left _ (List.mem_reverse.2 hx))
  · exact List.filter_congr fun x hx => h x (List.mem_append_right _ hx)

theorem ofLists_filter {l r : List α} (h : (l.reverse ++ r).Nodup) :
    (ofLists l r h).bind (filter p) = ofLists (l.filter p) (r.filter p) (nodup_filter p h) := by
  cases r with
  | cons x r => rfl
  | nil =>
    cases l with
    | nil => rfl
    | cons x l =>
      -- the focus has moved to the left
      show ofLists (l.filter p) ([x].filter p) _ = ofLists ((x :: l).filter p) [] _
      cases hp : p x with
      | true =>
        have hl : (x :: l).filter p = x :: l.filter p := List.filter_cons_of_pos hp
        have hr : [x].filter p = [x] := List.filter_cons_of_pos hp
        have hnodup : ((x :: l.filter p).reverse ++ []).Nodup := hl ▸ nodup_filter p h
        calc ofLists (l.filter p) ([x].filter p) _
            = ofLists (l.filter p) [x] (by simpa using hnodup) := ofLists_congr rfl hr
          _ = ofLists (x :: l.filter p) [] hnodup := rfl
          _ = _ := ofLists_congr hl.symm rfl
      | false =>
        have hneg : ¬ p x = true := by simp [hp]
        exact ofLists_congr (List.filter_cons_of_neg hneg).symm (List.filter_cons_of_neg hneg)

/-- Taking out in two steps. -/
theorem filter_filter (p q : α → Bool) (f : Focus α) :
    (f.filter p).bind (Focus.filter q) = f.filter fun x => q x && p x :=
  (ofLists_filter _).trans (ofLists_congr List.filter_filter List.filter_filter)

section Place

/-- The elements that are not in focus. -/
def others (f : Focus α) : List α := f.left.reverse ++ f.right

/-- The number of elements to the left of the focus. -/
def position (f : Focus α) : Nat := f.left.length

theorem nodup_others_cons (f : Focus α) : (f.here :: f.others).Nodup := List.nodup_middle.1 f.nodup

/-- The element in focus takes another place among the others. -/
def place (n : Nat) (f : Focus α) : Focus α where
  left := (f.others.take n).reverse
  here := f.here
  right := f.others.drop n
  nodup := by
    rw [List.reverse_reverse, List.nodup_middle, List.take_append_drop]
    exact f.nodup_others_cons

theorem others_place (n : Nat) (f : Focus α) : (f.place n).others = f.others := by
  show (f.others.take n).reverse.reverse ++ f.others.drop n = f.others
  rw [List.reverse_reverse, List.take_append_drop]

theorem here_place (n : Nat) (f : Focus α) : (f.place n).here = f.here := rfl

theorem position_place (n : Nat) (f : Focus α) : (f.place n).position = min n f.others.length := by
  show (f.others.take n).reverse.length = _
  rw [List.length_reverse, List.length_take]

theorem place_place (m n : Nat) (f : Focus α) : (f.place m).place n = f.place n := by
  have hothers := others_place m f
  unfold place at hothers ⊢
  simp only [hothers]

/-- There is no place beyond the others. -/
theorem place_min (n : Nat) (f : Focus α) : f.place (min n f.others.length) = f.place n := by
  rcases Nat.le_total n f.others.length with h | h
  · rw [Nat.min_eq_left h]
  · unfold place
    simp only [Nat.min_eq_right h, List.take_length, List.drop_length, List.take_of_length_le h,
      List.drop_eq_nil_of_le h]

theorem place_position (f : Focus α) : f.place f.position = f := by
  have htake : f.others.take f.position = f.left.reverse := by
    rw [others, position, ← List.length_reverse, List.take_left]
  have hdrop : f.others.drop f.position = f.right := by
    rw [others, position, ← List.length_reverse, List.drop_left]
  unfold place
  simp only [htake, hdrop, List.reverse_reverse]

theorem length_toList (f : Focus α) : f.toList.length = f.others.length + 1 := by
  rw [toList, others, List.length_append, List.length_append, List.length_cons]
  omega

theorem position_le (f : Focus α) : f.position ≤ f.others.length := by
  rw [others, position, List.length_append, List.length_reverse]
  omega

theorem toList_place (n : Nat) (f : Focus α) : (f.place n).toList = f.others.take n ++ f.here :: f.others.drop n := by
  show (f.others.take n).reverse.reverse ++ _ = _
  rw [List.reverse_reverse]
  rfl

theorem mem_toList_iff {x : α} : x ∈ f.toList ↔ x = f.here ∨ x ∈ f.others := by
  rw [toList, others, List.mem_append, List.mem_cons, List.mem_append]
  tauto

theorem mem_toList_place {x : α} (n : Nat) : x ∈ (f.place n).toList ↔ x ∈ f.toList := by
  rw [mem_toList_iff, mem_toList_iff, others_place, here_place]

end Place

section Add

variable [DecidableEq α]

theorem filter_ne_eq_self {l : List α} {x : α} (h : x ∉ l) : (l.filter fun y => y ≠ x) = l := by
  rw [List.filter_eq_self]
  intro y hy
  have hne : y ≠ x := fun he => h (he ▸ hy)
  simpa using hne

/-- Taking out the element in focus brings its right neighbour in focus, or its left neighbour if it is the last. -/
theorem here_filter_ne (h : f.filter (fun y => y ≠ f.here) = some g) : f.right.head?.or f.left.head? = some g.here := by
  have hhere := here_ofLists h
  rwa [filter_ne_eq_self f.here_notMem_left, List.filter_cons_of_neg (by simp), filter_ne_eq_self f.here_notMem_right]
    at hhere

/-- The other elements in the order in which they come in focus when the one in focus is taken out again and again. -/
def rest (f : Focus α) : List α := f.right ++ f.left

omit [DecidableEq α] in
theorem rest_ofLists {l r : List α} {h : (l.reverse ++ r).Nodup} (hg : ofLists l r h = some g) :
    g.here :: g.rest = r ++ l := by
  cases r with
  | cons x r =>
    cases hg
    rfl
  | nil =>
    cases l with
    | nil => cases hg
    | cons x l =>
      cases hg
      rfl

theorem here_cons_rest (h : f.filter (fun y => y ≠ f.here) = some g) : g.here :: g.rest = f.rest := by
  have hrest := rest_ofLists h
  rwa [filter_ne_eq_self f.here_notMem_left, List.filter_cons_of_neg (by simp), filter_ne_eq_self f.here_notMem_right]
    at hrest

omit [DecidableEq α] in
theorem mem_of_mem_rest {x : α} (h : x ∈ f.rest) : x ∈ f.toList := by
  rw [mem_toList_iff]
  unfold others
  rw [List.mem_append, List.mem_reverse]
  exact Or.inr (List.mem_append.1 h).symm

omit [DecidableEq α] in
theorem here_notMem_rest : f.here ∉ f.rest := by
  intro h
  rcases List.mem_append.1 h with h | h
  · exact f.here_notMem_right h
  · exact f.here_notMem_left h

theorem exists_filter_ne {x : α} (h : x ∈ f.rest) : ∃ g, f.filter (fun y => y ≠ f.here) = some g := by
  rw [← Option.isSome_iff_exists, Option.isSome_iff_ne_none]
  intro hnone
  have hne : x ≠ f.here := fun he => here_notMem_rest (he ▸ h)
  have := filter_eq_none.1 hnone x (mem_of_mem_rest h)
  simp [hne] at this

/-- The element that comes in focus when the one in focus is taken out. -/
theorem here_filter_rest (f : Focus α) : (f.filter fun y => y ≠ f.here).map here = f.rest.head? := by
  cases hf : f.filter fun y => y ≠ f.here with
  | some g =>
    rw [← here_cons_rest hf]
    rfl
  | none =>
    cases hrest : f.rest with
    | nil => rfl
    | cons x l =>
      obtain ⟨g, hg⟩ := exists_filter_ne (show x ∈ f.rest by rw [hrest]; exact List.mem_cons_self)
      rw [hf] at hg
      cases hg

/-- A new element comes in to the right of the focus. -/
def add (x : α) (f : Focus α) : Focus α :=
  if h : x ∈ f.toList then f
  else ⟨f.left, f.here, x :: f.right, by
    have hperm : (f.left.reverse ++ f.here :: x :: f.right).Perm (x :: f.toList) :=
      ((List.Perm.swap x f.here f.right).append_left _).trans List.perm_middle
    exact hperm.nodup_iff.2 (List.nodup_cons.2 ⟨h, f.nodup⟩)⟩

theorem add_of_mem {x : α} (h : x ∈ f.toList) : f.add x = f := dif_pos h

theorem add_right {x : α} (h : x ∉ f.toList) : (f.add x).right = x :: f.right := by
  unfold add
  rw [dif_neg h]

theorem add_left (x : α) : (f.add x).left = f.left := by
  unfold add
  split <;> rfl

theorem add_here (x : α) : (f.add x).here = f.here := by
  unfold add
  split <;> rfl

theorem mem_add {x y : α} : y ∈ (f.add x).toList ↔ y = x ∨ y ∈ f.toList := by
  by_cases h : x ∈ f.toList
  · rw [add_of_mem h]
    constructor
    · exact Or.inr
    · rintro (rfl | hy)
      · exact h
      · exact hy
  · simp only [toList, add_left, add_here, add_right h, List.mem_append, List.mem_cons]
    tauto

/-- The old elements keep their order. -/
theorem add_sublist (x : α) : f.toList.Sublist (f.add x).toList := by
  by_cases h : x ∈ f.toList
  · rw [add_of_mem h]
  · simp only [toList, add_left, add_here, add_right h]
    exact ((List.sublist_cons_self x f.right).cons_cons f.here).append_left _

/-- Elements that come in one after the other: each stands left of those that came before it. -/
theorem foldl_add {xs : List α} (hxs : xs.Nodup) :
    (xs.foldl (fun f x => f.add x) f).left = f.left ∧ (xs.foldl (fun f x => f.add x) f).here = f.here ∧
      (xs.foldl (fun f x => f.add x) f).right = (xs.filter fun x => x ∉ f.toList).reverse ++ f.right := by
  induction xs generalizing f with
  | nil => exact ⟨rfl, rfl, rfl⟩
  | cons x xs ih =>
    rw [List.nodup_cons] at hxs
    obtain ⟨hl, hh, hr⟩ := ih (f := f.add x) hxs.2
    rw [List.foldl_cons, hl, hh, hr]
    refine ⟨add_left x, add_here x, ?_⟩
    have hrest : (xs.filter fun y => y ∉ (f.add x).toList) = xs.filter fun y => y ∉ f.toList := by
      apply List.filter_congr
      intro y hy
      have hne : y ≠ x := fun h => hxs.1 (h ▸ hy)
      simp [mem_add, hne]
    rw [hrest]
    by_cases h : x ∈ f.toList
    · rw [add_of_mem h, List.filter_cons_of_neg (by simpa using h)]
    · rw [add_right h, List.filter_cons_of_pos (by simpa using h)]
      simp

theorem foldl_add_of_mem {xs : List α} (h : ∀ x ∈ xs, x ∈ f.toList) : xs.foldl (fun f x => f.add x) f = f := by
  induction xs with
  | nil => rfl
  | cons x xs ih =>
    rw [List.foldl_cons, add_of_mem (h x List.mem_cons_self)]
    exact ih fun y hy => h y (List.mem_cons_of_mem _ hy)

/-- A new element comes in, as the only one if there is none. -/
def addTo (o : Option (Focus α)) (x : α) : Option (Focus α) :=
  match o with
  | some f => some (f.add x)
  | none => some (single x)

/-- Another element is put in focus. -/
def visit (x : α) (f : Focus α) : Focus α :=
  if h : x ∈ f.toList then
    ⟨(f.toList.takeWhile (· ≠ x)).reverse, x, (f.toList.dropWhile (· ≠ x)).tail, by
      have hx : f.toList.dropWhile (· ≠ x) = x :: (f.toList.dropWhile (· ≠ x)).tail := by
        obtain ⟨u, v, huv, hu⟩ := List.eq_append_cons_of_mem h
        have hall : ∀ y ∈ u, decide (y ≠ x) = true := fun y hy => by
          simpa using fun he : y = x => hu (he ▸ hy)
        rw [huv, List.dropWhile_append_of_pos hall]
        simp
      rw [List.reverse_reverse, ← hx, List.takeWhile_append_dropWhile]
      exact f.nodup⟩
  else f

theorem toList_visit (x : α) (f : Focus α) : (f.visit x).toList = f.toList := by
  unfold visit
  split
  · rename_i h
    obtain ⟨u, v, huv, hu⟩ := List.eq_append_cons_of_mem h
    have hall : ∀ y ∈ u, decide (y ≠ x) = true := fun y hy => by
      simpa using fun he : y = x => hu (he ▸ hy)
    have htake : f.toList.takeWhile (· ≠ x) = u := by
      rw [huv, List.takeWhile_append_of_pos hall]
      simp
    have hdrop : f.toList.dropWhile (· ≠ x) = x :: v := by
      rw [huv, List.dropWhile_append_of_pos hall]
      simp
    show (f.toList.takeWhile (· ≠ x)).reverse.reverse ++ x :: (f.toList.dropWhile (· ≠ x)).tail = _
    rw [List.reverse_reverse, htake, hdrop, huv, List.tail_cons]
  · rfl

theorem visit_here {x : α} (h : x ∈ f.toList) : (f.visit x).here = x := by
  unfold visit
  rw [dif_pos h]

theorem visit_self : f.visit f.here = f := ext_toList (toList_visit f.here f) (visit_here f.here_mem)

theorem idxOf_toList : f.toList.idxOf f.here = f.position := by
  have hleft : f.here ∉ f.left.reverse := by
    rw [List.mem_reverse]
    exact f.here_notMem_left
  rw [toList, List.idxOf_append_of_notMem hleft, List.idxOf_cons_self, Nat.add_zero, List.length_reverse]
  rfl

theorem erase_toList : f.toList.erase f.here = f.others := by
  have hleft : f.here ∉ f.left.reverse := by
    rw [List.mem_reverse]
    exact f.here_notMem_left
  rw [toList, List.erase_append_right _ hleft, List.erase_cons_head]
  rfl

/-- New elements come in to the right of the focus, the last one first, and then some elements are taken out. -/
theorem toList_foldl_add_filter {xs : List α} {p : α → Bool} (hxs : xs.Nodup)
    (h : (xs.foldl (fun f x => f.add x) f).filter p = some g) :
    g.toList = f.left.reverse.filter p ++
      ((f.here :: (xs.filter fun x => x ∉ f.toList).reverse ++ f.right).filter p) := by
  obtain ⟨hl, hh, hr⟩ := foldl_add (f := f) hxs
  rw [toList_filter h, toList, hl, hh, hr, List.filter_append, List.cons_append]

end Add

end Focus
