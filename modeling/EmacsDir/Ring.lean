import Mathlib.GroupTheory.Perm.List

/-!
# Rings

The elements of a list in a ring: after the last one comes the first one.  `List.formPerm` takes an element to the next
one, and its inverse to the one before.  A ring may be laid out in rows; then the next element after the last one of a row
is the first one of the next row.
-/

namespace Ring

variable {α ι : Type} [DecidableEq α]

/-- The next element, or the first one after the last one. -/
theorem formPerm_next {u v : List α} {x : α} (h : (u ++ x :: v).Nodup) :
    v.head?.or (u ++ x :: v).head? = some ((u ++ x :: v).formPerm x) := by
  have hlt : u.length < (u ++ x :: v).length := by
    rw [List.length_append, List.length_cons]
    omega
  have hx : (u ++ x :: v)[u.length] = x := by
    rw [List.getElem_append_right (Nat.le_refl _)]
    simp
  have hnext := List.formPerm_apply_getElem (u ++ x :: v) h u.length hlt
  rw [hx] at hnext
  rw [hnext]
  cases v with
  | nil =>
    have hlength : (u ++ [x]).length = u.length + 1 := by simp
    have hmod : (u.length + 1) % (u ++ [x]).length = 0 := by rw [hlength, Nat.mod_self]
    simp only [hmod]
    rw [List.head?_nil, Option.none_or, List.head?_eq_getElem?, List.getElem?_eq_getElem]
  | cons y v =>
    have hmod : (u.length + 1) % (u ++ x :: y :: v).length = u.length + 1 := by
      apply Nat.mod_eq_of_lt
      rw [List.length_append, List.length_cons, List.length_cons]
      omega
    simp only [hmod]
    rw [List.getElem_append_right (by omega)]
    simp

/-- The element before, or the last one before the first one. -/
theorem formPerm_prev {u v : List α} {x : α} (h : (u ++ x :: v).Nodup) :
    u.getLast?.or (u ++ x :: v).getLast? = some ((u ++ x :: v).formPerm⁻¹ x) := by
  have hreverse : (u ++ x :: v).reverse = v.reverse ++ x :: u.reverse := by simp
  have hnext := formPerm_next (hreverse ▸ List.nodup_reverse.2 h)
  rw [← hreverse, List.formPerm_reverse, List.head?_reverse, List.head?_reverse] at hnext
  exact hnext

/-- Every element is reached from every other one. -/
theorem exists_formPerm_pow {l : List α} (h : l.Nodup) {x y : α} (hx : x ∈ l) (hy : y ∈ l) :
    ∃ k < l.length, (l.formPerm ^ k) x = y := by
  obtain ⟨i, hi, rfl⟩ := List.getElem_of_mem hx
  obtain ⟨j, hj, rfl⟩ := List.getElem_of_mem hy
  refine ⟨(j + (l.length - i)) % l.length, Nat.mod_lt _ (by omega), ?_⟩
  have hround : (i + (j + (l.length - i)) % l.length) % l.length = j := by
    rw [Nat.add_mod_mod, show i + (j + (l.length - i)) = j + l.length by omega, Nat.add_mod_right, Nat.mod_eq_of_lt hj]
  rw [List.formPerm_pow_apply_getElem l h]
  simp only [hround]

/-- A ring of two elements. -/
theorem formPerm_zpow_pair {l : List α} {x y : α} (hl : l.Perm [x, y]) (hne : x ≠ y) (k : Int) :
    (l.formPerm ^ k) x = if k % 2 = 0 then x else y := by
  have hnodup : l.Nodup := hl.nodup_iff.2 (by simp [hne])
  have htwice : l.formPerm ^ (2 : Int) = 1 := by
    have hround := List.formPerm_pow_length_eq_one_of_nodup l hnodup
    rw [hl.length_eq] at hround
    exact_mod_cast hround
  have hx : x ∈ l := hl.mem_iff.2 List.mem_cons_self
  have hnext : l.formPerm x = y := by
    have hmem := List.formPerm_apply_mem_of_mem hx
    have hmove := (List.formPerm_apply_mem_ne_self_iff l hnodup x hx).2 (Nat.le_of_eq hl.length_eq.symm)
    rw [hl.mem_iff, List.mem_cons, List.mem_singleton] at hmem
    exact hmem.resolve_left hmove
  have hmod : l.formPerm ^ k = l.formPerm ^ (k % 2) := by
    calc l.formPerm ^ k = l.formPerm ^ (k % 2 + 2 * (k / 2)) := by rw [Int.emod_add_mul_ediv]
      _ = l.formPerm ^ (k % 2) := by rw [zpow_add, zpow_mul, htwice, one_zpow, mul_one]
  rw [hmod]
  rcases Int.emod_two_eq_zero_or_one k with hk | hk
  · rw [hk]
    rfl
  · rw [hk, zpow_one]
    exact hnext

/-- After the last element of a row comes the first one of the next row. -/
theorem formPerm_next_row {f : ι → List α} {c d : List ι} {r : ι} {u : List α} {x : α}
    (hf : ∀ i ∈ c ++ r :: d, f i ≠ []) (hr : f r = u ++ [x]) (h : ((c ++ r :: d).flatMap f).Nodup) :
    ((d.head?.or (c ++ r :: d).head?).bind fun i => (f i).head?) = some (((c ++ r :: d).flatMap f).formPerm x) := by
  have hhead : ∀ l : List ι, (∀ i ∈ l, f i ≠ []) → (l.flatMap f).head? = l.head?.bind fun i => (f i).head? := by
    intro l hl
    cases l with
    | nil => rfl
    | cons i l =>
      rw [List.flatMap_cons, List.head?_append_of_ne_nil _ (hl i List.mem_cons_self), List.head?_cons, Option.bind_some]
  have hsplit : (c ++ r :: d).flatMap f = (c.flatMap f ++ u) ++ x :: d.flatMap f := by
    rw [List.flatMap_append, List.flatMap_cons, hr]
    simp
  have hnext := formPerm_next (hsplit ▸ h)
  rw [← hsplit, hhead _ hf, hhead d fun i hi => hf i (by simp [hi])] at hnext
  rw [← hnext]
  cases hd : d.head? with
  | none => rfl
  | some i =>
    have hne := hf i (by simp [List.mem_of_head? hd])
    obtain ⟨y, l, hy⟩ := List.exists_cons_of_ne_nil hne
    rw [Option.some_or, Option.bind_some, hy]
    rfl

/-- Before the first element of a row comes the last one of the row before. -/
theorem formPerm_prev_row {f : ι → List α} {c d : List ι} {r : ι} {v : List α} {x : α}
    (hf : ∀ i ∈ c ++ r :: d, f i ≠ []) (hr : f r = x :: v) (h : ((c ++ r :: d).flatMap f).Nodup) :
    ((c.getLast?.or (c ++ r :: d).getLast?).bind fun i => (f i).getLast?) =
      some (((c ++ r :: d).flatMap f).formPerm⁻¹ x) := by
  have hrows : (c ++ r :: d).reverse = d.reverse ++ r :: c.reverse := by simp
  have hreverse : ((c ++ r :: d).flatMap f).reverse = (d.reverse ++ r :: c.reverse).flatMap fun i => (f i).reverse := by
    rw [List.reverse_flatMap, hrows]
    rfl
  have hne : ∀ i ∈ d.reverse ++ r :: c.reverse, (f i).reverse ≠ [] := by
    intro i hi
    rw [← hrows, List.mem_reverse] at hi
    simpa using hf i hi
  have hnext := formPerm_next_row (f := fun i => (f i).reverse) (u := v.reverse) (x := x) hne (by rw [hr]; simp)
    (hreverse ▸ List.nodup_reverse.2 h)
  rw [← hreverse, List.formPerm_reverse, ← hrows, List.head?_reverse, List.head?_reverse] at hnext
  simpa only [List.head?_reverse] using hnext

end Ring
