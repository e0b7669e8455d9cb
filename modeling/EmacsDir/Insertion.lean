import EmacsDir.Transducer

/-!
# Texts obtained by insertions

`Inserts p u v`: the list `v` is `u` with letters satisfying `p` inserted anywhere; no letter of `u` is lost,
changed or moved.  A transducer whose steps keep their letter and only insert has runs that only insert.
-/

inductive Inserts {α : Type} (p : α → Prop) : List α → List α → Prop
  | nil : Inserts p [] []
  | keep {u v : List α} (a : α) : Inserts p u v → Inserts p (a :: u) (a :: v)
  | add {u v : List α} {a : α} : p a → Inserts p u v → Inserts p u (a :: v)

namespace Inserts

variable {α : Type} {p : α → Prop} {u u' v v' : List α}

theorem refl (u : List α) : Inserts p u u := by
  induction u with
  | nil => exact .nil
  | cons a u ih => exact .keep a ih

theorem append (h : Inserts p u v) (h' : Inserts p u' v') : Inserts p (u ++ u') (v ++ v') := by
  induction h with
  | nil => exact h'
  | keep a _ ih => exact .keep a ih
  | add ha _ ih => exact .add ha ih

theorem trans {w : List α} (h : Inserts p u v) (h' : Inserts p v w) : Inserts p u w := by
  induction h' generalizing u with
  | nil => exact h
  | keep a _ ih =>
    cases h with
    | keep _ h => exact .keep a (ih h)
    | add ha h => exact .add ha (ih h)
  | add ha _ ih => exact .add ha (ih h)

theorem of_forall (h : ∀ a ∈ v, p a) : Inserts p [] v := by
  induction v with
  | nil => exact .nil
  | cons a v ih => exact .add (h a (by simp)) (ih fun x hx => h x (by simp [hx]))

theorem mono {r : α → Prop} (h : Inserts p u v) (hr : ∀ a, p a → r a) : Inserts r u v := by
  induction h with
  | nil => exact .nil
  | keep a _ ih => exact .keep a ih
  | add ha _ ih => exact .add (hr _ ha) ih

/-- The old text is read off the new one by leaving letters out. -/
theorem sublist (h : Inserts p u v) : u.Sublist v := by
  induction h with
  | nil => exact .slnil
  | keep a _ ih => exact .cons_cons a ih
  | add _ _ ih => exact .cons _ ih

/-- Every letter of the new text is an old one or may be inserted. -/
theorem mem {a : α} (h : Inserts p u v) (ha : a ∈ v) : a ∈ u ∨ p a := by
  induction h with
  | nil => exact Or.inl ha
  | keep b _ ih =>
    rcases List.mem_cons.1 ha with rfl | ha
    · exact Or.inl (by simp)
    · exact (ih ha).imp_left (List.mem_cons_of_mem _)
  | add hb _ ih =>
    rcases List.mem_cons.1 ha with rfl | ha
    · exact Or.inr hb
    · exact ih ha

/-- Letters that may not be inserted are the same in both texts. -/
theorem filter_eq (h : Inserts p u v) (f : α → Bool) (hf : ∀ a, p a → f a = false) : u.filter f = v.filter f := by
  induction h with
  | nil => rfl
  | keep a _ ih => simp only [List.filter_cons, ih]
  | add ha _ ih => rw [ih, List.filter_cons, hf _ ha]; rfl

end Inserts

/-- A transducer with inserting steps has inserting runs. -/
theorem Transducer.read_inserts {α κ : Type} {p : α → Prop} {T : Transducer α α κ}
    (hT : ∀ q a o q', T.step q a = some (o, q') → Inserts p [a] o) {q q' : κ} {u o : List α}
    (h : T.read q u = some (o, q')) : Inserts p u o := by
  induction u generalizing q o with
  | nil => cases h; exact .nil
  | cons a u ih =>
    obtain ⟨o₁, q₁, o₂, hs, hr, rfl⟩ := read_cons_iff.1 h
    exact (hT _ _ _ _ hs).append (ih hr)
