import Mathlib.Data.List.Nodup

/-!
# Obarrays

A table of symbols with distinct names, in the order in which `mapatoms` meets them: bucket by bucket from the last one
down, and in a bucket from the newest symbol to the oldest.  A symbol is represented by what hangs on it.
-/

/-- The symbols of an obarray. -/
structure Obarray {K α : Type} (name : α → K) where
  atoms : List α
  nodup : (atoms.map name).Nodup

namespace Obarray

variable {K α : Type} [DecidableEq K] {name : α → K}

/-- `(intern-soft k ob)` -/
def find? (k : K) (ob : Obarray name) : Option α := ob.atoms.find? fun a => name a = k

/-- `(make-vector n 0)` -/
def empty : Obarray name := ⟨[], List.nodup_nil⟩

/-- `(intern (name a) ob)`: a new symbol comes in in front of its bucket, and one of that name stays as it is. -/
def intern (bucket : K → Nat) (a : α) (ob : Obarray name) : Obarray name :=
  if h : ob.find? (name a) = none then
    { atoms := ob.atoms.takeWhile (fun x => bucket (name a) < bucket (name x)) ++
        a :: ob.atoms.dropWhile (fun x => bucket (name a) < bucket (name x))
      nodup := by
        have hperm : (ob.atoms.takeWhile (fun x => bucket (name a) < bucket (name x)) ++
            a :: ob.atoms.dropWhile (fun x => bucket (name a) < bucket (name x))).Perm (a :: ob.atoms) :=
          List.perm_middle.trans (by rw [List.takeWhile_append_dropWhile])
        rw [(hperm.map name).nodup_iff, List.map_cons, List.nodup_cons]
        refine ⟨?_, ob.nodup⟩
        intro hmem
        obtain ⟨x, hx, hname⟩ := List.mem_map.1 hmem
        have := List.find?_eq_none.1 h x hx
        simp [hname] at this }
  else ob

/-- `(unintern symbol ob)`, by name. -/
def unintern (k : K) (ob : Obarray name) : Obarray name where
  atoms := ob.atoms.filter fun a => name a ≠ k
  nodup := ob.nodup.sublist (List.filter_sublist.map name)

/-- `mapatoms` with a function that changes the symbols. -/
def mapAtoms (f : α → α) (hf : ∀ a, name (f a) = name a) (ob : Obarray name) : Obarray name where
  atoms := ob.atoms.map f
  nodup := by
    rw [List.map_map, show name ∘ f = name from funext hf]
    exact ob.nodup

/-- The symbol of that name gets another value and other properties. -/
def set (a : α) (ob : Obarray name) : Obarray name :=
  ob.mapAtoms (fun x => if name x = name a then a else x) (by
    intro x
    split
    · rename_i h
      exact h.symm
    · rfl)

variable {ob : Obarray name} {k : K} {a b : α}

theorem name_of_find? (h : ob.find? k = some a) : name a = k := by
  have := List.find?_some h
  simpa using this

theorem mem_of_find? (h : ob.find? k = some a) : a ∈ ob.atoms := List.mem_of_find?_eq_some h

/-- A symbol is found under its name. -/
theorem find?_of_mem (h : a ∈ ob.atoms) : ob.find? (name a) = some a := by
  cases hf : ob.find? (name a) with
  | none =>
    have := List.find?_eq_none.1 hf a h
    simp at this
  | some x => rw [List.inj_on_of_nodup_map ob.nodup (mem_of_find? hf) h (name_of_find? hf)]

theorem find?_eq_some_iff : ob.find? k = some a ↔ a ∈ ob.atoms ∧ name a = k := by
  constructor
  · exact fun h => ⟨mem_of_find? h, name_of_find? h⟩
  · rintro ⟨h, rfl⟩
    exact find?_of_mem h

theorem find?_eq_none_iff : ob.find? k = none ↔ ∀ a ∈ ob.atoms, name a ≠ k := by
  unfold find?
  rw [List.find?_eq_none]
  simp

theorem find?_empty : (empty : Obarray name).find? k = none := rfl

theorem mem_intern {bucket : K → Nat} (h : ob.find? (name b) = none) :
    a ∈ (ob.intern bucket b).atoms ↔ a = b ∨ a ∈ ob.atoms := by
  unfold intern
  rw [dif_pos h]
  simp only [List.mem_append, List.mem_cons]
  rw [or_left_comm, ← List.mem_append, List.takeWhile_append_dropWhile]

theorem find?_intern {bucket : K → Nat} (h : ob.find? (name b) = none) :
    (ob.intern bucket b).find? k = if k = name b then some b else ob.find? k := by
  split
  · rename_i hk
    rw [hk]
    exact find?_of_mem ((mem_intern h).2 (Or.inl rfl))
  · rename_i hk
    cases hf : ob.find? k with
    | none =>
      rw [find?_eq_none_iff] at hf ⊢
      intro x hx
      rcases (mem_intern h).1 hx with rfl | hx
      · exact fun he => hk he.symm
      · exact hf x hx
    | some x =>
      rw [find?_eq_some_iff] at hf ⊢
      exact ⟨(mem_intern h).2 (Or.inr hf.1), hf.2⟩

theorem find?_unintern {k' : K} : (ob.unintern k').find? k = if k = k' then none else ob.find? k := by
  split
  · rename_i hk
    rw [find?_eq_none_iff]
    intro x hx
    have := (List.mem_filter.1 hx).2
    simpa [hk] using this
  · rename_i hk
    cases hf : ob.find? k with
    | none =>
      rw [find?_eq_none_iff] at hf ⊢
      exact fun x hx => hf x (List.mem_of_mem_filter hx)
    | some x =>
      rw [find?_eq_some_iff] at hf ⊢
      refine ⟨List.mem_filter.2 ⟨hf.1, ?_⟩, hf.2⟩
      simpa [hf.2] using hk

theorem find?_mapAtoms {f : α → α} {hf : ∀ a, name (f a) = name a} : (ob.mapAtoms f hf).find? k = (ob.find? k).map f := by
  have hp : ((fun a => decide (name a = k)) ∘ f) = fun a => decide (name a = k) :=
    funext fun a => by rw [Function.comp, hf]
  unfold find? mapAtoms
  rw [List.find?_map, hp]

/-- The symbols stay in their order. -/
theorem map_name_set : (ob.set b).atoms.map name = ob.atoms.map name := by
  unfold set mapAtoms
  rw [List.map_map]
  apply List.map_congr_left
  intro x _
  rw [Function.comp]
  split
  · rename_i h
    exact h.symm
  · rfl

theorem find?_set : (ob.set b).find? k = if k = name b then (ob.find? k).map fun _ => b else ob.find? k := by
  unfold set
  rw [find?_mapAtoms]
  cases hf : ob.find? k with
  | none => simp
  | some x =>
    have hx := name_of_find? hf
    by_cases hk : k = name b
    · simp [hx, hk]
    · simp [hx, hk]

end Obarray
