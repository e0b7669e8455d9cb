/-!
# Runs

The runs of a labelled transition relation, with the invariant rule: what holds at the start and is kept by every
step holds after every run.
-/

/-- The labels of a run and the state after it. -/
inductive Runs {σ ι : Type} (step : σ → ι → σ → Prop) (start : σ) : List ι → σ → Prop
  | nil : Runs step start [] start
  | snoc {u : List ι} {a : ι} {s t : σ} : Runs step start u s → step s a t → Runs step start (u ++ [a]) t

namespace Runs

variable {σ ι : Type} {step : σ → ι → σ → Prop} {start s t : σ} {u : List ι} {a : ι}

/-- The last step of a run. -/
theorem last (h : Runs step start (u ++ [a]) t) : ∃ s, Runs step start u s ∧ step s a t := by
  generalize hv : u ++ [a] = v at h
  cases h with
  | nil => simp at hv
  | snoc hrun hstep =>
    obtain ⟨rfl, ha⟩ := List.append_inj' hv rfl
    obtain rfl : a = _ := by simpa using ha
    exact ⟨_, hrun, hstep⟩

theorem invariant (I : σ → Prop) (hstart : I start) (hstep : ∀ s a t, I s → step s a t → I t)
    (h : Runs step start u s) : I s := by
  induction h with
  | nil => exact hstart
  | snoc _ hs ih => exact hstep _ _ _ ih hs

/-- What a step establishes under the invariant holds after every run that ends with it. -/
theorem established (I : σ → Prop) (P : ι → σ → Prop) (hstart : I start)
    (hstep : ∀ s a t, I s → step s a t → I t ∧ P a t) (h : Runs step start (u ++ [a]) t) : P a t := by
  obtain ⟨s, hrun, hlast⟩ := h.last
  have hs : I s := hrun.invariant I hstart fun s a t hI hst => (hstep s a t hI hst).1
  exact (hstep s a t hs hlast).2

end Runs
