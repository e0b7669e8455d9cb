/-!
# Commands

A command runs on a state and exits with a value or with a signal.  A signal keeps the state reached so far, as an
editor keeps the changes it made before an error.  The only way not to exit is an exhausted loop bound, written
`none`.

`wp c Q E s` says that `c` exits from `s`, with `Q` for a value and `E` for a signal.  The rule for loops
(`wp_whileLoop`) takes an invariant and a measure that every round makes smaller, so what it proves includes
termination for every bound above the measure.
-/

/-- A command with signals `ε` on states `σ`. -/
def Command (ε σ α : Type) : Type := σ → Option (Except ε α × σ)

namespace Command

variable {ε σ α β : Type}

protected def pure (a : α) : Command ε σ α := fun s => some (.ok a, s)

protected def bind (c : Command ε σ α) (f : α → Command ε σ β) : Command ε σ β := fun s =>
  match c s with
  | none => none
  | some (.error e, s') => some (.error e, s')
  | some (.ok a, s') => f a s'

instance : Monad (Command ε σ) where
  pure := Command.pure
  bind := Command.bind

/-- Exit with a signal. -/
def signal (e : ε) : Command ε σ α := fun s => some (.error e, s)

/-- Read the state. -/
def gets (f : σ → α) : Command ε σ α := fun s => some (.ok (f s), s)

/-- Change the state. -/
def update (f : σ → σ) : Command ε σ Unit := fun s => some (.ok (), f s)

/-- Run the command if the test has held. -/
def when (b : Bool) (c : Command ε σ Unit) : Command ε σ Unit := if b then c else pure ()

/-- A while loop that carries a local variable, with a bound on the number of tests. -/
def whileLoop (test : β → Command ε σ Bool) (body : β → Command ε σ β) : Nat → β → Command ε σ β
  | 0, _ => fun _ => none
  | n + 1, b => do
    if ← test b then
      let b' ← body b
      whileLoop test body n b'
    else
      pure b

/-- The same command `n` times in a row. -/
def times (c : Command ε σ Unit) : Nat → Command ε σ Unit
  | 0 => pure ()
  | n + 1 => c >>= fun _ => times c n

/-- Total weakest precondition. -/
def wp (c : Command ε σ α) (Q : α → σ → Prop) (E : ε → σ → Prop) (s : σ) : Prop :=
  match c s with
  | none => False
  | some (.ok a, s') => Q a s'
  | some (.error e, s') => E e s'

/-! ### Equations -/

theorem pure_apply (a : α) (s : σ) : (pure a : Command ε σ α) s = some (.ok a, s) := rfl

theorem bind_apply (c : Command ε σ α) (f : α → Command ε σ β) (s : σ) :
    (c >>= f) s = match c s with
      | none => none
      | some (.error e, s') => some (.error e, s')
      | some (.ok a, s') => f a s' := rfl

theorem bind_ok {c : Command ε σ α} {f : α → Command ε σ β} {s s' : σ} {a : α} (h : c s = some (.ok a, s')) :
    (c >>= f) s = f a s' := by
  rw [bind_apply, h]

theorem bind_error {c : Command ε σ α} {f : α → Command ε σ β} {s s' : σ} {e : ε}
    (h : c s = some (.error e, s')) : (c >>= f) s = some (.error e, s') := by
  rw [bind_apply, h]

/-- A bind that exits normally exits normally twice. -/
theorem bind_eq_ok_iff {c : Command ε σ α} {f : α → Command ε σ β} {s t : σ} {b : β} :
    (c >>= f) s = some (.ok b, t) ↔ ∃ a s', c s = some (.ok a, s') ∧ f a s' = some (.ok b, t) := by
  constructor
  · intro h
    rw [bind_apply] at h
    split at h
    · cases h
    · cases h
    · rename_i a s' hc
      exact ⟨a, s', hc, h⟩
  · rintro ⟨a, s', hc, hf⟩
    rw [bind_ok hc, hf]

/-- A bind signals if its first command does, or its second one after the first has returned. -/
theorem bind_eq_error_iff {c : Command ε σ α} {f : α → Command ε σ β} {s t : σ} {e : ε} :
    (c >>= f) s = some (.error e, t) ↔
      c s = some (.error e, t) ∨ ∃ a s', c s = some (.ok a, s') ∧ f a s' = some (.error e, t) := by
  constructor
  · intro h
    rw [bind_apply] at h
    split at h
    · cases h
    · rename_i e' s' hc
      cases h
      exact Or.inl hc
    · rename_i a s' hc
      exact Or.inr ⟨a, s', hc, h⟩
  · rintro (hc | ⟨a, s', hc, hf⟩)
    · exact bind_error hc
    · rw [bind_ok hc, hf]

/-- A command whose value is thrown away leaves the same state. -/
theorem exists_of_bind_pure {c : Command ε σ α} {b : β} {r : Except ε β} {s t : σ}
    (h : (c >>= fun _ => pure b) s = some (r, t)) : ∃ r', c s = some (r', t) := by
  rw [bind_apply] at h
  split at h
  · cases h
  · rename_i e s' hc
    cases h
    exact ⟨.error e, hc⟩
  · rename_i a s' hc
    cases h
    exact ⟨.ok a, hc⟩

/-- A command exits in one state. -/
theorem state_unique {c : Command ε σ α} {a a' : α} {s s₁ s₂ : σ} (h : c s = some (.ok a, s₁))
    (h' : c s = some (.ok a', s₂)) : s₁ = s₂ :=
  (Prod.mk.inj (Option.some.inj (h.symm.trans h'))).2

section Preserves

variable {P : σ → Prop}

/-- The command keeps what holds of the state, however it exits. -/
def Preserves (P : σ → Prop) (c : Command ε σ α) : Prop := ∀ s r s', c s = some (r, s') → P s → P s'

theorem preserves_pure (a : α) : Preserves P (pure a : Command ε σ α) := by
  intro s r s' h
  cases h
  exact id

theorem preserves_signal (e : ε) : Preserves P (signal e : Command ε σ α) := by
  intro s r s' h
  cases h
  exact id

theorem preserves_gets (g : σ → α) : Preserves P (gets g : Command ε σ α) := by
  intro s r s' h
  cases h
  exact id

theorem preserves_update {g : σ → σ} (hg : ∀ s, P s → P (g s)) : Preserves P (update g : Command ε σ Unit) := by
  intro s r s' h
  cases h
  exact hg s

theorem Preserves.bind {c : Command ε σ α} {k : α → Command ε σ β} (hc : Preserves P c)
    (hk : ∀ a, Preserves P (k a)) : Preserves P (c >>= k) := by
  intro s r s' h hs
  rw [bind_apply] at h
  split at h
  · cases h
  · rename_i e s₁ h₁
    cases h
    exact hc _ _ _ h₁ hs
  · rename_i a s₁ h₁
    exact hk a _ _ _ h (hc _ _ _ h₁ hs)

theorem Preserves.whileLoop {test : β → Command ε σ Bool} {body : β → Command ε σ β}
    (ht : ∀ b, Preserves P (test b)) (hb : ∀ b, Preserves P (body b)) (n : Nat) (b : β) :
    Preserves P (whileLoop test body n b) := by
  induction n generalizing b with
  | zero =>
    intro s r s' h
    cases h
  | succ n ih =>
    apply (ht b).bind
    intro t
    cases t with
    | false => exact preserves_pure b
    | true => exact (hb b).bind ih

end Preserves

section Keeps

variable {τ : Type} {f : σ → τ}

/-- The command leaves the value of `f` as it is, however it exits. -/
def Keeps (f : σ → τ) (c : Command ε σ α) : Prop := ∀ s r s', c s = some (r, s') → f s' = f s

theorem keeps_iff_preserves {c : Command ε σ α} : Keeps f c ↔ ∀ v, Preserves (fun s => f s = v) c := by
  constructor
  · intro hc v s r s' h hs
    exact (hc s r s' h).trans hs
  · intro hc s r s' h
    exact hc (f s) s r s' h rfl

theorem keeps_gets (g : σ → α) : Keeps f (gets g : Command ε σ α) :=
  keeps_iff_preserves.2 fun _ => preserves_gets g

theorem keeps_update {g : σ → σ} (hg : ∀ s, f (g s) = f s) : Keeps f (update g : Command ε σ Unit) :=
  keeps_iff_preserves.2 fun _ => preserves_update fun s hs => (hg s).trans hs

theorem Keeps.bind {c : Command ε σ α} {k : α → Command ε σ β} (hc : Keeps f c) (hk : ∀ a, Keeps f (k a)) :
    Keeps f (c >>= k) :=
  keeps_iff_preserves.2 fun v => (keeps_iff_preserves.1 hc v).bind fun a => keeps_iff_preserves.1 (hk a) v

theorem keeps_pure (a : α) : Keeps f (pure a : Command ε σ α) :=
  keeps_iff_preserves.2 fun _ => preserves_pure a

theorem Keeps.whileLoop {test : β → Command ε σ Bool} {body : β → Command ε σ β} (ht : ∀ b, Keeps f (test b))
    (hb : ∀ b, Keeps f (body b)) (n : Nat) (b : β) : Keeps f (whileLoop test body n b) :=
  keeps_iff_preserves.2 fun v =>
    Preserves.whileLoop (fun b => keeps_iff_preserves.1 (ht b) v) (fun b => keeps_iff_preserves.1 (hb b) v) n b

end Keeps

section Loop

variable {test : β → Command ε σ Bool} {body : β → Command ε σ β}

theorem whileLoop_succ (n : Nat) (b : β) (s : σ) :
    whileLoop test body (n + 1) b s =
      (test b >>= fun t => if t then body b >>= whileLoop test body n else pure b) s := rfl

theorem whileLoop_done {n : Nat} {b : β} {s s' : σ} (h : test b s = some (.ok false, s')) :
    whileLoop test body (n + 1) b s = some (.ok b, s') := by
  rw [whileLoop_succ, bind_ok h]
  rfl

theorem whileLoop_round {n : Nat} {b b' : β} {s s₁ s₂ : σ} (ht : test b s = some (.ok true, s₁))
    (hb : body b s₁ = some (.ok b', s₂)) :
    whileLoop test body (n + 1) b s = whileLoop test body n b' s₂ := by
  rw [whileLoop_succ, bind_ok ht]
  exact bind_ok hb

theorem whileLoop_signal {n : Nat} {b : β} {e : ε} {s s₁ s₂ : σ} (ht : test b s = some (.ok true, s₁))
    (hb : body b s₁ = some (.error e, s₂)) :
    whileLoop test body (n + 1) b s = some (.error e, s₂) := by
  rw [whileLoop_succ, bind_ok ht]
  exact bind_error hb

end Loop

/-- A command that makes `μ` smaller whenever `μ` is not zero brings it to zero by repetition. -/
theorem exists_times {c : Command ε σ Unit} (I : σ → Prop) (μ : σ → Nat)
    (h : ∀ s, I s → μ s ≠ 0 → ∃ s', c s = some (.ok (), s') ∧ I s' ∧ μ s' < μ s) (s : σ) (hs : I s) :
    ∃ n s', n ≤ μ s ∧ times c n s = some (.ok (), s') ∧ I s' ∧ μ s' = 0 := by
  induction hm : μ s using Nat.strongRecOn generalizing s with
  | _ m ih =>
    by_cases h0 : μ s = 0
    · exact ⟨0, s, Nat.zero_le m, rfl, hs, h0⟩
    · obtain ⟨s₁, hc, hI, hlt⟩ := h s hs h0
      obtain ⟨n, s', hn, hrun, hI', h0'⟩ := ih (μ s₁) (by omega) s₁ hI rfl
      refine ⟨n + 1, s', by omega, ?_, hI', h0'⟩
      show (c >>= fun _ => times c n) s = _
      rw [bind_ok hc, hrun]

section Below

variable {c c' : Command ε σ α} {k k' : α → Command ε σ β}

/-- Wherever the first command exits, the second one does the same. -/
def Below (c c' : Command ε σ α) : Prop := ∀ s r, c s = some r → c' s = some r

theorem below_refl (c : Command ε σ α) : Below c c := fun _ _ h => h

theorem Below.bind (hc : Below c c') (hk : ∀ a, Below (k a) (k' a)) : Below (c >>= k) (c' >>= k') := by
  intro s r h
  rw [bind_apply] at h ⊢
  split at h
  · cases h
  · rename_i e s₁ h₁
    rw [hc _ _ h₁]
    exact h
  · rename_i a s₁ h₁
    rw [hc _ _ h₁]
    exact hk a _ _ h

/-- What a loop computes does not depend on a bound that suffices. -/
theorem below_whileLoop {test : β → Command ε σ Bool} {body : β → Command ε σ β} {m n : Nat} (h : m ≤ n) (b : β) :
    Below (whileLoop test body m b) (whileLoop test body n b) := by
  induction m generalizing n b with
  | zero =>
    intro s r h
    cases h
  | succ m ih =>
    obtain ⟨n, rfl⟩ := Nat.exists_eq_succ_of_ne_zero (show n ≠ 0 by omega)
    apply (below_refl (test b)).bind
    intro t
    cases t with
    | false => exact below_refl _
    | true => exact (below_refl (body b)).bind fun b' => ih (by omega) b'

end Below

/-! ### Rules for `wp` -/

section Rules

variable {Q Q' : α → σ → Prop} {E E' : ε → σ → Prop} {s : σ}

@[simp] theorem wp_pure (a : α) : wp (pure a : Command ε σ α) Q E s ↔ Q a s := Iff.rfl

@[simp] theorem wp_signal (e : ε) : wp (signal e : Command ε σ α) Q E s ↔ E e s := Iff.rfl

@[simp] theorem wp_gets (f : σ → α) : wp (gets f : Command ε σ α) Q E s ↔ Q (f s) s := Iff.rfl

@[simp] theorem wp_update {Q : Unit → σ → Prop} (f : σ → σ) :
    wp (update f : Command ε σ Unit) Q E s ↔ Q () (f s) := Iff.rfl

@[simp] theorem wp_bind {c : Command ε σ β} {f : β → Command ε σ α} :
    wp (c >>= f) Q E s ↔ wp c (fun a s' => wp (f a) Q E s') E s := by
  unfold wp
  rw [bind_apply]
  rcases c s with _ | ⟨_ | _, _⟩ <;> rfl

@[simp] theorem wp_when_true {c : Command ε σ Unit} {Q : Unit → σ → Prop} : wp (when true c) Q E s ↔ wp c Q E s := Iff.rfl

@[simp] theorem wp_when_false {c : Command ε σ Unit} {Q : Unit → σ → Prop} : wp (when false c) Q E s ↔ Q () s := Iff.rfl

theorem wp_when {c : Command ε σ Unit} {Q : Unit → σ → Prop} {b : Bool} (hrun : b = true → wp c Q E s)
    (hskip : b = false → Q () s) : wp (when b c) Q E s := by
  cases b with
  | false => exact hskip rfl
  | true => exact hrun rfl

theorem wp_mono {c : Command ε σ α} (h : wp c Q E s) (hQ : ∀ a s', Q a s' → Q' a s')
    (hE : ∀ e s', E e s' → E' e s') : wp c Q' E' s := by
  unfold wp at h ⊢
  rcases hc : c s with _ | ⟨_ | _, _⟩ <;> rw [hc] at h
  · exact h
  · exact hE _ _ h
  · exact hQ _ _ h

/-- What a postcondition determines is what the command computes. -/
theorem eq_of_wp {c : Command ε σ α} {r : Except ε α × σ}
    (h : wp c (fun a s' => (.ok a, s') = r) (fun e s' => (.error e, s') = r) s) : c s = some r := by
  unfold wp at h
  rcases hc : c s with _ | ⟨_ | _, _⟩ <;> rw [hc] at h
  · exact h.elim
  · rw [h]
  · rw [h]

theorem wp_of_eq_ok {c : Command ε σ α} {a : α} {s' : σ} (h : c s = some (.ok a, s')) :
    wp c Q E s ↔ Q a s' := by
  unfold wp
  rw [h]

theorem wp_of_eq_error {c : Command ε σ α} {e : ε} {s' : σ} (h : c s = some (.error e, s')) :
    wp c Q E s ↔ E e s' := by
  unfold wp
  rw [h]

/-- The loop rule: `I` holds at every test, `μ` drops in every round, and a bound above `μ` is never exhausted. -/
theorem wp_whileLoop {test : β → Command ε σ Bool} {body : β → Command ε σ β} {Q : β → σ → Prop}
    (I : β → σ → Prop) (μ : β → σ → Nat)
    (h : ∀ b s, I b s → wp (test b) (fun t s' =>
      if t then wp (body b) (fun b' s'' => I b' s'' ∧ μ b' s'' < μ b s) E s' else Q b s') E s) :
    ∀ {n : Nat} {b : β} {s : σ}, I b s → μ b s < n → wp (whileLoop test body n b) Q E s := by
  intro n
  induction n with
  | zero => intro b s _ hn; omega
  | succ n ih =>
    intro b s hI hn
    show wp (test b >>= fun t => if t then body b >>= whileLoop test body n else pure b) Q E s
    rw [wp_bind]
    refine wp_mono (h b s hI) ?_ (fun _ _ h' => h')
    intro t s' ht
    cases t with
    | false => exact ht
    | true =>
      show wp (body b >>= whileLoop test body n) Q E s'
      rw [wp_bind]
      refine wp_mono ht ?_ (fun _ _ h' => h')
      intro b' s'' hb
      exact ih hb.1 (by omega)

end Rules

/-! ### Loops over total functions -/

/-- The meaning of a loop whose test and body are total functions, without a bound. -/
inductive WhileRuns (test : β → σ → Bool) (body : β → σ → Except ε β × σ) : β → σ → Except ε β × σ → Prop
  | done {b : β} {s : σ} : test b s = false → WhileRuns test body b s (.ok b, s)
  | signal {b : β} {s s' : σ} {e : ε} : test b s = true → body b s = (.error e, s') →
      WhileRuns test body b s (.error e, s')
  | round {b b' : β} {s s' : σ} {r : Except ε β × σ} : test b s = true → body b s = (.ok b', s') →
      WhileRuns test body b' s' r → WhileRuns test body b s r

namespace WhileRuns

variable {test : β → σ → Bool} {body : β → σ → Except ε β × σ}

theorem deterministic {b : β} {s : σ} {r r' : Except ε β × σ} (h : WhileRuns test body b s r)
    (h' : WhileRuns test body b s r') : r = r' := by
  induction h with
  | done ht =>
    cases h' with
    | done _ => rfl
    | signal ht' _ => rw [ht] at ht'; cases ht'
    | round ht' _ _ => rw [ht] at ht'; cases ht'
  | signal ht hb =>
    cases h' with
    | done ht' => rw [ht] at ht'; cases ht'
    | signal _ hb' => rw [hb] at hb'; cases hb'; rfl
    | round _ hb' _ => rw [hb] at hb'; cases hb'
  | round ht hb _ ih =>
    cases h' with
    | done ht' => rw [ht] at ht'; cases ht'
    | signal _ hb' => rw [hb] at hb'; cases hb'
    | round _ hb' h' => rw [hb] at hb'; cases hb'; exact ih h'

/-- A measure that every round makes smaller ends the loop. -/
theorem exists_run (μ : β → σ → Nat)
    (hμ : ∀ b s b' s', test b s = true → body b s = (.ok b', s') → μ b' s' < μ b s) (b : β) (s : σ) :
    ∃ r, WhileRuns test body b s r := by
  suffices h : ∀ n b s, μ b s < n → ∃ r, WhileRuns test body b s r from h _ b s (Nat.lt_succ_self _)
  intro n
  induction n with
  | zero => intro b s hn; omega
  | succ n ih =>
    intro b s hn
    cases ht : test b s with
    | false => exact ⟨_, .done ht⟩
    | true =>
      rcases hb : body b s with ⟨e | b', s'⟩
      · exact ⟨_, .signal ht hb⟩
      · have := hμ b s b' s' ht hb
        obtain ⟨r, hr⟩ := ih b' s' (by omega)
        exact ⟨r, .round ht hb hr⟩

/-- Bounded loops compute the meaning, when their test and body do so on states of measure below `N`. -/
theorem whileLoop_eq {ctest : β → Command ε σ Bool} {cbody : β → Command ε σ β} {μ : β → σ → Nat} {N : Nat}
    (hct : ∀ b s, ctest b s = some (.ok (test b s), s))
    (hcb : ∀ b s, μ b s < N → cbody b s = some (body b s))
    (hμ : ∀ b s b' s', test b s = true → body b s = (.ok b', s') → μ b' s' < μ b s)
    {b : β} {s : σ} {r : Except ε β × σ} (h : WhileRuns test body b s r) :
    ∀ {n : Nat}, μ b s < N → μ b s < n → whileLoop ctest cbody n b s = some r := by
  induction h with
  | done ht =>
    intro n _ hn
    obtain ⟨n, rfl⟩ := Nat.exists_eq_succ_of_ne_zero (Nat.ne_of_gt (Nat.zero_lt_of_lt hn))
    exact whileLoop_done (by rw [hct, ht])
  | signal ht hb =>
    intro n hN hn
    obtain ⟨n, rfl⟩ := Nat.exists_eq_succ_of_ne_zero (Nat.ne_of_gt (Nat.zero_lt_of_lt hn))
    exact whileLoop_signal (by rw [hct, ht]) (by rw [hcb _ _ hN, hb])
  | round ht hb _ ih =>
    intro n hN hn
    obtain ⟨n, rfl⟩ := Nat.exists_eq_succ_of_ne_zero (Nat.ne_of_gt (Nat.zero_lt_of_lt hn))
    have := hμ _ _ _ _ ht hb
    rw [whileLoop_round (by rw [hct, ht]) (by rw [hcb _ _ hN, hb])]
    exact ih (by omega) (by omega)

end WhileRuns

end Command
