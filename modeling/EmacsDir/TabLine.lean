import EmacsDir.TabRuns

/-!
# Drawing the header line

Drawing the header line keeps the labels of the visible tabs, and after the selection of another tab it scrolls the tab
set just as far as needed to show the selected tab (`Scrolled`).  Both loops end (`wp_lineFormat`).
-/

namespace EmacsDir

open Command

namespace AwesomeTab

variable {B : Type} [DecidableEq B]

/-! ### Drawing -/

section Scroll

variable {ts : Tabset B} {f : Focus B}

omit [DecidableEq B] in
theorem length_tabs (h : ts.Shows f) : ts.tabs.length = f.others.length + 1 := by
  rw [h.tabs, List.length_map, f.length_toList]

omit [DecidableEq B] in
theorem shows_scroll (h : ts.Shows f) (count : Int) : (ts.scroll count).Shows f := by
  unfold Tabset.scroll
  dsimp only
  split
  · exact ⟨h.tabs, h.select⟩
  · exact h

omit [DecidableEq B] in
theorem name_scroll (ts : Tabset B) (count : Int) : (ts.scroll count).name = ts.name := by
  unfold Tabset.scroll
  dsimp only
  split <;> rfl

omit [DecidableEq B] in
theorem start_scroll (ts : Tabset B) (count : Int) :
    (ts.scroll count).start = min (max 0 (ts.start + count)) (ts.tabs.length - 1) := by
  unfold Tabset.scroll
  dsimp only
  split
  · rfl
  · rename_i h
    exact (not_not.1 h).symm

/-- The selected tab is visible if it does not stand before the first visible one. -/
theorem view_any (h : ts.Shows f) :
    (ts.view.any fun tab => ts.select = some tab) = decide (ts.start.toNat ≤ f.position) := by
  have hleft : ∀ tab ∈ f.left.reverse.map fun b => Tab.mk b ts.name, tab ≠ ⟨f.here, ts.name⟩ := by
    intro tab htab
    obtain ⟨b, hb, rfl⟩ := List.mem_map.1 htab
    have hne : b ≠ f.here := fun he => f.here_notMem_left (by rwa [← he, ← List.mem_reverse])
    simpa using hne
  have hright : ∀ tab ∈ f.right.map fun b => Tab.mk b ts.name, tab ≠ ⟨f.here, ts.name⟩ := by
    intro tab htab
    obtain ⟨b, hb, rfl⟩ := List.mem_map.1 htab
    have hne : b ≠ f.here := fun he => f.here_notMem_right (he ▸ hb)
    simpa using hne
  have hlength : (f.left.reverse.map fun b => Tab.mk b ts.name).length = f.position := by
    rw [List.length_map, List.length_reverse]
    rfl
  rw [Bool.eq_iff_iff, List.any_eq_true, decide_eq_true_eq]
  unfold Tabset.view
  rw [tabs_split h, List.drop_append, hlength]
  constructor
  · rintro ⟨tab, htab, hsel⟩
    rw [decide_eq_true_eq, h.select, Option.some.injEq] at hsel
    subst hsel
    by_contra hlt
    rw [List.mem_append] at htab
    obtain htab | htab := htab
    · exact hleft _ (List.mem_of_mem_drop htab) rfl
    · obtain ⟨k, hk⟩ : ∃ k, ts.start.toNat - f.position = k + 1 := ⟨ts.start.toNat - f.position - 1, by omega⟩
      rw [hk, List.drop_succ_cons] at htab
      exact hright _ (List.mem_of_mem_drop htab) rfl
  · intro hle
    refine ⟨⟨f.here, ts.name⟩, ?_, by rw [h.select, decide_eq_true_eq]⟩
    rw [show ts.start.toNat - f.position = 0 by omega, List.drop_zero]
    exact List.mem_append_right _ List.mem_cons_self

end Scroll

section Line

variable {ed : Editor B} {ts : Tabset B} {f : Focus B}

/-- The labels of the tabs from one place to another. -/
def labelsTo (ed : Editor B) (ts : Tabset B) (p k : Nat) : List (TabLabel B) :=
  ((ts.tabs.take (p + 1)).drop k).map (lineTab ed ts)

theorem throughSelected_append {x : Tab B} {u v : List (Tab B)} (h : x ∉ u) :
    throughSelected (some x) (u ++ x :: v) = (u ++ [x], v) := by
  induction u with
  | nil => simp [throughSelected]
  | cons y u ih =>
    have hne : ¬ some y = some x := fun he => h (by rw [Option.some.inj he]; exact List.mem_cons_self)
    rw [List.cons_append, throughSelected, if_neg hne, ih fun hm => h (List.mem_cons_of_mem y hm)]
    rfl

/-- The visible tabs are those up to the selected one, and the tabs on its right. -/
theorem throughSelected_view (h : ts.Shows f) (hle : ts.start.toNat ≤ f.position) :
    throughSelected ts.select ts.view =
      ((ts.tabs.take (f.position + 1)).drop ts.start.toNat, ts.tabs.drop (f.position + 1)) := by
  have hsplit := tabs_split h
  have hlength : (f.left.reverse.map fun b => Tab.mk b ts.name).length = f.position := by
    rw [List.length_map, List.length_reverse]
    rfl
  have hnot : (⟨f.here, ts.name⟩ : Tab B) ∉ (f.left.reverse.map fun b => Tab.mk b ts.name).drop ts.start.toNat := by
    intro hm
    obtain ⟨b, hb, he⟩ := List.mem_map.1 (List.mem_of_mem_drop hm)
    cases he
    exact f.here_notMem_left (List.mem_reverse.1 hb)
  unfold Tabset.view
  rw [h.select]
  generalize (f.left.reverse.map fun b => Tab.mk b ts.name) = u at hsplit hlength hnot
  generalize (f.right.map fun b => Tab.mk b ts.name) = v at hsplit
  rw [hsplit, List.drop_append_of_le_length (by omega), throughSelected_append hnot, ← hlength]
  have htake : (u ++ (⟨f.here, ts.name⟩ : Tab B) :: v).take (u.length + 1) = u ++ [⟨f.here, ts.name⟩] := by
    rw [List.take_length_add_append]
    rfl
  have hdrop : (u ++ (⟨f.here, ts.name⟩ : Tab B) :: v).drop (u.length + 1) = v := by
    rw [List.drop_length_add_append]
    rfl
  rw [htake, hdrop, List.drop_append_of_le_length (by omega)]

omit [DecidableEq B] in
theorem name_eq_of_shows {s : Tabset B} (h : ts.Shows f) (hs : s.Shows f) (hname : s.name = ts.name) :
    s.tabs = ts.tabs ∧ s.select = ts.select := by
  rw [hs.tabs, h.tabs, hs.select, h.select, hname]
  exact ⟨rfl, rfl⟩

theorem length_labelsTo (h : ts.Shows f) (k : Nat) : (labelsTo ed ts f.position k).length = f.position + 1 - k := by
  have hle : f.position + 1 ≤ ts.tabs.length := by
    rw [length_tabs h]
    have := f.position_le
    omega
  unfold labelsTo
  rw [List.length_map, List.length_drop, List.length_take, Nat.min_eq_left hle]

theorem tail_labelsTo (p k : Nat) : (labelsTo ed ts p k).tail = labelsTo ed ts p (k + 1) := by
  unfold labelsTo
  rw [← List.map_tail, List.tail_drop]

/-- Where drawing scrolls a tab set with the selected tab at the place `p` and the first visible one at `s`: to the left
until the selected tab is visible, and then to the right as long as the labels up to it take more than one line. -/
structure Scrolled (ed : Editor B) (ts : Tabset B) (s p k : Nat) : Prop where
  start_le : min s p ≤ k
  le_position : k ≤ p
  overflows : ∀ j, min s p ≤ j → j < k → ed.overflows (labelsTo ed ts p j) = true
  fits : k = p ∨ ed.overflows (labelsTo ed ts p k) = false

theorem wp_scrollLeft {n : Nat} (h : ts.Shows f) (hstart : 0 ≤ ts.start) (hn : ts.start.toNat < n) :
    wp (whileLoop (fun _ => gets fun ts => !(ts.view.any fun tab => ts.select = some tab))
        (fun _ => update (Tabset.scroll (-1))) n ())
      (fun _ s => s.name = ts.name ∧ s.Shows f ∧ s.start = min ts.start f.position)
      (fun _ _ => False : TabSignal → Tabset B → Prop) ts := by
  refine wp_whileLoop
    (fun _ s => s.name = ts.name ∧ s.Shows f ∧ 0 ≤ s.start ∧ s.start ≤ ts.start ∧ min ts.start f.position ≤ s.start)
    (fun _ s => s.start.toNat) ?_ ⟨rfl, h, hstart, Int.le_refl _, Int.min_le_left _ _⟩ hn
  rintro - s ⟨hname, hs, hpos, hle, hmin⟩
  rw [wp_gets, view_any hs]
  have hlength : (s.tabs.length : Int) - 1 = f.others.length := by
    rw [length_tabs hs]
    omega
  have hposition := f.position_le
  split
  · rename_i ht
    simp only [Bool.not_eq_true', decide_eq_false_iff_not] at ht
    rw [wp_update]
    have hscroll := start_scroll s (-1)
    rw [hlength] at hscroll
    refine ⟨⟨(name_scroll s (-1)).trans hname, shows_scroll hs (-1), ?_⟩, ?_⟩
    · omega
    · omega
  · rename_i ht
    simp only [Bool.not_eq_true', decide_eq_false_iff_not, not_not] at ht
    exact ⟨hname, hs, by omega⟩

theorem wp_scrollRight {n : Nat} {s : Tabset B} (h : ts.Shows f) (hname : s.name = ts.name) (hs : s.Shows f)
    (hstart : s.start = min ts.start f.position) (hpos : 0 ≤ ts.start) (hn : ts.tabs.length < n) :
    wp (whileLoop (fun elts : List (TabLabel B) => pure (decide (1 < elts.length) && ed.overflows elts))
        (fun elts => do
          update (Tabset.scroll 1)
          pure elts.tail) n (labelsTo ed ts f.position s.start.toNat))
      (fun elts (s : Tabset B) => s.name = ts.name ∧ s.Shows f ∧
        ∃ k : Nat, s.start = (k : Int) ∧ elts = labelsTo ed ts f.position k ∧ Scrolled ed ts ts.start.toNat f.position k)
      (fun _ _ => False : TabSignal → Tabset B → Prop) s := by
  have hlength := length_tabs h
  have hposition := f.position_le
  refine wp_whileLoop
    (fun elts (s : Tabset B) => s.name = ts.name ∧ s.Shows f ∧ ∃ k : Nat, s.start = (k : Int) ∧ elts = labelsTo ed ts f.position k ∧
      min ts.start.toNat f.position ≤ k ∧ k ≤ f.position ∧
      ∀ j, min ts.start.toNat f.position ≤ j → j < k → ed.overflows (labelsTo ed ts f.position j) = true)
    (fun elts _ => elts.length) ?_ ?_ ?_
  · rintro elts s ⟨hname, hs, k, hk, rfl, hmin, hle, hover⟩
    rw [wp_pure, length_labelsTo h]
    split
    · rename_i ht
      rw [Bool.and_eq_true, decide_eq_true_eq] at ht
      rw [wp_bind, wp_update, wp_pure, tail_labelsTo, length_labelsTo h]
      refine ⟨⟨(name_scroll s 1).trans hname, shows_scroll hs 1, k + 1, ?_, rfl, ?_, ?_, ?_⟩, ?_⟩
      · rw [start_scroll, length_tabs hs]
        omega
      · omega
      · omega
      · intro j hj hlt
        by_cases hjk : j = k
        · rw [hjk]
          exact ht.2
        · exact hover j hj (by omega)
      · omega
    · rename_i ht
      rw [Bool.and_eq_true, decide_eq_true_eq, not_and_or, Bool.not_eq_true] at ht
      refine ⟨hname, hs, k, hk, rfl, hmin, hle, hover, ?_⟩
      obtain ht | ht := ht
      · exact Or.inl (by omega)
      · exact Or.inr ht
  · refine ⟨hname, hs, s.start.toNat, ?_, rfl, ?_, ?_, ?_⟩
    · omega
    · omega
    · omega
    · intro j hj hlt
      omega
  · rw [length_labelsTo h]
    omega

theorem lineTab_congr {s : Tabset B} (hselect : s.select = ts.select) : lineTab ed s = lineTab ed ts := by
  funext tab
  unfold lineTab
  rw [hselect]

theorem Scrolled.congr {s : Tabset B} {j p k : Nat} (h : Scrolled ed ts j p k) (htabs : s.tabs = ts.tabs)
    (hselect : s.select = ts.select) : Scrolled ed s j p k := by
  have hlabels : labelsTo ed s = labelsTo ed ts := by
    funext p k
    unfold labelsTo
    rw [htabs, lineTab_congr hselect]
  exact ⟨h.start_le, h.le_position, by rw [hlabels]; exact h.overflows, by rw [hlabels]; exact h.fits⟩

/-- Drawing ends, scrolls just as far as needed, and keeps the labels of the visible tabs. -/
theorem wp_lineFormat (ed : Editor B) {n : Nat} (h : ts.Shows f) (hstart : 0 ≤ ts.start) (hn : ts.start.toNat < n)
    (hn' : ts.tabs.length < n) :
    wp (lineFormat ed true n)
      (fun _ s => s.name = ts.name ∧ s.Shows f ∧ s.template = some (s.view.map (lineTab ed s)) ∧
        ∃ k : Nat, s.start = (k : Int) ∧ Scrolled ed ts ts.start.toNat f.position k)
      (fun _ _ => False) ts := by
  unfold lineFormat
  rw [if_pos rfl, wp_bind]
  refine wp_mono (wp_scrollLeft h hstart hn) ?_ (fun _ _ h => h)
  rintro - s ⟨hname, hs, hmin⟩
  obtain ⟨htabs, hselect⟩ := name_eq_of_shows h hs hname
  have hle : s.start.toNat ≤ f.position := by omega
  rw [wp_bind, wp_gets]
  simp only [id, throughSelected_view hs hle]
  rw [wp_bind, htabs, lineTab_congr hselect]
  refine wp_mono (wp_scrollRight h hname hs hmin hstart hn') ?_ (fun _ _ h => h)
  rintro elts s' ⟨hname', hs', k, hk, rfl, hscrolled⟩
  obtain ⟨htabs', hselect'⟩ := name_eq_of_shows h hs' hname'
  rw [wp_update]
  refine ⟨hname', Tabset.shows_setTemplate hs' _, ?_, k, hk, hscrolled⟩
  -- the labels up to the selected tab and those on its right
  show some (labelsTo ed ts f.position k ++ _) = some (List.map (lineTab ed s') (List.drop s'.start.toNat s'.tabs))
  rw [lineTab_congr hselect', htabs', hk, Int.toNat_natCast, labelsTo, ← List.map_append]
  have hsplit := List.take_append_drop (f.position + 1) ts.tabs
  have hlength : (ts.tabs.take (f.position + 1)).length = f.position + 1 := by
    have hposition := f.position_le
    rw [List.length_take, length_tabs h]
    omega
  have hdrop : (ts.tabs.take (f.position + 1)).drop k ++ ts.tabs.drop (f.position + 1) = ts.tabs.drop k := by
    have hle' := hscrolled.le_position
    rw [← List.drop_append_of_le_length (by omega), hsplit]
  rw [hdrop]

theorem below_lineFormat {m n : Nat} (h : m ≤ n) (track : Bool) :
    Below (lineFormat ed track m) (lineFormat ed track n) := by
  unfold lineFormat
  cases track with
  | false => exact below_refl _
  | true =>
    apply (below_whileLoop h ()).bind
    intro _
    apply (below_refl (gets id)).bind
    intro ts
    exact (below_whileLoop h _).bind fun _ => below_refl _

/-- Drawing ends. -/
theorem lineFormat_exits (ed : Editor B) (track : Bool) {n : Nat} (h : ts.Shows f) (hstart : 0 ≤ ts.start)
    (hn : ts.start.toNat + ts.tabs.length < n) : ∃ s, lineFormat ed track n ts = some (.ok (), s) := by
  cases track with
  | false => exact ⟨_, rfl⟩
  | true =>
    have hwp := wp_lineFormat ed h hstart (n := n) (by omega) (by omega)
    unfold wp at hwp
    split at hwp
    · exact hwp.elim
    · rename_i s hrun
      exact ⟨s, hrun⟩
    · exact hwp.elim

/-- A header line that has been drawn. -/
theorem lineFormat_drawn {track : Bool} {n : Nat} {r : Except TabSignal Unit} {s : Tabset B} (h : ts.Shows f)
    (hstart : 0 ≤ ts.start) (hrun : lineFormat ed track n ts = some (r, s)) :
    r = .ok () ∧ s.name = ts.name ∧ s.Shows f ∧ 0 ≤ s.start ∧ s.template = some (s.view.map (lineTab ed s)) ∧
      (track = true → ∃ k : Nat, s.start = (k : Int) ∧ Scrolled ed ts ts.start.toNat f.position k) := by
  cases track with
  | false =>
    unfold lineFormat at hrun
    cases hrun
    exact ⟨rfl, rfl, Tabset.shows_setTemplate h _, hstart, rfl, fun hne => absurd hne Bool.false_ne_true⟩
  | true =>
    -- a bound that suffices gives the same
    have hmore := below_lineFormat (Nat.le_add_right n (ts.start.toNat + ts.tabs.length + 1)) true ts _ hrun
    have hwp := wp_lineFormat ed h hstart
      (show ts.start.toNat < n + (ts.start.toNat + ts.tabs.length + 1) by omega) (by omega)
    unfold wp at hwp
    rw [hmore] at hwp
    cases r with
    | error e => exact hwp.elim
    | ok u =>
      obtain ⟨hname, hs, htemplate, k, hk, hscrolled⟩ := hwp
      exact ⟨rfl, hname, hs, by omega, htemplate, fun _ => ⟨k, hk, hscrolled⟩⟩

end Line

end AwesomeTab

end EmacsDir
