import EmacsDir.Ring
import EmacsDir.TabVisits

/-!
# Cycling through the tabs

In each scope the tabs lie in a ring: the tabs of the group, the selected tabs of the groups, or the tabs of all groups
row by row.  A command that cycles selects the next tab of the ring or the one before (`cycleTab_eq`), and the visit of
the selected buffer leaves the ring as it is.  So a run of such commands, forward and backward in any order, is a walk
around the ring (`cycle_run`), and no tab of the ring is left out (`cycle_visits`).
-/

namespace EmacsDir

open Command

namespace AwesomeTab

/-! ### One place further -/

section Next

variable {α : Type} [DecidableEq α]

theorem tabNextFrom_append {x : α} {u v : List α} (h : x ∉ u) (before : Bool) (last : Option α) :
    tabNextFrom x before last (u ++ x :: v) = if before then u.getLast?.or last else v.head? := by
  induction u generalizing last with
  | nil => simp [tabNextFrom]
  | cons y u ih =>
    have hne : y ≠ x := fun he => h (he ▸ List.mem_cons_self)
    rw [List.cons_append, tabNextFrom, if_neg hne, ih (fun hm => h (List.mem_cons_of_mem y hm)) (some y)]
    cases u with
    | nil => simp
    | cons z u =>
      obtain ⟨w, hw⟩ := Option.isSome_iff_exists.1 (List.getLast?_isSome.2 (List.cons_ne_nil z u))
      rw [List.getLast?_cons_cons, hw]
      rfl

theorem tabNext_append {x : α} {u v : List α} (h : x ∉ u) (before : Bool) :
    tabNext (u ++ x :: v) x before = if before then u.getLast? else v.head? := by
  rw [tabNext, tabNextFrom_append h, Option.or_none]

/-- The direction of a command as a number of places. -/
def places (backward : Bool) : Int := if backward then -1 else 1

/-- The next tab of a list, or the one at its other end. -/
theorem tabNext_or_endTab {l : List α} (h : l.Nodup) {x : α} (hx : x ∈ l) (backward : Bool) :
    (tabNext l x backward).or (endTab l backward) = some ((l.formPerm ^ places backward) x) := by
  obtain ⟨u, v, rfl, hu⟩ := List.eq_append_cons_of_mem hx
  rw [tabNext_append hu]
  cases backward with
  | false =>
    show v.head?.or (u ++ x :: v).head? = some (((u ++ x :: v).formPerm ^ (1 : Int)) x)
    rw [zpow_one]
    exact Ring.formPerm_next h
  | true =>
    show u.getLast?.or (u ++ x :: v).getLast? = some (((u ++ x :: v).formPerm ^ (-1 : Int)) x)
    rw [zpow_neg_one]
    exact Ring.formPerm_prev h

end Next

variable {B : Type} [DecidableEq B]

/-! ### The rings -/

/-- The tabs that a scope cycles through. -/
def ringTabs (scope : Scope) (tb : TabBar B) (ts : Tabset B) : List (Tab B) :=
  match scope with
  | .tabs => ts.tabs
  | .groups => if (getTabsetsTabset tb).length ≤ 1 then ts.tabs else getTabsetsTabset tb
  | .all => tb.tabsets.atoms.reverse.flatMap Tabset.tabs

section Rings

variable {tb : TabBar B} {bar : Bar B} {ts : Tabset B} {f : Focus B}

omit [DecidableEq B] in
theorem shows_of_mem (h : Consistent tb bar) (hts : ts ∈ tb.tabsets.atoms) : ∃ f, ts.Shows f := by
  have hfind := Obarray.find?_of_mem hts
  obtain ⟨hnone, -⟩ | ⟨ts', f, hsome, -, hshows⟩ := h.represents.cases ts.name
  · rw [hfind] at hnone
    cases hnone
  · rw [hfind] at hsome
    cases hsome
    exact ⟨f, hshows⟩

omit [DecidableEq B] in
theorem nodup_tabs (h : ts.Shows f) : ts.tabs.Nodup := by
  rw [h.tabs]
  exact f.nodup_toList.map (Tabset.tab_injective ts.name)

omit [DecidableEq B] in
theorem here_mem_tabs (h : ts.Shows f) : (⟨f.here, ts.name⟩ : Tab B) ∈ ts.tabs := by
  rw [h.tabs]
  exact List.mem_map_of_mem f.here_mem

omit [DecidableEq B] in
theorem tabset_of_mem (h : ts.Shows f) {tab : Tab B} (htab : tab ∈ ts.tabs) : tab.tabset = ts.name := by
  rw [h.tabs] at htab
  obtain ⟨b, -, rfl⟩ := List.mem_map.1 htab
  rfl

omit [DecidableEq B] in
/-- The selected tabs in the order of the rows. -/
theorem getTabsetsTabset_append (hts : ts.Shows f) {c d : List (Tabset B)}
    (hsplit : tb.tabsets.atoms.reverse = c ++ ts :: d) :
    getTabsetsTabset tb = c.filterMap Tabset.select ++ ⟨f.here, ts.name⟩ :: d.filterMap Tabset.select := by
  unfold getTabsetsTabset
  rw [hsplit, List.filterMap_append, List.filterMap_cons, hts.select]

omit [DecidableEq B] in
theorem nodup_names (tb : TabBar B) : (tb.tabsets.atoms.reverse.map Tabset.name).Nodup := by
  rw [List.map_reverse, List.nodup_reverse]
  exact tb.tabsets.nodup

omit [DecidableEq B] in
theorem nodup_getTabsetsTabset (h : Consistent tb bar) : (getTabsetsTabset tb).Nodup := by
  have hselect : ∀ ts ∈ tb.tabsets.atoms.reverse, ∀ tab, ts.select = some tab → tab.tabset = ts.name := by
    intro ts hts tab htab
    obtain ⟨f, hshows⟩ := shows_of_mem h (List.mem_reverse.1 hts)
    rw [hshows.select] at htab
    cases htab
    rfl
  have hnames := nodup_names tb
  unfold getTabsetsTabset
  generalize tb.tabsets.atoms.reverse = l at hselect hnames
  induction l with
  | nil => exact List.nodup_nil
  | cons ts l ih =>
    rw [List.map_cons, List.nodup_cons] at hnames
    have hrest := ih (fun ts' hts' => hselect ts' (List.mem_cons_of_mem ts hts')) hnames.2
    cases hsel : ts.select with
    | none => rwa [List.filterMap_cons_none hsel]
    | some tab =>
      rw [List.filterMap_cons_some hsel, List.nodup_cons]
      refine ⟨?_, hrest⟩
      intro hmem
      obtain ⟨ts', hts', hsel'⟩ := List.mem_filterMap.1 hmem
      apply hnames.1
      rw [← hselect ts List.mem_cons_self tab hsel, hselect ts' (List.mem_cons_of_mem ts hts') tab hsel']
      exact List.mem_map_of_mem hts'

omit [DecidableEq B] in
theorem nodup_allTabs (h : Consistent tb bar) : (tb.tabsets.atoms.reverse.flatMap Tabset.tabs).Nodup := by
  rw [List.nodup_flatMap]
  constructor
  · intro ts hts
    obtain ⟨f, hshows⟩ := shows_of_mem h (List.mem_reverse.1 hts)
    exact nodup_tabs hshows
  · have hnames := nodup_names tb
    rw [List.Nodup, List.pairwise_map] at hnames
    apply hnames.imp_of_mem
    intro ts ts' hts hts' hne tab htab htab'
    obtain ⟨f, hshows⟩ := shows_of_mem h (List.mem_reverse.1 hts)
    obtain ⟨f', hshows'⟩ := shows_of_mem h (List.mem_reverse.1 hts')
    exact hne ((tabset_of_mem hshows htab).symm.trans (tabset_of_mem hshows' htab'))

omit [DecidableEq B] in
theorem nodup_ringTabs (h : Consistent tb bar) (hts : ts.Shows f) (scope : Scope) : (ringTabs scope tb ts).Nodup := by
  cases scope with
  | tabs => exact nodup_tabs hts
  | groups =>
    show (if (getTabsetsTabset tb).length ≤ 1 then ts.tabs else getTabsetsTabset tb).Nodup
    split
    · exact nodup_tabs hts
    · exact nodup_getTabsetsTabset h
  | all => exact nodup_allTabs h

omit [DecidableEq B] in
theorem mem_getTabsetsTabset (hmem : ts ∈ tb.tabsets.atoms) (hts : ts.Shows f) :
    (⟨f.here, ts.name⟩ : Tab B) ∈ getTabsetsTabset tb :=
  List.mem_filterMap.2 ⟨ts, List.mem_reverse.2 hmem, hts.select⟩

omit [DecidableEq B] in
theorem mem_ringTabs (hmem : ts ∈ tb.tabsets.atoms) (hts : ts.Shows f) (scope : Scope) :
    (⟨f.here, ts.name⟩ : Tab B) ∈ ringTabs scope tb ts := by
  cases scope with
  | tabs => exact here_mem_tabs hts
  | groups =>
    show _ ∈ if (getTabsetsTabset tb).length ≤ 1 then ts.tabs else getTabsetsTabset tb
    split
    · exact here_mem_tabs hts
    · exact mem_getTabsetsTabset hmem hts
  | all => exact List.mem_flatMap.2 ⟨ts, List.mem_reverse.2 hmem, here_mem_tabs hts⟩

omit [DecidableEq B] in
/-- The tab at the end of the group of a selected tab. -/
theorem endTab_of_select (h : Consistent tb bar) {o : Option (Tabset B)} (ho : ∀ ts, o = some ts → ts ∈ tb.tabsets.atoms)
    (backward : Bool) :
    ((o.bind Tabset.select).bind fun tab => (tb.tabsets.find? tab.tabset).bind fun ts => endTab ts.tabs backward) =
      o.bind fun ts => endTab ts.tabs backward := by
  cases o with
  | none => rfl
  | some ts =>
    obtain ⟨f, hshows⟩ := shows_of_mem h (ho ts rfl)
    rw [Option.bind_some, hshows.select, Option.bind_some, Obarray.find?_of_mem (ho ts rfl)]

omit [DecidableEq B] in
/-- The selected tab of the next row, or of the first one. -/
theorem head?_or_select (h : Consistent tb bar) {l l' : List (Tabset B)} (hl : ∀ ts ∈ l ++ l', ts ∈ tb.tabsets.atoms) :
    (l.filterMap Tabset.select).head?.or (l'.filterMap Tabset.select).head? = (l.head?.or l'.head?).bind Tabset.select := by
  have hhead : ∀ l : List (Tabset B), (∀ ts ∈ l, ts ∈ tb.tabsets.atoms) →
      (l.filterMap Tabset.select).head? = l.head?.bind Tabset.select := by
    intro l hl
    cases l with
    | nil => rfl
    | cons ts l =>
      obtain ⟨f, hshows⟩ := shows_of_mem h (hl ts List.mem_cons_self)
      rw [List.filterMap_cons_some hshows.select, List.head?_cons, List.head?_cons, Option.bind_some, hshows.select]
  rw [hhead l fun ts hts => hl ts (List.mem_append_left l' hts),
    hhead l' fun ts hts => hl ts (List.mem_append_right l hts)]
  cases l with
  | nil => rfl
  | cons ts l =>
    obtain ⟨f, hshows⟩ := shows_of_mem h (hl ts (List.mem_append_left l' List.mem_cons_self))
    rw [List.head?_cons, Option.some_or, Option.bind_some, hshows.select, Option.some_or]

omit [DecidableEq B] in
theorem getLast?_or_select (h : Consistent tb bar) {l l' : List (Tabset B)} (hl : ∀ ts ∈ l ++ l', ts ∈ tb.tabsets.atoms) :
    (l.filterMap Tabset.select).getLast?.or (l'.filterMap Tabset.select).getLast? =
      (l.getLast?.or l'.getLast?).bind Tabset.select := by
  simp only [← List.head?_reverse, ← List.filterMap_reverse]
  apply head?_or_select h
  intro ts hts
  rw [List.mem_append, List.mem_reverse, List.mem_reverse, ← List.mem_append] at hts
  exact hl ts hts

/-- The near end of the group that follows. -/
theorem endTab_next_group (h : Consistent tb bar) (hts : ts.Shows f) {c d : List (Tabset B)}
    (hsplit : tb.tabsets.atoms.reverse = c ++ ts :: d) (backward : Bool) :
    (((tabNext (getTabsetsTabset tb) ⟨f.here, ts.name⟩ backward).or (endTab (getTabsetsTabset tb) backward)).bind
        fun tab => (tb.tabsets.find? tab.tabset).bind fun ts => endTab ts.tabs backward) =
      (if backward then c.getLast?.or (c ++ ts :: d).getLast? else d.head?.or (c ++ ts :: d).head?).bind
        fun ts => endTab ts.tabs backward := by
  have hselected := getTabsetsTabset_append hts hsplit
  have hatoms : ∀ i ∈ c ++ ts :: d, i ∈ tb.tabsets.atoms := by
    intro i hi
    rw [← hsplit] at hi
    exact List.mem_reverse.1 hi
  have hnot : (⟨f.here, ts.name⟩ : Tab B) ∉ c.filterMap Tabset.select := by
    have hnodup := nodup_getTabsetsTabset h
    rw [hselected, List.nodup_append] at hnodup
    intro hc
    exact hnodup.2.2 _ hc _ List.mem_cons_self rfl
  have hall : getTabsetsTabset tb = (c ++ ts :: d).filterMap Tabset.select := by
    rw [← hsplit]
    rfl
  rw [← endTab_of_select h, hselected, tabNext_append hnot, ← hselected, hall]
  · cases backward with
    | false =>
      simp only [endTab, Bool.false_eq_true, if_false]
      rw [head?_or_select h]
      intro i hi
      rw [List.mem_append] at hi
      apply hatoms
      rcases hi with hi | hi
      · simp [hi]
      · exact hi
    | true =>
      simp only [endTab, if_true]
      rw [getLast?_or_select h]
      intro i hi
      rw [List.mem_append] at hi
      apply hatoms
      rcases hi with hi | hi
      · simp [hi]
      · exact hi
  · intro i hi
    apply hatoms
    cases backward with
    | false =>
      simp only [Bool.false_eq_true, if_false, Option.or_eq_some_iff] at hi
      rcases hi with hi | ⟨-, hi⟩
      · simp [List.mem_of_head? hi]
      · exact List.mem_of_head? hi
    | true =>
      simp only [if_true, Option.or_eq_some_iff] at hi
      rcases hi with hi | ⟨-, hi⟩
      · simp [List.mem_of_getLast? hi]
      · exact List.mem_of_getLast? hi

/-- In the scope of all tabs the rows of the groups follow each other. -/
theorem cycleTab_all (h : Consistent tb bar) (hmem : ts ∈ tb.tabsets.atoms) (hts : ts.Shows f) (backward : Bool) :
    cycleTab backward .all tb ts =
      some (((tb.tabsets.atoms.reverse.flatMap Tabset.tabs).formPerm ^ places backward) ⟨f.here, ts.name⟩) := by
  obtain ⟨c, d, hsplit⟩ := List.append_of_mem (List.mem_reverse.2 hmem)
  obtain ⟨u, v, htabs, hu⟩ := List.eq_append_cons_of_mem (here_mem_tabs hts)
  have hne : ∀ i ∈ c ++ ts :: d, i.tabs ≠ [] := by
    intro i hi
    rw [← hsplit, List.mem_reverse] at hi
    obtain ⟨f', hshows⟩ := shows_of_mem h hi
    exact List.ne_nil_of_mem (here_mem_tabs hshows)
  have hnodup := nodup_allTabs h
  rw [hsplit] at hnodup ⊢
  have hrow : (c ++ ts :: d).flatMap Tabset.tabs =
      (c.flatMap Tabset.tabs ++ u) ++ ⟨f.here, ts.name⟩ :: (v ++ d.flatMap Tabset.tabs) := by
    rw [List.flatMap_append, List.flatMap_cons, htabs]
    simp
  unfold cycleTab
  simp only [hts.select, Option.bind_some, reduceCtorEq, false_and, if_false]
  rw [endTab_next_group h hts hsplit, htabs, tabNext_append hu]
  cases backward with
  | false =>
    rw [show places false = 1 from rfl, zpow_one]
    cases v with
    | cons y v =>
      have hnext := Ring.formPerm_next (hrow ▸ hnodup)
      rw [← hrow] at hnext
      exact hnext
    | nil => exact Ring.formPerm_next_row hne htabs hnodup
  | true =>
    rw [show places true = -1 from rfl, zpow_neg_one]
    cases u using List.reverseRecOn with
    | append_singleton u y =>
      have hprev := Ring.formPerm_prev (hrow ▸ hnodup)
      rw [← hrow] at hprev
      rw [← hprev]
      simp
    | nil =>
      rw [← Ring.formPerm_prev_row hne htabs hnodup]
      rfl

/-- Every command selects the next tab of its ring, or the one before. -/
theorem cycleTab_eq (h : Consistent tb bar) (hmem : ts ∈ tb.tabsets.atoms) (hts : ts.Shows f) (backward : Bool)
    (scope : Scope) :
    cycleTab backward scope tb ts = some (((ringTabs scope tb ts).formPerm ^ places backward) ⟨f.here, ts.name⟩) := by
  have htabs := tabNext_or_endTab (nodup_tabs hts) (here_mem_tabs hts) backward
  cases scope with
  | tabs =>
    unfold cycleTab ringTabs
    simp only [hts.select, Option.bind_some]
    exact htabs
  | groups =>
    unfold cycleTab ringTabs
    simp only [hts.select, Option.bind_some, true_and]
    by_cases hone : (getTabsetsTabset tb).length ≤ 1
    · simp only [hone, if_true]
      exact htabs
    · simp only [hone, if_false]
      exact tabNext_or_endTab (nodup_getTabsetsTabset h) (mem_getTabsetsTabset hmem hts) backward
  | all => exact cycleTab_all h hmem hts backward

end Rings

/-! ### The rings of a bar -/

/-- The tabs of a group. -/
def Bar.row (bar : Bar B) (g : List Char) : List (Tab B) := (bar.shown g).map fun b => ⟨b, g⟩

/-- The selected tab of a group. -/
def Bar.selected (bar : Bar B) (g : List Char) : Option (Tab B) := (bar g).map fun f => ⟨f.here, g⟩

/-- The ring of a scope, with the groups in their order. -/
def Bar.ring (bar : Bar B) (scope : Scope) (gs : List (List Char)) (g : List Char) : List (Tab B) :=
  match scope with
  | .tabs => bar.row g
  | .groups => if gs.length ≤ 1 then bar.row g else gs.filterMap bar.selected
  | .all => gs.flatMap bar.row

/-- The ring of a scope in the store, around the tab set of a group. -/
def cycleRing (scope : Scope) (tb : TabBar B) (g : List Char) : List (Tab B) :=
  ((tb.tabsets.find? g).map (ringTabs scope tb)).getD []

/-- The names of the groups in their order. -/
def groupNames (tb : TabBar B) : List (List Char) := tb.tabsets.atoms.reverse.map Tabset.name

section BarRings

variable {tb : TabBar B} {bar : Bar B} {scope : Scope} {gs : List (List Char)} {g : List Char} {tab : Tab B}

omit [DecidableEq B] in
theorem row_of_mem (h : Consistent tb bar) {ts : Tabset B} (hts : ts ∈ tb.tabsets.atoms) :
    bar.row ts.name = ts.tabs ∧ bar.selected ts.name = ts.select := by
  have hfind := Obarray.find?_of_mem hts
  obtain ⟨hnone, -⟩ | ⟨ts', f, hsome, hbar, hshows⟩ := h.represents.cases ts.name
  · rw [hfind] at hnone
    cases hnone
  · rw [hfind] at hsome
    cases hsome
    unfold Bar.row Bar.selected Bar.shown
    rw [hbar, hshows.tabs, hshows.select]
    exact ⟨rfl, rfl⟩

omit [DecidableEq B] in
theorem cycleRing_eq (h : Consistent tb bar) {f : Focus B} (hf : bar g = some f) :
    cycleRing scope tb g = bar.ring scope (groupNames tb) g := by
  obtain ⟨ts, hfind, rfl, hshows⟩ := h.find? hf
  have hrows : (groupNames tb).flatMap bar.row = tb.tabsets.atoms.reverse.flatMap Tabset.tabs := by
    unfold groupNames
    rw [List.flatMap_map]
    apply List.flatMap_congr
    intro ts hts
    exact (row_of_mem h (List.mem_reverse.1 hts)).1
  have hselected : (groupNames tb).filterMap bar.selected = getTabsetsTabset tb := by
    unfold groupNames getTabsetsTabset
    rw [List.filterMap_map]
    apply List.filterMap_congr
    intro ts hts
    exact (row_of_mem h (List.mem_reverse.1 hts)).2
  have hlength : (getTabsetsTabset tb).length = (groupNames tb).length := by
    unfold groupNames getTabsetsTabset
    rw [List.length_map, List.filterMap_length_eq_length]
    intro ts hts
    obtain ⟨f', hshows'⟩ := shows_of_mem h (List.mem_reverse.1 hts)
    rw [hshows'.select]
    rfl
  unfold cycleRing
  rw [hfind, Option.map_some, Option.getD_some]
  unfold ringTabs Bar.ring
  rw [hlength, (row_of_mem h (Obarray.mem_of_find? hfind)).1, hrows, hselected]

omit [DecidableEq B] in
/-- The tabs of a ring are tabs of their groups. -/
theorem mem_row_of_ring (h : tab ∈ bar.ring scope gs g) : tab.value ∈ bar.shown tab.tabset := by
  have hrow : ∀ k, tab ∈ bar.row k → tab.value ∈ bar.shown tab.tabset := by
    intro k hk
    obtain ⟨b, hb, rfl⟩ := List.mem_map.1 hk
    exact hb
  have hselected : tab ∈ gs.filterMap bar.selected → tab.value ∈ bar.shown tab.tabset := by
    intro hmem
    obtain ⟨k, -, hk⟩ := List.mem_filterMap.1 hmem
    obtain ⟨f, hf, rfl⟩ := Option.map_eq_some_iff.1 hk
    exact Bar.mem_shown.2 ⟨f, hf, f.here_mem⟩
  cases scope with
  | tabs => exact hrow g h
  | groups =>
    unfold Bar.ring at h
    dsimp only at h
    split at h
    · exact hrow g h
    · exact hselected h
  | all =>
    obtain ⟨k, -, hk⟩ := List.mem_flatMap.1 h
    exact hrow k hk

omit [DecidableEq B] in
/-- A ring is the same around each of its tabs. -/
theorem ring_of_mem (h : tab ∈ bar.ring scope gs g) : bar.ring scope gs tab.tabset = bar.ring scope gs g := by
  have hrow : tab ∈ bar.row g → tab.tabset = g := by
    intro hmem
    obtain ⟨b, -, rfl⟩ := List.mem_map.1 hmem
    rfl
  cases scope with
  | tabs => rw [hrow h]
  | groups =>
    unfold Bar.ring at h ⊢
    dsimp only at h ⊢
    by_cases hone : gs.length ≤ 1
    · rw [if_pos hone] at h
      rw [hrow h]
    · rw [if_neg hone, if_neg hone]
  | all => rfl

/-- The visit of a tab leaves its ring as it is. -/
theorem ring_select (tab : Tab B) (h : tab ∈ bar.ring scope gs tab.tabset) :
    (bar.select (some tab.tabset) tab.value).ring scope gs tab.tabset = bar.ring scope gs tab.tabset := by
  have hrow : (bar.select (some tab.tabset) tab.value).row = bar.row := by
    funext k
    unfold Bar.row Bar.shown Bar.select
    split
    · cases bar k with
      | none => rfl
      | some f =>
        rw [Option.map_some, Option.map_some, Focus.toList_visit]
        rfl
    · rfl
  have hselected : tab ∈ gs.filterMap bar.selected → bar.select (some tab.tabset) tab.value = bar := by
    intro hmem
    obtain ⟨k, -, hk⟩ := List.mem_filterMap.1 hmem
    obtain ⟨f, hf, rfl⟩ := Option.map_eq_some_iff.1 hk
    funext j
    unfold Bar.select
    dsimp only
    split
    · rename_i hj
      cases hj
      rw [hf, Option.map_some, Focus.visit_self]
    · rfl
  cases scope with
  | tabs => exact congrFun hrow _
  | groups =>
    unfold Bar.ring at h ⊢
    dsimp only at h ⊢
    by_cases hone : gs.length ≤ 1
    · rw [if_pos hone, if_pos hone, hrow]
    · rw [if_neg hone] at h
      rw [hselected h]
  | all =>
    unfold Bar.ring
    rw [hrow]

end BarRings

/-! ### Walking around a ring -/

/-- A command that cycles, in a direction, and the visit of the buffer that it selects. -/
def CycleStep (bucket : List Char → Nat) (scope : Scope) (s : TabBar B × Editor B) (backward : Bool)
    (s' : TabBar B × Editor B) : Prop :=
  ∃ b, cycle bucket s.2 backward scope s.1 = some (.ok (some b), s'.1) ∧ Visited s.2 b s'.2

/-- The current buffer stands at a tab of a ring. -/
structure OnRing (scope : Scope) (tabs : List (Tab B)) (s : TabBar B × Editor B) (tab : Tab B) : Prop where
  consistent : ∃ bar, Consistent s.1 bar
  buffers : s.1.buffers = entries s.2 s.1
  value : tab.value = s.2.currentBuffer
  group : groupOf (entries s.2 s.1) s.2.currentBuffer = some tab.tabset
  ring : cycleRing scope s.1 tab.tabset = tabs
  mem : tab ∈ tabs
  ordinary : Ordinary s.2 s.2.currentBuffer
  oneGroup : ∀ b, (s.2.bufferGroups b).length ≤ 1

section Walks

variable {bucket : List Char → Nat} {tb tb' : TabBar B} {bar : Bar B} {ed ed' : Editor B} {scope : Scope}
  {ring : List (Tab B)} {tab : Tab B} {g : List Char}

theorem tabsets_bufferUpdateGroups (bucket : List Char → Nat) (h : tb.buffers = entries ed tb) :
    (bufferUpdateGroups bucket ed tb).1.tabsets = tb.tabsets := by
  unfold bufferUpdateGroups
  dsimp only
  rw [if_pos h.symm, (hideTabCached_keeps ed (ed.bufferList.filter (listed ed)) tb).1]

theorem groupNames_bufferTabs (bucket : List Char → Nat) (h : tb.buffers = entries ed tb) :
    groupNames (bufferTabs bucket ed tb).1 = groupNames tb := by
  have htabsets := tabsets_bufferUpdateGroups bucket h
  unfold bufferTabs groupNames
  dsimp only
  split
  · rw [htabsets, List.map_reverse, List.map_reverse, Obarray.map_name_set]
  · rw [htabsets]

/-- A command that cycles, when there is nothing to bring up to date. -/
theorem cycle_spec (bucket : List Char → Nat) (h : Consistent tb bar) (hbuffers : tb.buffers = entries ed tb)
    (hg : groupOf (entries ed tb) ed.currentBuffer = some g)
    (hmem : ⟨ed.currentBuffer, g⟩ ∈ cycleRing scope tb g) (backward : Bool) :
    ∃ tb', cycle bucket ed backward scope tb =
        some (.ok (some (((cycleRing scope tb g).formPerm ^ places backward) ⟨ed.currentBuffer, g⟩).value), tb') ∧
      Updated ed tb (bar.select (some g) ed.currentBuffer) tb' ∧ groupNames tb' = groupNames tb ∧
      cycleRing scope tb' g = cycleRing scope tb g := by
  obtain ⟨hcons, hbuffers', htabs⟩ := bufferTabs_spec bucket h ed
  have hcurrent : bar.current (entries ed tb) ed.currentBuffer = bar.select (some g) ed.currentBuffer := by
    unfold Bar.current
    rw [← hbuffers, renew_eq_self h.shown, hbuffers, hg]
  rw [hg] at htabs
  rw [hcurrent] at hcons htabs
  obtain ⟨ts, f, htabs, hfind, rfl, hf, hshows, hhere⟩ := htabs
  have hnames := groupNames_bufferTabs bucket hbuffers
  have hring : cycleRing scope (bufferTabs bucket ed tb).1 ts.name = cycleRing scope tb ts.name := by
    have hbar : bar.select (some ts.name) ed.currentBuffer ts.name = (bar ts.name).map (Focus.visit ed.currentBuffer) :=
      if_pos rfl
    rw [hbar] at hf
    obtain ⟨f₀, hf₀, -⟩ := Option.map_eq_some_iff.1 hf
    rw [cycleRing_eq h hf₀] at hmem ⊢
    rw [cycleRing_eq hcons (hbar.trans hf), hnames]
    exact ring_select ⟨ed.currentBuffer, ts.name⟩ hmem
  refine ⟨(bufferTabs bucket ed tb).1, ?_, ⟨hcons, hbuffers', hidden_bufferTabs bucket ed tb⟩, hnames, hring⟩
  have hnext := cycleTab_eq hcons (Obarray.mem_of_find? hfind) hshows backward scope
  have hringTabs : cycleRing scope (bufferTabs bucket ed tb).1 ts.name = ringTabs scope (bufferTabs bucket ed tb).1 ts := by
    unfold cycleRing
    rw [hfind]
    rfl
  rw [hhere, ← hringTabs, hring] at hnext
  unfold cycle
  rw [bind_ok rfl, htabs]
  show some (Except.ok ((cycleTab backward scope (bufferTabs bucket ed tb).1 ts).map Tab.value), _) = _
  rw [hnext]
  rfl

/-- What is known of the tabs of the ring. -/
theorem belongs_of_ring (h : OnRing scope ring (tb, ed) tab) {x : Tab B} (hx : x ∈ ring) :
    Belongs ed tb x.value x.tabset ∧ Ordinary ed x.value ∧ groupOf (entries ed tb) x.value = some x.tabset ∧
      cycleRing scope tb x.tabset = ring := by
  obtain ⟨bar, hcons⟩ := h.consistent
  have hbuffers : tb.buffers = entries ed tb := h.buffers
  have hgroup : groupOf (entries ed tb) ed.currentBuffer = some tab.tabset := h.group
  have hcurrent := mem_members_groupOf (nodup_entries ed tb) hgroup
  rw [← hbuffers, ← hcons.shown] at hcurrent
  obtain ⟨f, hf, -⟩ := Bar.mem_shown.1 hcurrent
  have hring : bar.ring scope (groupNames tb) tab.tabset = ring := (cycleRing_eq hcons hf).symm.trans h.ring
  rw [← hring] at hx
  have hshown := mem_row_of_ring hx
  obtain ⟨f', hf', -⟩ := Bar.mem_shown.1 hshown
  rw [hcons.shown, hbuffers, mem_members_entries] at hshown
  refine ⟨hshown, ?_, ?_, ?_⟩
  · rcases listed_iff.1 hshown.2.1 with hcur | hord
    · rw [hcur]
      exact h.ordinary
    · exact hord
  · rw [groupOf_entries (mem_tabBufferList.2 ⟨hshown.1, hshown.2.1, hshown.2.2.1⟩)]
    exact head?_of_oneGroup (h.oneGroup x.value) hshown.2.2.2
  · rw [cycleRing_eq hcons hf', ring_of_mem hx, hring]

theorem zpow_places_mem {x : Tab B} (hx : x ∈ ring) (k : Int) : (ring.formPerm ^ k) x ∈ ring :=
  List.form_perm_zpow_apply_mem_imp_mem ring x hx k

/-- The command leaves the current buffer where it stands. -/
theorem onRing_cycle (bucket : List Char → Nat) (h : OnRing scope ring (tb, ed) tab) (backward : Bool) :
    ∃ tb', cycle bucket ed backward scope tb =
        some (.ok (some ((ring.formPerm ^ places backward) tab).value), tb') ∧ OnRing scope ring (tb', ed) tab := by
  obtain ⟨bar, hcons⟩ := h.consistent
  have htab : tab = ⟨ed.currentBuffer, tab.tabset⟩ := by
    rw [← h.value]
  have hring : cycleRing scope tb tab.tabset = ring := h.ring
  have hmem := h.mem
  rw [← hring, htab] at hmem
  obtain ⟨tb', hrun, hupdated, -, hring'⟩ := cycle_spec bucket hcons h.buffers h.group hmem backward
  have hentries := entries_congr hupdated.hidden
  rw [hring, ← htab] at hrun
  refine ⟨tb', hrun, ⟨_, hupdated.consistent⟩, ?_, h.value, ?_, hring'.trans hring, h.mem, h.ordinary, h.oneGroup⟩
  · exact hupdated.buffers.trans hentries.symm
  · show groupOf (entries ed tb') ed.currentBuffer = _
    rw [hentries]
    exact h.group

/-- The visit of a tab of the ring. -/
theorem onRing_visit (h : OnRing scope ring (tb, ed) tab) {x : Tab B} (hx : x ∈ ring) (hvisit : Visited ed x.value ed') :
    OnRing scope ring (tb, ed') x := by
  obtain ⟨-, hordinary, hgroup, hring⟩ := belongs_of_ring h hx
  have hhidden : hidden ed' tb = hidden ed tb := by
    unfold hidden
    rw [hvisit.hideTab]
  have hentries := entries_visited hvisit h.ordinary hordinary hhidden
  refine ⟨h.consistent, ?_, hvisit.currentBuffer.symm, ?_, hring, hx, ?_, ?_⟩
  · exact h.buffers.trans hentries.symm
  · show groupOf (entries ed' tb) ed'.currentBuffer = _
    rw [hentries, hvisit.currentBuffer]
    exact hgroup
  · show Ordinary ed' ed'.currentBuffer
    unfold Ordinary
    rw [hvisit.bufferFileName, hvisit.bufferName, hvisit.currentBuffer]
    exact hordinary
  · intro b
    show (ed'.bufferGroups b).length ≤ 1
    rw [hvisit.bufferGroups]
    exact h.oneGroup b

/-- One step along the ring. -/
theorem onRing_step {s s' : TabBar B × Editor B} {backward : Bool} (h : OnRing scope ring s tab)
    (hstep : CycleStep bucket scope s backward s') : OnRing scope ring s' ((ring.formPerm ^ places backward) tab) := by
  obtain ⟨tb, ed⟩ := s
  obtain ⟨b, hcycle, hvisit⟩ := hstep
  obtain ⟨tb', hrun, hstay⟩ := onRing_cycle bucket h backward
  rw [hrun, Option.some.injEq, Prod.mk.injEq, Except.ok.injEq, Option.some.injEq] at hcycle
  obtain ⟨rfl, htb⟩ := hcycle
  rw [htb] at hstay
  exact onRing_visit hstay (zpow_places_mem h.mem _) hvisit

/-- There is always a next step. -/
theorem exists_onRing_step {s : TabBar B × Editor B} (h : OnRing scope ring s tab) (backward : Bool) :
    ∃ s', CycleStep bucket scope s backward s' := by
  obtain ⟨tb, ed⟩ := s
  obtain ⟨tb', hrun, -⟩ := onRing_cycle bucket h backward
  exact ⟨(tb', { ed with currentBuffer := _ }), _, hrun, ⟨rfl, List.Perm.refl _, rfl, rfl, rfl, rfl⟩⟩

/-- The places that the commands of a run go forward. -/
def placesOf (ws : List Bool) : Int := (ws.count false : Int) - (ws.count true : Int)

theorem placesOf_append_singleton (ws : List Bool) (w : Bool) : placesOf (ws ++ [w]) = places w + placesOf ws := by
  unfold placesOf places
  rw [List.count_append, List.count_append]
  cases w with
  | false =>
    rw [show [false].count false = 1 from rfl, show [false].count true = 0 from rfl]
    simp only [Bool.false_eq_true, if_false]
    omega
  | true =>
    rw [show [true].count false = 0 from rfl, show [true].count true = 1 from rfl]
    simp only [if_true]
    omega

/-- A run along the ring. -/
theorem onRing_run {s s' : TabBar B × Editor B} {ws : List Bool} (h : OnRing scope ring s tab)
    (hrun : Runs (CycleStep bucket scope) s ws s') : OnRing scope ring s' ((ring.formPerm ^ placesOf ws) tab) := by
  induction hrun with
  | nil => exact h
  | snoc hrun hstep ih =>
    have hnext := onRing_step ih hstep
    rw [← Equiv.Perm.mul_apply, ← zpow_add, ← placesOf_append_singleton] at hnext
    exact hnext

theorem exists_onRing_run (bucket : List Char → Nat) {s : TabBar B × Editor B} (h : OnRing scope ring s tab) (ws : List Bool) :
    ∃ s', Runs (CycleStep bucket scope) s ws s' := by
  induction ws using List.reverseRecOn with
  | nil => exact ⟨s, .nil⟩
  | append_singleton ws w ih =>
    obtain ⟨s₁, hrun⟩ := ih
    obtain ⟨s', hstep⟩ := exists_onRing_step (onRing_run h hrun) w
    exact ⟨s', .snoc hrun hstep⟩

/-- After an action of an editor its current buffer stands at its tab of the ring. -/
theorem onRing_of_run {flag : Bool} {u : List (Editor B × Action)} {a : Action}
    (h : Runs (Step bucket) (start flag) (u ++ [(ed, a)]) tb) (ha : Updates ed tb a)
    (hcur : Belongs ed tb ed.currentBuffer g) (hord : Ordinary ed ed.currentBuffer)
    (hone : ∀ b, (ed.bufferGroups b).length ≤ 1) (scope : Scope) :
    OnRing scope (cycleRing scope tb g) (tb, ed) ⟨ed.currentBuffer, g⟩ ∧ (cycleRing scope tb g).Nodup := by
  obtain ⟨bar, hcons, hbuffers⟩ := updated_of_run h ha
  have hgroup : groupOf (entries ed tb) ed.currentBuffer = some g := by
    rw [groupOf_entries (mem_tabBufferList.2 ⟨hcur.1, hcur.2.1, hcur.2.2.1⟩)]
    exact head?_of_oneGroup (hone _) hcur.2.2.2
  obtain ⟨f, hf, hhere⟩ := Option.map_eq_some_iff.1 (here_act (a := a) (nodup_entries ed tb) hgroup)
  obtain ⟨ts, hfind, rfl, hshows⟩ := hcons.find? hf
  have hring : cycleRing scope tb ts.name = ringTabs scope tb ts := by
    unfold cycleRing
    rw [hfind]
    rfl
  have hmem := mem_ringTabs (Obarray.mem_of_find? hfind) hshows scope
  rw [hhere, ← hring] at hmem
  refine ⟨⟨⟨_, hcons⟩, hbuffers, rfl, hgroup, rfl, hmem, hord, hone⟩, ?_⟩
  rw [hring]
  exact nodup_ringTabs hcons hshows scope

/-- Commands that cycle in one scope, forward and backward in any order, take the current buffer for a walk around its
ring, which stays as it is: as many places as there are commands forward, less those backward.  The walk never gets
stuck.  This is so if every buffer has at most one group and the current one is listed also when it is not current. -/
theorem cycle_run {flag : Bool} {u : List (Editor B × Action)} {a : Action} {ws : List Bool}
    (hstart : Runs (Step bucket) (start flag) (u ++ [(ed, a)]) tb) (ha : Updates ed tb a)
    (hcur : Belongs ed tb ed.currentBuffer g) (hord : Ordinary ed ed.currentBuffer)
    (hone : ∀ b, (ed.bufferGroups b).length ≤ 1) (h : Runs (CycleStep bucket scope) (tb, ed) ws (tb', ed')) :
    ∃ g', (ed'.bufferGroups ed'.currentBuffer).head? = some g' ∧
      ⟨ed'.currentBuffer, g'⟩ = ((cycleRing scope tb g).formPerm ^ placesOf ws) ⟨ed.currentBuffer, g⟩ ∧
      cycleRing scope tb' g' = cycleRing scope tb g ∧ ∀ w, ∃ s, CycleStep bucket scope (tb', ed') w s := by
  have hend := onRing_run (onRing_of_run hstart ha hcur hord hone scope).1 h
  generalize ((cycleRing scope tb g).formPerm ^ placesOf ws) ⟨ed.currentBuffer, g⟩ = tab at hend
  have hvalue : tab.value = ed'.currentBuffer := hend.value
  have hbelongs := (belongs_of_ring hend hend.mem).1
  rw [hvalue] at hbelongs
  refine ⟨tab.tabset, head?_of_oneGroup (hend.oneGroup _) hbelongs.2.2.2, ?_, hend.ring, exists_onRing_step hend⟩
  rw [← hvalue]

/-- From the first of three files to the one with the last name. -/
theorem cycle_run_three_files :
    ((cycleRing .tabs threeFiles ['s', 'r', 'c']).formPerm ^ placesOf [false]) ⟨1, ['s', 'r', 'c']⟩ =
      ⟨3, ['s', 'r', 'c']⟩ := by
  have hstep : CycleStep (fun _ => 0) .tabs (threeFiles, files [1, 2, 3] 1 (by decide)) false
      ((bufferTabs (fun _ => 0) (files [1, 2, 3] 1 (by decide)) threeFiles).1, files [3, 1, 2] 3 (by decide)) :=
    ⟨3, rfl, rfl, by decide, rfl, rfl, rfl, rfl⟩
  obtain ⟨g', hhead, hwalk, -⟩ := cycle_run (.snoc .nil step_threeFiles) trivial (g := ['s', 'r', 'c']) (by decide)
    (by decide) (fun _ => Nat.le_refl 1) (.snoc .nil hstep)
  cases hhead
  exact hwalk.symm

/-- Commands that cycle forward reach every tab of the ring before they come back. -/
theorem cycle_visits {flag : Bool} {u : List (Editor B × Action)} {a : Action}
    (hstart : Runs (Step bucket) (start flag) (u ++ [(ed, a)]) tb) (ha : Updates ed tb a)
    (hcur : Belongs ed tb ed.currentBuffer g) (hord : Ordinary ed ed.currentBuffer)
    (hone : ∀ b, (ed.bufferGroups b).length ≤ 1) (scope : Scope) :
    (∀ tab ∈ cycleRing scope tb g, ∃ k < (cycleRing scope tb g).length, ∃ tb' ed',
      Runs (CycleStep bucket scope) (tb, ed) (List.replicate k false) (tb', ed') ∧ ed'.currentBuffer = tab.value) ∧
      ∀ tb' ed', Runs (CycleStep bucket scope) (tb, ed) (List.replicate (cycleRing scope tb g).length false) (tb', ed') →
        ed'.currentBuffer = ed.currentBuffer := by
  obtain ⟨hon, hnodup⟩ := onRing_of_run hstart ha hcur hord hone scope
  have hplaces : ∀ k : Nat, placesOf (List.replicate k false) = (k : Int) := by
    intro k
    unfold placesOf
    rw [List.count_replicate_self, List.count_replicate, if_neg (by decide)]
    omega
  constructor
  · intro x hx
    obtain ⟨k, hk, hpow⟩ := Ring.exists_formPerm_pow hnodup hon.mem hx
    obtain ⟨⟨tb', ed'⟩, hrun⟩ := exists_onRing_run bucket hon (List.replicate k false)
    have hend := onRing_run hon hrun
    rw [hplaces, zpow_natCast, hpow] at hend
    exact ⟨k, hk, tb', ed', hrun, hend.value.symm⟩
  · intro tb' ed' hrun
    have hend := onRing_run hon hrun
    rw [hplaces, zpow_natCast, List.formPerm_pow_length_eq_one_of_nodup _ hnodup] at hend
    exact hend.value.symm

theorem cycle_visits_three_files :
    ∃ k < (cycleRing .all threeFiles ['s', 'r', 'c']).length, ∃ tb' ed',
      Runs (CycleStep (fun _ => 0) .all) (threeFiles, files [1, 2, 3] 1 (by decide)) (List.replicate k false) (tb', ed') ∧
        ed'.currentBuffer = 2 :=
  (cycle_visits (.snoc .nil step_threeFiles) trivial (by decide) (by decide) (fun _ => Nat.le_refl 1) .all).1
    ⟨2, ['s', 'r', 'c']⟩ (by decide)

end Walks

end AwesomeTab

end EmacsDir
