import EmacsDir.TabVisits

/-!
# Killing buffers

When the current buffer is killed, a hook switches to the buffer of a tab next to its tab.  Later the tab itself is
deleted, and the tab set selects a tab by rules of its own.  Both choose the same tab, so who kills the current buffer
again and again goes through the tabs to its right and then through those to its left, the nearest one first, and never
leaves the group (`kill_run`).
-/

namespace EmacsDir

namespace AwesomeTab

variable {B : Type} [DecidableEq B]

/-- The loop of `awesome-tab-buffer-track-killed`, with the sibling that it has found. -/
def siblingFrom (b : B) : Option B → List B → Option B
  | sibling, [] => sibling
  | sibling, x :: bl => if b = x then bl.head?.or sibling else siblingFrom b (some x) bl

/-- `awesome-tab-buffer-track-killed`, for a buffer with the tab bar in the selected window: the buffer to which it
switches.  The tab set is the one that the tab bar has last shown for the buffer. -/
def trackKilled (ed : Editor B) (tb : TabBar B) : Option B :=
  ((groupOf tb.buffers ed.currentBuffer).bind fun g => tb.tabsets.find? g).bind fun ts =>
    (siblingFrom ed.currentBuffer none (ts.tabs.map Tab.value)).filter fun sibling => sibling ∈ ed.bufferList

/-- After the current buffer has been killed and another one has become current.  Others may have been renamed. -/
structure Killed (ed : Editor B) (b : B) (ed' : Editor B) : Prop where
  currentBuffer : ed'.currentBuffer = b
  bufferList : ed'.bufferList.Perm (ed.bufferList.erase ed.currentBuffer)
  ordinary : ∀ c ∈ ed'.bufferList, (Ordinary ed' c ↔ Ordinary ed c)
  bufferGroups : ∀ c ∈ ed'.bufferList, ed'.bufferGroups c = ed.bufferGroups c
  hideTab : ∀ c ∈ ed'.bufferList, ed'.hideTab c = ed.hideTab c

/-- The current buffer is killed, and the header line is drawn for the one that becomes current. -/
def KillStep (bucket : List Char → Nat) (s : TabBar B × Editor B) (b : B) (s' : TabBar B × Editor B) : Prop :=
  b = s.2.currentBuffer ∧ ∃ sibling, trackKilled s.2 s.1 = some sibling ∧ Killed s.2 sibling s'.2 ∧
    Step bucket s.1 (s'.2, .line) s'.1

theorem siblingFrom_append {b : B} {u v : List B} (h : b ∉ u) (sibling : Option B) :
    siblingFrom b sibling (u ++ b :: v) = v.head?.or (u.getLast?.or sibling) := by
  induction u generalizing sibling with
  | nil => simp [siblingFrom]
  | cons x u ih =>
    have hne : ¬ b = x := fun he => h (he ▸ List.mem_cons_self)
    rw [List.cons_append, siblingFrom, if_neg hne, ih fun hm => h (List.mem_cons_of_mem x hm)]
    cases u with
    | nil => rfl
    | cons y u =>
      obtain ⟨w, hw⟩ := Option.isSome_iff_exists.1 (List.getLast?_isSome.2 (List.cons_ne_nil y u))
      rw [List.getLast?_cons_cons, hw]
      rfl

/-- The sibling is the tab that comes in focus when the tab of the killed buffer is taken out. -/
theorem siblingFrom_toList (f : Focus B) : siblingFrom f.here none f.toList = f.rest.head? := by
  have hleft : f.here ∉ f.left.reverse := by
    rw [List.mem_reverse]
    exact f.here_notMem_left
  unfold Focus.toList Focus.rest
  rw [siblingFrom_append hleft, Option.or_none, List.getLast?_reverse, List.head?_append]

/-- The current buffer is in focus in its group. -/
structure Follows (g : List Char) (bar : Bar B) (f : Focus B) (s : TabBar B × Editor B) : Prop where
  consistent : Consistent s.1 bar
  buffers : s.1.buffers = entries s.2 s.1
  focus : bar g = some f
  here : f.here = s.2.currentBuffer
  oneGroup : ∀ b ∈ s.2.bufferList, (s.2.bufferGroups b).length ≤ 1

section Kill

variable {bucket : List Char → Nat} {tb tb' : TabBar B} {bar : Bar B} {ed ed' : Editor B} {f : Focus B} {g : List Char}

/-- When buffers only leave, tabs are only taken out. -/
theorem renew_of_subset {bl : List (Entry B)} {k : List Char} (h : ∀ b ∈ members bl k, b ∈ bar.shown k) :
    bar.renew bl k = (bar k).bind (Focus.filter fun b => b ∈ members bl k) := by
  unfold Bar.renew
  cases hbar : bar k with
  | none =>
    have hnil : members bl k = [] := by
      apply List.eq_nil_iff_forall_not_mem.2
      intro b hb
      obtain ⟨f, hf, -⟩ := Bar.mem_shown.1 (h b hb)
      rw [hbar] at hf
      cases hf
    rw [hnil]
    rfl
  | some f =>
    rw [foldl_addTo_some, Focus.foldl_add_of_mem]
    intro b hb
    obtain ⟨f', hf', hmem⟩ := Bar.mem_shown.1 (h b hb)
    rw [hbar] at hf'
    cases hf'
    exact hmem

theorem belongs_of_follows (h : Follows g bar f (tb, ed)) {b : B} {k : List Char} :
    b ∈ bar.shown k ↔ Belongs ed tb b k := by
  have hbuffers : tb.buffers = entries ed tb := h.buffers
  rw [h.consistent.shown, ← mem_members_entries, ← hbuffers]

theorem head?_of_groupOf {b : B} (h : groupOf (entries ed tb) b = some g) : (ed.bufferGroups b).head? = some g := by
  obtain ⟨e, he, hhead⟩ := Option.bind_eq_some_iff.1 h
  obtain ⟨hmem, rfl⟩ := (entryOf_eq_some_iff (nodup_entries ed tb)).1 he
  rw [← (mem_entries.1 hmem).2.2]
  exact hhead

theorem mem_shown_of_follows (h : Follows g bar f (tb, ed)) {b : B} (hb : b ∈ f.toList) : b ∈ bar.shown g :=
  Bar.mem_shown.2 ⟨f, h.focus, hb⟩

theorem trackKilled_of_follows (h : Follows g bar f (tb, ed)) : trackKilled ed tb = f.rest.head? := by
  have hcurrent := (belongs_of_follows h).1 (mem_shown_of_follows h f.here_mem)
  have hhere : f.here = ed.currentBuffer := h.here
  have hbuffers : tb.buffers = entries ed tb := h.buffers
  have hgroup : groupOf tb.buffers ed.currentBuffer = some g := by
    rw [hbuffers, ← hhere, groupOf_entries (mem_tabBufferList.2 ⟨hcurrent.1, hcurrent.2.1, hcurrent.2.2.1⟩)]
    exact head?_of_oneGroup (h.oneGroup _ hcurrent.1) hcurrent.2.2.2
  obtain ⟨ts, hfind, -, hshows⟩ := h.consistent.find? h.focus
  unfold trackKilled
  rw [hgroup, Option.bind_some, hfind, Option.bind_some, Tabset.values_of_shows hshows, ← hhere, siblingFrom_toList]
  cases hrest : f.rest.head? with
  | none => rfl
  | some s =>
    have hmem : s ∈ f.toList := Focus.mem_of_mem_rest (List.mem_of_head? hrest)
    have hlive := ((belongs_of_follows h).1 (mem_shown_of_follows h hmem)).1
    rw [Option.filter_some, if_pos (decide_eq_true hlive)]

/-- The buffers that belong to a group after the current one has been killed. -/
theorem belongs_killed {s c : B} {k : List Char} (h : Killed ed s ed') (hs : Ordinary ed s) :
    Belongs ed' tb c k ↔ c ≠ ed.currentBuffer ∧ Belongs ed tb c k := by
  have hmem : c ∈ ed'.bufferList ↔ c ≠ ed.currentBuffer ∧ c ∈ ed.bufferList := by
    rw [h.bufferList.mem_iff, ed.bufferList_nodup.mem_erase_iff]
  unfold Belongs
  rw [hmem, and_assoc]
  apply and_congr_right
  intro hne
  apply and_congr_right
  intro hlive
  have hc := hmem.2 ⟨hne, hlive⟩
  have hlisted : listed ed' c = listed ed c := by
    rw [Bool.eq_iff_iff, listed_iff, listed_iff, h.ordinary c hc, h.currentBuffer]
    constructor
    · rintro (rfl | hord)
      · exact Or.inr hs
      · exact Or.inr hord
    · rintro (rfl | hord)
      · exact absurd rfl hne
      · exact Or.inr hord
  have hhidden : hidden ed' tb c = hidden ed tb c := by
    unfold hidden
    rw [h.hideTab c hc]
  rw [hlisted, hhidden, h.bufferGroups c hc]

/-- When the killed buffer leaves, only its own group changes, and there its tab is taken out. -/
theorem renew_killed {c : B} (h : Follows g bar f (tb, ed)) (hkilled : Killed ed c ed') (hc : Ordinary ed c) :
    bar.renew (entries ed' tb) g = f.filter (fun b => b ≠ f.here) ∧
      ∀ k, k ≠ g → bar.renew (entries ed' tb) k = bar k := by
  have hhere : f.here = ed.currentBuffer := h.here
  have hmembers : ∀ k b, b ∈ members (entries ed' tb) k ↔ b ≠ f.here ∧ b ∈ bar.shown k := by
    intro k b
    rw [mem_members_entries, belongs_killed hkilled hc, hhere, belongs_of_follows h]
  constructor
  · rw [renew_of_subset fun b hb => ((hmembers g b).1 hb).2, h.focus, Option.bind_some]
    apply Focus.filter_congr
    intro b hb
    rw [decide_eq_decide, hmembers]
    exact and_iff_left (mem_shown_of_follows h hb)
  · intro k hk
    rw [renew_of_subset fun b hb => ((hmembers k b).1 hb).2]
    cases hbar : bar k with
    | none => rfl
    | some fk =>
      apply Focus.filter_eq_self
      intro b hb
      have hbk : b ∈ bar.shown k := Bar.mem_shown.2 ⟨fk, hbar, hb⟩
      rw [decide_eq_true_eq, hmembers]
      refine ⟨?_, hbk⟩
      rintro rfl
      -- the killed buffer has no other group
      have hbelongs := (belongs_of_follows h).1 hbk
      have hbelongs' := (belongs_of_follows h).1 (mem_shown_of_follows h f.here_mem)
      have hone := h.oneGroup _ hbelongs.1
      have hgroups := (head?_of_oneGroup hone hbelongs.2.2.2).symm.trans (head?_of_oneGroup hone hbelongs'.2.2.2)
      exact hk (Option.some.inj hgroups)

theorem oneGroup_killed {c : B} (h : Follows g bar f (tb, ed)) (hkilled : Killed ed c ed') :
    ∀ b ∈ ed'.bufferList, (ed'.bufferGroups b).length ≤ 1 := by
  intro b hb
  rw [hkilled.bufferGroups b hb]
  exact h.oneGroup b (List.mem_of_mem_erase (hkilled.bufferList.mem_iff.1 hb))

/-- One buffer is killed. -/
theorem follows_step {b : B} (h : Follows g bar f (tb, ed)) (hstep : KillStep bucket (tb, ed) b (tb', ed')) :
    b = f.here ∧ ∃ bar' f', f.filter (fun c => c ≠ f.here) = some f' ∧ (∀ k, k ≠ g → bar' k = bar k) ∧
      Follows g bar' f' (tb', ed') := by
  obtain ⟨rfl, s, hs, hkilled, hline⟩ := hstep
  have hhere : f.here = ed.currentBuffer := h.here
  have hrest : f.rest.head? = some s := (trackKilled_of_follows h).symm.trans hs
  have hmem : s ∈ f.rest := List.mem_of_head? hrest
  obtain ⟨f', hf'⟩ := Focus.exists_filter_ne hmem
  have hnext : f'.here = s := by
    rw [← Focus.here_cons_rest hf'] at hrest
    exact Option.some.inj hrest
  have hshown := mem_shown_of_follows h (Focus.mem_of_mem_rest hmem)
  have hne : s ≠ ed.currentBuffer := by
    rw [← hhere]
    exact fun he => Focus.here_notMem_rest (he ▸ hmem)
  have hord : Ordinary ed s := (listed_iff.1 ((belongs_of_follows h).1 hshown).2.1).resolve_left hne
  obtain ⟨hrenew, hother⟩ := renew_killed h hkilled hord
  have hbelongs : Belongs ed' tb s g := (belongs_killed hkilled hord).2 ⟨hne, (belongs_of_follows h).1 hshown⟩
  have hone := oneGroup_killed h hkilled
  have hgroup : groupOf (entries ed' tb) ed'.currentBuffer = some g := by
    rw [hkilled.currentBuffer, groupOf_entries (mem_tabBufferList.2 ⟨hbelongs.1, hbelongs.2.1, hbelongs.2.2.1⟩)]
    exact head?_of_oneGroup (hone _ hbelongs.1) hbelongs.2.2.2
  -- the header line brings the tab sets up to date
  have hupdates : Updates ed' tb .line := by
    show hidden ed' tb ed'.currentBuffer = false
    rw [hkilled.currentBuffer]
    exact hbelongs.2.2.1
  rcases step_cases h.consistent hline with ⟨-, hupdated⟩ | ⟨hidle, -⟩
  · rw [act_of_stay fun _ => rfl] at hupdated
    refine ⟨hhere.symm, _, f', hf', ?_, hupdated.consistent, ?_, ?_, hnext.trans hkilled.currentBuffer.symm, hone⟩
    · intro k hk
      unfold Bar.current Bar.select
      rw [hgroup, if_neg fun he => hk (Option.some.inj he).symm]
      exact hother k hk
    · exact hupdated.buffers.trans (entries_congr hupdated.hidden).symm
    · unfold Bar.current Bar.select
      rw [if_pos hgroup, hrenew, hf', Option.map_some, hkilled.currentBuffer, ← hnext, Focus.visit_self]
  · exact absurd hupdates hidle

/-- A run of kills. -/
theorem follows_run {s s' : TabBar B × Editor B} {ks : List B} (h : Follows g bar f s)
    (hrun : Runs (KillStep bucket) s ks s') :
    ∃ bar' f', ks ++ f'.here :: f'.rest = f.here :: f.rest ∧ f'.toList = f.toList.filter (· ∉ ks) ∧
      (∀ k, k ≠ g → bar' k = bar k) ∧ Follows g bar' f' s' := by
  induction hrun with
  | nil => exact ⟨bar, f, rfl, by simp, fun _ _ => rfl, h⟩
  | snoc hrun hstep ih =>
    obtain ⟨bar₁, f₁, horder, htabs, hother, h₁⟩ := ih
    obtain ⟨rfl, bar₂, f₂, hf₂, hother₂, h₂⟩ := follows_step h₁ hstep
    refine ⟨bar₂, f₂, ?_, ?_, ?_, h₂⟩
    · rw [List.append_assoc, ← horder, ← Focus.here_cons_rest hf₂]
      rfl
    · rw [Focus.toList_filter hf₂, htabs, List.filter_filter]
      apply List.filter_congr
      intro c _
      simp [not_or, and_comm]
    · intro k hk
      rw [hother₂ k hk, hother k hk]

/-- After an action of an editor its current buffer is in focus. -/
theorem follows_of_run {flag : Bool} {u : List (Editor B × Action)} {a : Action}
    (h : Runs (Step bucket) (start flag) (u ++ [(ed, a)]) tb) (ha : Updates ed tb a)
    (hcur : Belongs ed tb ed.currentBuffer g) (hone : ∀ b ∈ ed.bufferList, (ed.bufferGroups b).length ≤ 1) :
    ∃ bar f, Follows g bar f (tb, ed) ∧ tabsOf tb g = f.toList := by
  obtain ⟨bar, hcons, hbuffers⟩ := updated_of_run h ha
  have hgroup : groupOf (entries ed tb) ed.currentBuffer = some g := by
    rw [groupOf_entries (mem_tabBufferList.2 ⟨hcur.1, hcur.2.1, hcur.2.2.1⟩)]
    exact head?_of_oneGroup (hone _ hcur.1) hcur.2.2.2
  obtain ⟨f, hf, hhere⟩ := Option.map_eq_some_iff.1 (here_act (a := a) (nodup_entries ed tb) hgroup)
  refine ⟨_, f, ⟨hcons, hbuffers, hf, hhere, hone⟩, ?_⟩
  rw [tabsOf_eq_shown hcons, Bar.shown, hf]
  rfl

/-- The hook and the tab set choose the same tab: whatever buffer becomes current, the tab that is selected in the group
of the killed buffer is the one to which the hook has switched. -/
theorem selectedOf_killed {flag : Bool} {u : List (Editor B × Action)} {a a' : Action} {c : B}
    (hstart : Runs (Step bucket) (start flag) (u ++ [(ed, a)]) tb) (ha : Updates ed tb a)
    (hcur : Belongs ed tb ed.currentBuffer g) (hone : ∀ b ∈ ed.bufferList, (ed.bufferGroups b).length ≤ 1)
    (hkilled : Killed ed c ed') (hc : Ordinary ed c) (hgroup : (ed'.bufferGroups c).head? ≠ some g)
    (h : Step bucket tb (ed', a') tb') (ha' : Updates ed' tb' a') :
    selectedOf tb' g = trackKilled ed tb ∧ tabsOf tb' g = (tabsOf tb g).erase ed.currentBuffer := by
  obtain ⟨bar, f, hfollows, hf⟩ := follows_of_run hstart ha hcur hone
  have hhere : f.here = ed.currentBuffer := hfollows.here
  have hcons : Consistent tb bar := hfollows.consistent
  have hnot : groupOf (entries ed' tb) ed'.currentBuffer ≠ some g := by
    rw [hkilled.currentBuffer]
    exact fun he => hgroup (head?_of_groupOf he)
  have hact : bar.act ed' (entries ed' tb) a' g = f.filter fun b => b ≠ f.here := by
    rw [← (renew_killed hfollows hkilled hc).1]
    unfold Bar.act Bar.current Bar.select
    rw [if_neg hnot, if_neg hnot]
  obtain ⟨-, hupdated⟩ := updated_step hcons h ha'
  have hcons' := hupdated.consistent
  rw [selectedOf_eq_here hcons', tabsOf_eq_shown hcons', Bar.shown, hact, trackKilled_of_follows hfollows, hf, ← hhere]
  refine ⟨Focus.here_filter_rest f, ?_⟩
  rw [f.nodup_toList.erase_eq_filter]
  cases hfilter : f.filter fun b => b ≠ f.here with
  | none =>
    rw [eq_comm, Option.map_none, Option.getD_none, List.filter_eq_nil_iff]
    intro b hb
    simpa using Focus.filter_eq_none.1 hfilter b hb
  | some f' =>
    rw [Option.map_some, Option.getD_some, Focus.toList_filter hfilter]
    apply List.filter_congr
    intro b _
    rw [bne, Bool.eq_iff_iff]
    simp

/-- Files, and a fourth buffer in another group. -/
def otherGroup (bufferList : List Nat) (currentBuffer : Nat) (h : bufferList.Nodup) : Editor Nat :=
  { files bufferList currentBuffer h with bufferGroups := fun n => if n = 4 then [['o']] else [['s', 'r', 'c']] }

/-- Four buffers have been shown, with the second one current. -/
def fourBuffers : TabBar Nat := (bufferTabs (fun _ => 0) (otherGroup [1, 2, 3, 4] 2 (by decide)) (start true)).1

theorem selectedOf_killed_four_buffers :
    selectedOf (bufferTabs (fun _ => 0) (otherGroup [4, 1, 3] 4 (by decide)) fourBuffers).1 ['s', 'r', 'c'] =
      trackKilled (otherGroup [1, 2, 3, 4] 2 (by decide)) fourBuffers := by
  have hstep : Step (fun _ => 0) (start true) (otherGroup [1, 2, 3, 4] 2 (by decide), .selectBegTab false) fourBuffers :=
    ⟨0, .ok (), rfl⟩
  have hkilled : Killed (otherGroup [1, 2, 3, 4] 2 (by decide)) 4 (otherGroup [4, 1, 3] 4 (by decide)) :=
    ⟨rfl, by decide, fun _ _ => Iff.rfl, fun _ _ => rfl, fun _ _ => rfl⟩
  have hstep' : Step (fun _ => 0) fourBuffers (otherGroup [4, 1, 3] 4 (by decide), .selectBegTab false)
      (bufferTabs (fun _ => 0) (otherGroup [4, 1, 3] 4 (by decide)) fourBuffers).1 := ⟨0, .ok (), rfl⟩
  exact (selectedOf_killed (.snoc .nil hstep) trivial (by decide) (by decide) hkilled (by decide) (by decide) hstep'
    trivial).1

/-- Who kills the current buffer of a group again and again goes through the tabs to its right and then through those to
its left, the nearest one first; the other tabs of the group stay in their order, the current buffer is always selected,
and the other groups are left as they are. -/
theorem kill_run {flag : Bool} {u : List (Editor B × Action)} {a : Action} {ks l r : List B}
    (hstart : Runs (Step bucket) (start flag) (u ++ [(ed, a)]) tb) (ha : Updates ed tb a)
    (hcur : Belongs ed tb ed.currentBuffer g) (hone : ∀ b ∈ ed.bufferList, (ed.bufferGroups b).length ≤ 1)
    (htabs : tabsOf tb g = l ++ ed.currentBuffer :: r) (h : Runs (KillStep bucket) (tb, ed) ks (tb', ed')) :
    ∃ rest, ks ++ ed'.currentBuffer :: rest = ed.currentBuffer :: (r ++ l.reverse) ∧ trackKilled ed' tb' = rest.head? ∧
      tabsOf tb' g = (tabsOf tb g).filter (· ∉ ks) ∧ selectedOf tb' g = some ed'.currentBuffer ∧
      ∀ g', g' ≠ g → tabsOf tb' g' = tabsOf tb g' := by
  obtain ⟨bar, f, hfollows, hf⟩ := follows_of_run hstart ha hcur hone
  obtain ⟨bar', f', horder, htabs', hother, hfollows'⟩ := follows_run hfollows h
  have hhere : f.here = ed.currentBuffer := hfollows.here
  have hhere' : f'.here = ed'.currentBuffer := hfollows'.here
  have hcons : Consistent tb bar := hfollows.consistent
  have hcons' : Consistent tb' bar' := hfollows'.consistent
  have hrest : f.rest = r ++ l.reverse := by
    rw [hf, ← hhere] at htabs
    obtain ⟨rfl, -, rfl⟩ : f.left.reverse = l ∧ f.here = f.here ∧ f.right = r := by
      rw [← List.append_cons_inj_of_notMem _ f.here_notMem_right]
      · exact htabs
      · rw [List.mem_reverse]
        exact f.here_notMem_left
    rw [List.reverse_reverse]
    rfl
  refine ⟨f'.rest, ?_, trackKilled_of_follows hfollows', ?_, ?_, ?_⟩
  · rw [← hhere', horder, hhere, hrest]
  · rw [hf, ← htabs', tabsOf_eq_shown hcons', Bar.shown, hfollows'.focus]
    rfl
  · rw [selectedOf_eq_here hcons', hfollows'.focus, Option.map_some, hhere']
  · intro g' hg'
    rw [tabsOf_eq_shown hcons', tabsOf_eq_shown hcons, Bar.shown, Bar.shown, hother g' hg']

/-- The first of three files is killed. -/
def firstKilled : TabBar Nat :=
  match perform (fun _ => 0) 4 (files [3, 2] 3 (by decide)) .line threeFiles with
  | some (_, tb') => tb'
  | none => threeFiles

theorem kill_run_three_files :
    selectedOf firstKilled ['s', 'r', 'c'] = some 3 ∧ trackKilled (files [3, 2] 3 (by decide)) firstKilled = some 2 := by
  have hkilled : Killed (files [1, 2, 3] 1 (by decide)) 3 (files [3, 2] 3 (by decide)) :=
    ⟨rfl, by decide, fun _ _ => Iff.rfl, fun _ _ => rfl, fun _ _ => rfl⟩
  have hstep : KillStep (fun _ => 0) (threeFiles, files [1, 2, 3] 1 (by decide)) 1
      (firstKilled, files [3, 2] 3 (by decide)) := ⟨rfl, 3, by decide, hkilled, 4, .ok (), rfl⟩
  obtain ⟨rest, horder, htrack, -, hselected, -⟩ := kill_run (g := ['s', 'r', 'c']) (l := []) (r := [3, 2])
    (.snoc .nil step_threeFiles) trivial (by decide) (fun _ _ => Nat.le_refl 1) (by decide) (.snoc .nil hstep)
  obtain rfl : rest = [2] := (List.cons.inj (List.cons.inj horder).2).2
  exact ⟨hselected, htrack⟩

end Kill

end AwesomeTab

end EmacsDir
