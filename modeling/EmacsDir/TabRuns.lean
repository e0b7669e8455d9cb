import Mathlib.Data.List.Induction
import EmacsDir.Runs
import EmacsDir.TabActions

/-!
# Runs of the tab bar

After every run of actions, in editors that may change between the actions, the groups show exactly the buffers that
belong to them, whatever the cache of entries has skipped (`tabsOf_run`).  Without moves the buffers that stay in a group
keep their order (`tabsOf_run_sublist`), and new buffers come in to the right of the selected tab (`tabsOf_step`).  With
moves the current tab walks among the others, which keep their order (`tabsOf_run_place`).
-/

namespace EmacsDir

namespace AwesomeTab

variable {B : Type} [DecidableEq B]

/-- One action in an editor, with a bound for its loops. -/
def Step (bucket : List Char → Nat) (tb : TabBar B) (x : Editor B × Action) (tb' : TabBar B) : Prop :=
  ∃ n r, perform bucket n x.1 x.2 tb = some (r, tb')

/-- The buffers of the tabs of a group. -/
def tabsOf (tb : TabBar B) (g : List Char) : List B := ((tb.tabsets.find? g).map fun ts => ts.tabs.map Tab.value).getD []

/-- The selected buffer of a group. -/
def selectedOf (tb : TabBar B) (g : List Char) : Option B := ((tb.tabsets.find? g).bind Tabset.select).map Tab.value

variable {bucket : List Char → Nat} {tb tb' : TabBar B} {bar : Bar B} {ed : Editor B} {a : Action} {g : List Char}

/-! ### What the store shows -/

omit [DecidableEq B] in
theorem tabsOf_eq_shown (h : Consistent tb bar) (g : List Char) : tabsOf tb g = bar.shown g := by
  unfold tabsOf Bar.shown
  obtain ⟨hfind, hbar⟩ | ⟨ts, f, hfind, hbar, hts⟩ := h.represents.cases g
  · rw [hfind, hbar]
    rfl
  · rw [hfind, hbar]
    exact Tabset.values_of_shows hts

omit [DecidableEq B] in
theorem selectedOf_eq_here (h : Consistent tb bar) (g : List Char) : selectedOf tb g = (bar g).map Focus.here := by
  unfold selectedOf
  obtain ⟨hfind, hbar⟩ | ⟨ts, f, hfind, hbar, hts⟩ := h.represents.cases g
  · rw [hfind, hbar]
    rfl
  · rw [hfind, hbar, Option.bind_some, hts.select]
    rfl

omit [DecidableEq B] in
theorem nodup_tabsOf (h : Consistent tb bar) (g : List Char) : (tabsOf tb g).Nodup := by
  rw [tabsOf_eq_shown h]
  unfold Bar.shown
  cases bar g with
  | none => exact List.nodup_nil
  | some f => exact f.nodup_toList

omit [DecidableEq B] in
theorem mem_tabsOf (h : Consistent tb bar) {b : B} : b ∈ tabsOf tb g ↔ b ∈ members tb.buffers g := by
  rw [tabsOf_eq_shown h]
  exact h.shown g b

omit [DecidableEq B] in
theorem selectedOf_mem (h : Consistent tb bar) {b : B} (hb : selectedOf tb g = some b) : b ∈ tabsOf tb g := by
  rw [selectedOf_eq_here h] at hb
  obtain ⟨f, hf, rfl⟩ := Option.map_eq_some_iff.1 hb
  rw [tabsOf_eq_shown h, Bar.mem_shown]
  exact ⟨f, hf, f.here_mem⟩

omit [DecidableEq B] in
/-- A group has a tab set if it has tabs. -/
theorem isSome_find?_iff (h : Consistent tb bar) : (tb.tabsets.find? g).isSome ↔ ∃ b, b ∈ tabsOf tb g := by
  simp only [tabsOf_eq_shown h, Bar.mem_shown]
  obtain ⟨hfind, hbar⟩ | ⟨ts, f, hfind, hbar, hts⟩ := h.represents.cases g
  · simp [hfind, hbar]
  · rw [hfind, hbar]
    exact ⟨fun _ => ⟨f.here, f, rfl, f.here_mem⟩, fun _ => rfl⟩

/-! ### The buffers that belong to a group -/

/-- A buffer belongs to a group: it is live, it is shown, and the group is one of its groups. -/
def Belongs (ed : Editor B) (tb : TabBar B) (b : B) (g : List Char) : Prop :=
  b ∈ ed.bufferList ∧ listed ed b = true ∧ hidden ed tb b = false ∧ g ∈ ed.bufferGroups b

instance (b : B) (g : List Char) : Decidable (Belongs ed tb b g) := inferInstanceAs (Decidable (_ ∧ _ ∧ _ ∧ _))

theorem mem_entries {e : Entry B} :
    e ∈ entries ed tb ↔ e.buffer ∈ tabBufferList ed tb ∧ e.name = ed.bufferName e.buffer ∧
      e.groups = ed.bufferGroups e.buffer := by
  unfold entries
  rw [List.mem_insertionSort, List.mem_map]
  constructor
  · rintro ⟨b, hb, rfl⟩
    exact ⟨hb, rfl, rfl⟩
  · intro h
    refine ⟨e.buffer, h.1, ?_⟩
    rw [← h.2.1, ← h.2.2]

theorem mem_tabBufferList {b : B} :
    b ∈ tabBufferList ed tb ↔ b ∈ ed.bufferList ∧ listed ed b = true ∧ hidden ed tb b = false := by
  unfold tabBufferList
  rw [List.mem_filter, List.mem_filter, Bool.not_eq_true', and_assoc]

theorem mem_members_entries {b : B} : b ∈ members (entries ed tb) g ↔ Belongs ed tb b g := by
  rw [mem_members]
  constructor
  · rintro ⟨e, he, rfl, hg⟩
    obtain ⟨hmem, -, hgroups⟩ := mem_entries.1 he
    rw [mem_tabBufferList] at hmem
    exact ⟨hmem.1, hmem.2.1, hmem.2.2, hgroups ▸ hg⟩
  · intro h
    exact ⟨⟨b, ed.bufferName b, ed.bufferGroups b⟩, mem_entries.2 ⟨mem_tabBufferList.2 ⟨h.1, h.2.1, h.2.2.1⟩, rfl, rfl⟩, rfl, h.2.2.2⟩

/-- The first group of a buffer that has an entry. -/
theorem groupOf_entries {b : B} (hb : b ∈ tabBufferList ed tb) :
    groupOf (entries ed tb) b = (ed.bufferGroups b).head? := by
  have he : entryOf (entries ed tb) b = some ⟨b, ed.bufferName b, ed.bufferGroups b⟩ :=
    (entryOf_eq_some_iff (nodup_entries ed tb)).2 ⟨mem_entries.2 ⟨hb, rfl, rfl⟩, rfl⟩
  unfold groupOf
  rw [he]
  rfl

/-- The current buffer is in focus in its group. -/
theorem here_act {bl : List (Entry B)} (hbl : (bl.map Entry.buffer).Nodup) (hg : groupOf bl ed.currentBuffer = some g) :
    (bar.act ed bl a g).map Focus.here = some ed.currentBuffer := by
  obtain ⟨f, hf, hb⟩ := Bar.mem_shown.1 (mem_shown_renew.2 (mem_members_groupOf hbl hg) : _ ∈ (bar.renew bl).shown g)
  have hcurrent : bar.current bl ed.currentBuffer g = some (f.visit ed.currentBuffer) := by
    unfold Bar.current Bar.select
    rw [if_pos hg, hf]
    rfl
  unfold Bar.act
  rw [if_pos hg, hcurrent, Option.map_some, Option.map_some, Focus.here_place, Focus.visit_here hb]

/-! ### Runs -/

omit [DecidableEq B] in
theorem consistent_start (flag : Bool) : Consistent (start flag : TabBar B) fun _ => none where
  represents _ := Option.Rel.none
  shown _ _ := by
    rw [Bar.mem_shown]
    constructor
    · rintro ⟨f, hf, -⟩
      cases hf
    · exact nofun
  nodup := List.nodup_nil

/-- An action that does not bring the tab sets up to date changes nothing that they show. -/
theorem perform_idle {n : Nat} {r : Except TabSignal Unit} (h : Consistent tb bar) (ha : ¬ Updates ed tb a)
    (hrun : perform bucket n ed a tb = some (r, tb')) :
    Consistent tb' bar ∧ tb'.buffers = tb.buffers ∧ hidden ed tb' = hidden ed tb := by
  cases a with
  | line =>
    obtain ⟨o, hline⟩ := Command.exists_of_bind_pure hrun
    have hhidden : hidden ed tb ed.currentBuffer = true := by
      rw [← Bool.not_eq_false]
      exact ha
    unfold line at hline
    rw [Command.bind_ok rfl, Command.bind_ok rfl] at hline
    simp only [hhidden, if_true] at hline
    cases hline
    exact ⟨h.of_eq rfl rfl, rfl, hidden_hideTabCached ed ed.currentBuffer tb⟩
  | refreshDisplay =>
    cases hrun
    have hrepresents := represents_mapAtoms (Tabset.name_setTemplate none) h.represents fun _ _ hts =>
      Tabset.shows_setTemplate hts none
    exact ⟨⟨hrepresents, h.shown, h.nodup⟩, rfl, rfl⟩
  | cycle backward scope => exact (ha trivial).elim
  | selectBegTab backward => exact (ha trivial).elim
  | moveToRight => exact (ha trivial).elim
  | moveToLeft => exact (ha trivial).elim
  | moveToBeg => exact (ha trivial).elim

/-- What one action does to a consistent tab bar. -/
theorem step_cases (h : Consistent tb bar) (hstep : Step bucket tb (ed, a) tb') :
    (Updates ed tb a ∧ Updated ed tb (bar.act ed (entries ed tb) a) tb') ∨
      (¬ Updates ed tb a ∧ Consistent tb' bar ∧ tb'.buffers = tb.buffers ∧ hidden ed tb' = hidden ed tb) := by
  obtain ⟨n, r, hrun⟩ := hstep
  by_cases ha : Updates ed tb a
  · exact Or.inl ⟨ha, perform_updated h ha hrun⟩
  · exact Or.inr ⟨ha, perform_idle h ha hrun⟩

theorem step_consistent (h : ∃ bar, Consistent tb bar) (hstep : Step bucket tb (ed, a) tb') :
    ∃ bar, Consistent tb' bar := by
  obtain ⟨bar, h⟩ := h
  rcases step_cases h hstep with ⟨-, hupdated⟩ | ⟨-, hsame, -⟩
  · exact ⟨_, hupdated.consistent⟩
  · exact ⟨bar, hsame⟩

/-- The tab bar is consistent after every run. -/
theorem run_consistent {flag : Bool} {u : List (Editor B × Action)} (h : Runs (Step bucket) (start flag) u tb) :
    ∃ bar, Consistent tb bar :=
  h.invariant (fun tb => ∃ bar, Consistent tb bar) ⟨_, consistent_start flag⟩
    fun _ _ _ hI hstep => step_consistent hI hstep

omit [DecidableEq B] in
theorem updates_congr (h : hidden ed tb' = hidden ed tb) : Updates ed tb' a ↔ Updates ed tb a := by
  cases a <;> simp only [Updates, h]

theorem updated_step (h : Consistent tb bar) (hstep : Step bucket tb (ed, a) tb') (ha : Updates ed tb' a) :
    Updates ed tb a ∧ Updated ed tb (bar.act ed (entries ed tb) a) tb' := by
  rcases step_cases h hstep with hcase | ⟨hidle, -, -, hsame⟩
  · exact hcase
  · exact absurd ((updates_congr hsame).1 ha) hidle

/-- The last action of a run. -/
theorem updated_of_run {flag : Bool} {u : List (Editor B × Action)}
    (h : Runs (Step bucket) (start flag) (u ++ [(ed, a)]) tb) (ha : Updates ed tb a) :
    ∃ bar, Consistent tb (Bar.act ed (entries ed tb) a bar) ∧ tb.buffers = entries ed tb := by
  obtain ⟨tb₀, hrun, hstep⟩ := h.last
  obtain ⟨bar, hcons⟩ := run_consistent hrun
  obtain ⟨-, hupdated⟩ := updated_step hcons hstep ha
  have hentries := entries_congr hupdated.hidden
  refine ⟨bar, ?_, ?_⟩
  · rw [hentries]
    exact hupdated.consistent
  · rw [hentries]
    exact hupdated.buffers

/-- After every run that ends with an action that brings the tab sets up to date, a group shows each buffer that belongs
to it exactly once, and no other one; a group without such buffers has no tab set; and the selected tabs are tabs of
their groups, with the current buffer selected in its group. -/
theorem tabsOf_run {flag : Bool} {u : List (Editor B × Action)}
    (h : Runs (Step bucket) (start flag) (u ++ [(ed, a)]) tb) (ha : Updates ed tb a) (g : List Char) :
    (tabsOf tb g).Nodup ∧ (∀ b, b ∈ tabsOf tb g ↔ Belongs ed tb b g) ∧
      ((tb.tabsets.find? g).isSome ↔ ∃ b, Belongs ed tb b g) ∧ (∀ b, selectedOf tb g = some b → b ∈ tabsOf tb g) ∧
      (Belongs ed tb ed.currentBuffer g → (ed.bufferGroups ed.currentBuffer).head? = some g →
        selectedOf tb g = some ed.currentBuffer) := by
  obtain ⟨bar, hcons, hbuffers⟩ := updated_of_run h ha
  have hmem : ∀ b, b ∈ tabsOf tb g ↔ Belongs ed tb b g := by
    intro b
    rw [mem_tabsOf hcons, hbuffers, mem_members_entries]
  refine ⟨nodup_tabsOf hcons g, hmem, ?_, fun b => selectedOf_mem hcons, ?_⟩
  · rw [isSome_find?_iff hcons]
    exact exists_congr hmem
  · intro hcur hhead
    rw [selectedOf_eq_here hcons]
    apply here_act (nodup_entries ed tb)
    rw [groupOf_entries (mem_tabBufferList.2 ⟨hcur.1, hcur.2.1, hcur.2.2.1⟩), hhead]

/-- Files of one group, with the names a, aa, aaa and so on. -/
def files (bufferList : List Nat) (currentBuffer : Nat) (h : bufferList.Nodup) : Editor Nat where
  bufferList := bufferList
  currentBuffer := currentBuffer
  bufferName n := List.replicate n 'a'
  bufferFileName n := some (List.replicate n 'a')
  bufferGroups _ := [['s', 'r', 'c']]
  hideTab _ := false
  overflows _ := false
  bufferList_nodup := h
  bufferName_inj b _ c _ h := by simpa using congrArg List.length h

/-- Three files have been shown, with the first one current. -/
def threeFiles : TabBar Nat := (bufferTabs (fun _ => 0) (files [1, 2, 3] 1 (by decide)) (start true)).1

theorem step_threeFiles :
    Step (fun _ => 0) (start true) (files [1, 2, 3] 1 (by decide), .selectBegTab false) threeFiles :=
  ⟨0, .ok (), rfl⟩

theorem tabsOf_run_three_files :
    2 ∈ tabsOf threeFiles ['s', 'r', 'c'] ∧ selectedOf threeFiles ['s', 'r', 'c'] = some 1 := by
  have h := tabsOf_run (.snoc .nil step_threeFiles) trivial ['s', 'r', 'c']
  exact ⟨(h.2.1 2).2 (by decide), h.2.2.2.2 (by decide) rfl⟩

/-! ### The order of the tabs -/

theorem foldl_addTo_some (xs : List B) (f : Focus B) :
    xs.foldl Focus.addTo (some f) = some (xs.foldl (fun f x => f.add x) f) := by
  induction xs generalizing f with
  | nil => rfl
  | cons x xs ih => exact ih (f.add x)

/-- What the bar shows when it has been brought up to date. -/
theorem shown_renew {bl : List (Entry B)} (hbl : (bl.map Entry.buffer).Nodup) {f : Focus B} (hf : bar g = some f) :
    (bar.renew bl).shown g = f.left.reverse.filter (· ∈ members bl g) ++
      ((f.here :: ((members bl g).filter (· ∉ f.toList)).reverse ++ f.right).filter (· ∈ members bl g)) := by
  have hrenew : bar.renew bl g =
      ((members bl g).foldl (fun f x => f.add x) f).filter fun b => b ∈ members bl g := by
    unfold Bar.renew
    rw [hf, foldl_addTo_some]
    rfl
  unfold Bar.shown
  rw [hrenew]
  cases hrest : ((members bl g).foldl (fun f x => f.add x) f).filter fun b => b ∈ members bl g with
  | some f' => exact Focus.toList_foldl_add_filter (nodup_members hbl) hrest
  | none =>
    -- nothing remains
    have hnone := Focus.filter_eq_none.1 hrest
    obtain ⟨hl, hh, hr⟩ := Focus.foldl_add (f := f) (nodup_members (g := g) hbl)
    rw [Focus.toList, hl, hh, hr] at hnone
    rw [← List.filter_append, eq_comm]
    show List.filter _ _ = []
    rw [List.filter_eq_nil_iff]
    intro b hb
    rw [hnone b (by simpa using hb)]
    exact Bool.false_ne_true

/-- An action that does not move a tab shows what has been brought up to date. -/
theorem shown_act {bl : List (Entry B)} (hplace : ∀ k, a.place k = k) :
    (bar.act ed bl a).shown g = (bar.renew bl).shown g := by
  rw [act_of_stay hplace]
  unfold Bar.shown Bar.current Bar.select
  split
  · cases bar.renew bl g with
    | none => rfl
    | some f => exact Focus.toList_visit _ f
  · rfl

/-- The first file has left and a fourth one has come in. -/
def otherFiles : TabBar Nat := (bufferTabs (fun _ => 0) (files [2, 3, 4] 4 (by decide)) threeFiles).1

theorem step_otherFiles :
    Step (fun _ => 0) threeFiles (files [2, 3, 4] 4 (by decide), .selectBegTab false) otherFiles :=
  ⟨0, .ok (), rfl⟩

/-- The tabs that stay keep their order. -/
theorem sublist_shown_renew {bl : List (Entry B)} (hbl : (bl.map Entry.buffer).Nodup) :
    ((bar.shown g).filter (· ∈ members bl g)).Sublist ((bar.renew bl).shown g) := by
  cases hf : bar g with
  | none =>
    rw [Bar.shown, hf]
    exact List.nil_sublist _
  | some f =>
    have hright : (f.here :: f.right).Sublist
        (f.here :: ((members bl g).filter (· ∉ f.toList)).reverse ++ f.right) :=
      (List.sublist_append_right _ f.right).cons_cons f.here
    have hshown : bar.shown g = f.left.reverse ++ f.here :: f.right := by
      rw [Bar.shown, hf]
      rfl
    rw [shown_renew hbl hf, hshown, List.filter_append]
    exact (hright.filter _).append_left _

/-- Buffers that belong to a group in every editor of a run without moves keep their order. -/
theorem tabsOf_run_sublist {flag : Bool} {u v : List (Editor B × Action)} (hstart : Runs (Step bucket) (start flag) u tb)
    {bs : List B} (hbs : bs.Sublist (tabsOf tb g))
    (h : Runs (fun tb x tb' => Step bucket tb x tb' ∧ (∀ k, x.2.place k = k) ∧
      (Updates x.1 tb' x.2 → ∀ b ∈ bs, Belongs x.1 tb' b g)) tb v tb') :
    bs.Sublist (tabsOf tb' g) := by
  suffices hinv : (∃ bar, Consistent tb' bar) ∧ bs.Sublist (tabsOf tb' g) from hinv.2
  refine h.invariant (fun tb => (∃ bar, Consistent tb bar) ∧ bs.Sublist (tabsOf tb g)) ⟨run_consistent hstart, hbs⟩ ?_
  rintro tb₁ ⟨ed, a⟩ tb₂ ⟨⟨bar, hcons⟩, hsub⟩ ⟨hstep, hplace, hbelong⟩
  rcases step_cases hcons hstep with ⟨ha, hupdated⟩ | ⟨-, hsame, -⟩
  · refine ⟨⟨_, hupdated.consistent⟩, ?_⟩
    have hmem : ∀ b ∈ bs, decide (b ∈ members (entries ed tb₁) g) = true := by
      intro b hb
      rw [decide_eq_true_eq, ← entries_congr hupdated.hidden, mem_members_entries]
      exact hbelong ((updates_congr hupdated.hidden).2 ha) b hb
    rw [tabsOf_eq_shown hupdated.consistent, shown_act hplace]
    rw [tabsOf_eq_shown hcons] at hsub
    have hstay := hsub.filter fun b => b ∈ members (entries ed tb₁) g
    rw [List.filter_eq_self.2 hmem] at hstay
    exact hstay.trans (sublist_shown_renew (nodup_entries ed tb₁))
  · refine ⟨⟨bar, hsame⟩, ?_⟩
    rw [tabsOf_eq_shown hsame, ← tabsOf_eq_shown hcons]
    exact hsub

theorem tabsOf_run_sublist_other_files : [3, 2].Sublist (tabsOf otherFiles ['s', 'r', 'c']) :=
  tabsOf_run_sublist (.snoc .nil step_threeFiles) (by decide)
    (.snoc .nil ⟨step_otherFiles, fun _ => rfl, fun _ => by decide⟩)

/-! ### Moving the current tab -/

/-- Nothing has to be brought up to date a second time. -/
theorem act_again {bl : List (Entry B)} (hshown : ∀ g b, b ∈ bar.shown g ↔ b ∈ members bl g)
    (hg : groupOf bl ed.currentBuffer = some g) {f : Focus B} (hf : bar g = some f) (hhere : f.here = ed.currentBuffer) :
    bar.act ed bl a = bar.put g (f.place (a.place f.position)) := by
  have hrenew := renew_eq_self hshown
  have hcurrent : bar.current bl ed.currentBuffer g = some f := by
    unfold Bar.current Bar.select
    rw [if_pos hg, hrenew, hf, Option.map_some, ← hhere, Focus.visit_self]
  rw [act_of_some hg hcurrent]
  funext k
  unfold Bar.put
  by_cases hk : k = g
  · rw [if_pos hk, if_pos hk]
  · rw [if_neg hk, if_neg hk]
    unfold Bar.current Bar.select
    rw [if_neg fun he => hk (Option.some.inj (hg.symm.trans he)).symm, hrenew]

omit [DecidableEq B] in
theorem place_of_not_updates (h : ¬ Updates ed tb a) (k : Nat) : a.place k = k := by
  cases a with
  | line => rfl
  | refreshDisplay => rfl
  | cycle backward scope => exact (h trivial).elim
  | selectBegTab backward => exact (h trivial).elim
  | moveToRight => exact (h trivial).elim
  | moveToLeft => exact (h trivial).elim
  | moveToBeg => exact (h trivial).elim

theorem walk_le {n k : Nat} (acts : List Action) (hk : k ≤ n) : acts.foldl (fun k a => min (a.place k) n) k ≤ n := by
  induction acts generalizing k with
  | nil => exact hk
  | cons a acts ih => exact ih (Nat.min_le_right _ _)

/-- Actions of one editor put the current tab at other places, one after the other. -/
theorem run_place {acts : List Action} {f : Focus B} (hcons : Consistent tb bar) (hbuffers : tb.buffers = entries ed tb)
    (hg : groupOf (entries ed tb) ed.currentBuffer = some g) (hf : bar g = some f) (hhere : f.here = ed.currentBuffer)
    (h : Runs (Step bucket) tb (acts.map fun a => (ed, a)) tb') :
    Consistent tb' (bar.put g (f.place (acts.foldl (fun k a => min (a.place k) f.others.length) f.position))) ∧
      tb'.buffers = entries ed tb ∧ hidden ed tb' = hidden ed tb := by
  induction acts using List.reverseRecOn generalizing tb' with
  | nil =>
    have hsame : tb' = tb := by
      generalize hv : [].map (fun a : Action => (ed, a)) = v at h
      cases h with
      | nil => rfl
      | snoc _ _ => simp at hv
    rw [hsame, List.foldl_nil, Focus.place_position, put_self hf]
    exact ⟨hcons, hbuffers, rfl⟩
  | append_singleton acts a ih =>
    rw [List.map_append] at h
    obtain ⟨tb₁, hrun, hstep⟩ := h.last
    obtain ⟨hcons₁, hbuffers₁, hhidden₁⟩ := ih hrun
    rw [List.foldl_append, List.foldl_cons, List.foldl_nil, Focus.place_min]
    generalize hk : acts.foldl (fun k a => min (a.place k) f.others.length) f.position = k at hcons₁ ⊢
    have hle : k ≤ f.others.length := by
      rw [← hk]
      exact walk_le acts f.position_le
    rcases step_cases hcons₁ hstep with ⟨ha, hupdated⟩ | ⟨ha, hsame, hbuffers', hhidden'⟩
    · have hentries := entries_congr hhidden₁
      have hshown := hcons₁.shown
      rw [hbuffers₁] at hshown
      have hposition : (f.place k).position = k := by
        rw [Focus.position_place, Nat.min_eq_left hle]
      have hact := act_again (a := a) hshown hg (if_pos rfl : _ = some (f.place k)) hhere
      rw [hposition, Focus.place_place] at hact
      have hput : ∀ f' : Focus B, (bar.put g (f.place k)).put g f' = bar.put g f' := by
        intro f'
        funext j
        unfold Bar.put
        split <;> rfl
      have hconsistent := hupdated.consistent
      rw [hentries, hact, hput] at hconsistent
      exact ⟨hconsistent, hupdated.buffers.trans hentries, hupdated.hidden.trans hhidden₁⟩
    · rw [place_of_not_updates ha]
      exact ⟨hsame, hbuffers'.trans hbuffers₁, hhidden'.trans hhidden₁⟩

/-- From a state that an editor has brought up to date, its actions in any order take the current tab for a walk among
the other tabs of its group: one place to the right or to the left or to the first place, but never out of the row.  The
other tabs keep their order, and the other groups are left as they are. -/
theorem tabsOf_run_place {flag : Bool} {u : List (Editor B × Action)} {acts : List Action}
    (hstart : Runs (Step bucket) (start flag) (u ++ [(ed, a)]) tb) (ha : Updates ed tb a)
    (hcur : Belongs ed tb ed.currentBuffer g) (hg : (ed.bufferGroups ed.currentBuffer).head? = some g)
    (h : Runs (Step bucket) tb (acts.map fun a => (ed, a)) tb') :
    (tabsOf tb' g).erase ed.currentBuffer = (tabsOf tb g).erase ed.currentBuffer ∧
      (tabsOf tb' g).idxOf ed.currentBuffer =
        acts.foldl (fun k a => min (a.place k) ((tabsOf tb g).length - 1)) ((tabsOf tb g).idxOf ed.currentBuffer) ∧
      ∀ g', g' ≠ g → tabsOf tb' g' = tabsOf tb g' := by
  obtain ⟨bar, hcons, hbuffers⟩ := updated_of_run hstart ha
  have hgroup : groupOf (entries ed tb) ed.currentBuffer = some g := by
    rw [groupOf_entries (mem_tabBufferList.2 ⟨hcur.1, hcur.2.1, hcur.2.2.1⟩), hg]
  have hfocus : (bar.act ed (entries ed tb) a g).map Focus.here = some ed.currentBuffer :=
    here_act (nodup_entries ed tb) hgroup
  obtain ⟨f, hf, hhere⟩ := Option.map_eq_some_iff.1 hfocus
  obtain ⟨hcons', -, -⟩ := run_place hcons hbuffers hgroup hf hhere h
  have htabs : tabsOf tb g = f.toList := by
    rw [tabsOf_eq_shown hcons, Bar.shown, hf]
    rfl
  have htabs' : tabsOf tb' g =
      (f.place (acts.foldl (fun k a => min (a.place k) f.others.length) f.position)).toList := by
    rw [tabsOf_eq_shown hcons', Bar.shown, Bar.put, if_pos rfl]
    rfl
  have hlength : f.toList.length - 1 = f.others.length := by
    rw [f.length_toList]
    rfl
  rw [htabs, htabs', hlength, ← hhere, Focus.idxOf_toList, Focus.erase_toList]
  refine ⟨?_, ?_, ?_⟩
  · rw [← Focus.here_place _ f, Focus.erase_toList, Focus.others_place]
  · rw [← Focus.here_place _ f, Focus.idxOf_toList, Focus.position_place, Nat.min_eq_left (walk_le acts f.position_le)]
  · intro g' hg'
    rw [tabsOf_eq_shown hcons', tabsOf_eq_shown hcons, Bar.shown, Bar.put, if_neg hg']
    rfl

/-- The first of three files moves its tab to the right. -/
def movedRight (tb : TabBar Nat) : TabBar Nat :=
  match moveCurrentTabToRight (fun _ => 0) (files [1, 2, 3] 1 (by decide)) tb with
  | some (_, tb') => tb'
  | none => tb

theorem tabsOf_run_place_three_files :
    (tabsOf (movedRight (movedRight (movedRight threeFiles))) ['s', 'r', 'c']).idxOf 1 = 2 := by
  have hrun : Runs (Step fun _ => 0) threeFiles
      ([.moveToRight, .moveToRight, .moveToRight].map fun a => (files [1, 2, 3] 1 (by decide), a))
      (movedRight (movedRight (movedRight threeFiles))) :=
    .snoc (u := [_, _]) (.snoc (u := [_]) (.snoc .nil ⟨0, .ok (), rfl⟩) ⟨0, .ok (), rfl⟩) ⟨0, .ok (), rfl⟩
  have h := tabsOf_run_place (.snoc .nil step_threeFiles) trivial (g := ['s', 'r', 'c']) (by decide) rfl hrun
  exact h.2.1.trans (by decide)

end AwesomeTab

end EmacsDir
