import EmacsDir.TabCommands

/-!
# What an action does to the tab bar

Every action in every editor takes a consistent tab bar to a consistent one, and says what the new bar is (`Bar.act`): the
tab sets are brought up to date, the current buffer comes in focus in its group, and a move gives it another place there.
-/

namespace EmacsDir

open Command

namespace AwesomeTab

variable {B : Type} [DecidableEq B]

/-! ### The hidden buffers -/

theorem hidden_hideTabCached (ed : Editor B) (b : B) (tb : TabBar B) :
    hidden ed (hideTabCached ed b tb) = hidden ed tb := by
  funext c
  unfold hidden hideTabCached
  dsimp only
  split
  · rename_i hc
    rw [hc]
    rfl
  · rfl

theorem entries_congr {ed : Editor B} {tb tb' : TabBar B} (h : hidden ed tb' = hidden ed tb) :
    entries ed tb' = entries ed tb := by
  unfold entries tabBufferList
  rw [h]

theorem hidden_bufferUpdateGroups (bucket : List Char → Nat) (ed : Editor B) (tb : TabBar B) :
    hidden ed (bufferUpdateGroups bucket ed tb).1 = hidden ed tb := by
  have hfold : ∀ (bs : List B) (tb : TabBar B),
      hidden ed (bs.foldl (fun tb b => hideTabCached ed b tb) tb) = hidden ed tb := by
    intro bs
    induction bs with
    | nil => exact fun _ => rfl
    | cons b bs ih =>
      intro tb
      rw [List.foldl_cons, ih, hidden_hideTabCached]
  unfold bufferUpdateGroups
  dsimp only
  split
  · exact hfold _ tb
  · exact hfold _ tb

theorem hidden_bufferTabs (bucket : List Char → Nat) (ed : Editor B) (tb : TabBar B) :
    hidden ed (bufferTabs bucket ed tb).1 = hidden ed tb := by
  rw [← hidden_bufferUpdateGroups bucket ed tb]
  unfold bufferTabs
  dsimp only
  split <;> rfl

/-! ### Moving the current tab -/

section Moves

variable {α : Type} {current : α → Bool} {x : α} {u v : List α}

theorem moveRightFrom_append (newBufs : List α) (hu : ∀ y ∈ u, current y = false) (hx : current x = true) :
    moveRightFrom current newBufs (u ++ x :: v) = some (newBufs.reverse ++ ((u ++ v.take 1) ++ x :: v.drop 1)) := by
  induction u generalizing newBufs with
  | nil =>
    rw [List.nil_append]
    unfold moveRightFrom
    rw [if_pos hx]
    cases v <;> simp
  | cons y u ih =>
    have hy : ¬ current y = true := by simp [hu y List.mem_cons_self]
    rw [List.cons_append]
    unfold moveRightFrom
    rw [if_neg hy, ih _ fun z hz => hu z (List.mem_cons_of_mem y hz)]
    simp

theorem moveLeftFrom_append (newBufs : List α) (notYet : α) (hu : ∀ y ∈ u, current y = false)
    (hx : current x = true) :
    moveLeftFrom current newBufs notYet (u ++ x :: v) =
      some (newBufs.reverse ++ ((notYet :: u).take u.length ++ x :: ((notYet :: u).drop u.length ++ v))) := by
  induction u generalizing newBufs notYet with
  | nil =>
    rw [List.nil_append, moveLeftFrom, if_pos hx]
    simp
  | cons y u ih =>
    have hy : ¬ current y = true := by simp [hu y List.mem_cons_self]
    rw [List.cons_append, moveLeftFrom, if_neg hy, ih _ _ fun z hz => hu z (List.mem_cons_of_mem y hz)]
    simp

end Moves

/-- Where an action puts the current tab. -/
def Action.place : Action → Nat → Nat
  | .moveToRight, k => k + 1
  | .moveToLeft, k => k - 1
  | .moveToBeg, _ => 0
  | _, k => k

omit [DecidableEq B] in
/-- The tab of the current buffer is found by its name. -/
theorem isCurrent_iff {ed : Editor B} {b : B} {g : List Char} (hb : b ∈ ed.bufferList)
    (hcur : ed.currentBuffer ∈ ed.bufferList) : isCurrent ed ⟨b, g⟩ = true ↔ b = ed.currentBuffer := by
  unfold isCurrent
  rw [decide_eq_true_eq]
  constructor
  · exact fun h => (ed.bufferName_inj _ hcur _ hb h).symm
  · exact fun h => congrArg ed.bufferName h.symm

section Tabs

variable {ed : Editor B} {ts : Tabset B} {f : Focus B}

omit [DecidableEq B] in
theorem tabs_split (hts : ts.Shows f) :
    ts.tabs = (f.left.reverse.map fun b => Tab.mk b ts.name) ++ ⟨f.here, ts.name⟩ ::
      f.right.map fun b => Tab.mk b ts.name := by
  rw [hts.tabs, Focus.toList, List.map_append, List.map_cons]

omit [DecidableEq B] in
theorem isCurrent_left {g : List Char} (hcur : f.here = ed.currentBuffer) (hlist : ∀ b ∈ f.toList, b ∈ ed.bufferList)
    (tab : Tab B) (h : tab ∈ f.left.reverse.map fun b => Tab.mk b g) : isCurrent ed tab = false := by
  obtain ⟨b, hb, rfl⟩ := List.mem_map.1 h
  have hne : b ≠ ed.currentBuffer := fun he => f.here_notMem_left (by rwa [hcur, ← he, ← List.mem_reverse])
  rw [Bool.eq_false_iff, ne_eq, isCurrent_iff (hlist b (List.mem_append_left _ hb)) (hcur ▸ hlist _ f.here_mem)]
  exact hne

omit [DecidableEq B] in
theorem isCurrent_here (hcur : f.here = ed.currentBuffer) : isCurrent ed ⟨f.here, ts.name⟩ = true := by
  unfold isCurrent
  rw [decide_eq_true_eq, hcur]

omit [DecidableEq B] in
theorem moveRightFrom_tabs (hts : ts.Shows f) (hcur : f.here = ed.currentBuffer)
    (hlist : ∀ b ∈ f.toList, b ∈ ed.bufferList) :
    moveRightFrom (isCurrent ed) [] ts.tabs =
      some ((f.place (f.position + 1)).toList.map fun b => Tab.mk b ts.name) := by
  rw [tabs_split hts, moveRightFrom_append [] (isCurrent_left hcur hlist) (isCurrent_here hcur), Focus.toList_place,
    Focus.others, Focus.position, ← List.length_reverse, List.take_length_add_append, List.drop_length_add_append]
  simp [List.map_take]

omit [DecidableEq B] in
theorem moveLeftFrom_tabs (hts : ts.Shows f) (hcur : f.here = ed.currentBuffer)
    (hlist : ∀ b ∈ f.toList, b ∈ ed.bufferList) {firstBuf : Tab B} {oldBufs : List (Tab B)}
    (htabs : ts.tabs = firstBuf :: oldBufs) (hfirst : isCurrent ed firstBuf = false) :
    moveLeftFrom (isCurrent ed) [] firstBuf oldBufs =
      some ((f.place (f.position - 1)).toList.map fun b => Tab.mk b ts.name) := by
  have hsplit := tabs_split hts
  rw [htabs] at hsplit
  cases hleft : f.left.reverse with
  | nil =>
    rw [hleft] at hsplit
    obtain ⟨rfl, -⟩ := List.cons.inj hsplit
    rw [isCurrent_here hcur] at hfirst
    cases hfirst
  | cons c l =>
    rw [hleft, List.map_cons, List.cons_append] at hsplit
    obtain ⟨rfl, rfl⟩ := List.cons.inj hsplit
    have hl : ∀ tab ∈ l.map fun b => Tab.mk b ts.name, isCurrent ed tab = false := by
      intro tab htab
      apply isCurrent_left (g := ts.name) hcur hlist
      rw [hleft]
      exact List.mem_cons_of_mem _ htab
    have hpos : f.position - 1 = l.length := by
      rw [Focus.position, ← List.length_reverse, hleft]
      rfl
    rw [moveLeftFrom_append [] _ hl (isCurrent_here hcur), Focus.toList_place, hpos, Focus.others, hleft,
      List.take_append_of_le_length (by simp), List.drop_append_of_le_length (by simp)]
    simp only [List.reverse_nil, List.nil_append, List.length_map, List.map_append, List.map_take, List.map_drop,
      List.map_cons]

theorem moveToBeg_tabs (hts : ts.Shows f) (hcur : f.here = ed.currentBuffer) :
    (ts.tabs.find? fun tab => tab.value = ed.currentBuffer) = some ⟨f.here, ts.name⟩ ∧
      (⟨f.here, ts.name⟩ :: ts.tabs.filter (· ≠ ⟨f.here, ts.name⟩)) =
        (f.place 0).toList.map fun b => Tab.mk b ts.name := by
  constructor
  · have hfind := Tabset.find?_tabs hts ed.currentBuffer
    rw [if_pos (hcur ▸ f.here_mem), ← hcur] at hfind
    exact hcur ▸ hfind
  · rw [Tabset.tabs_filter hts, Focus.toList_place, Focus.toList, List.filter_append, List.filter_reverse,
      List.filter_cons_of_neg (by simp), Focus.filter_ne_eq_self f.here_notMem_left,
      Focus.filter_ne_eq_self f.here_notMem_right]
    rfl

end Tabs

/-! ### One action -/

/-- The action brings the tab sets up to date; the header line of a hidden buffer does not. -/
def Updates (ed : Editor B) (tb : TabBar B) : Action → Prop
  | .line => hidden ed tb ed.currentBuffer = false
  | .refreshDisplay => False
  | _ => True

/-- The bar after an action that brings the tab sets up to date. -/
def Bar.act (ed : Editor B) (bl : List (Entry B)) (a : Action) (bar : Bar B) : Bar B := fun g =>
  if groupOf bl ed.currentBuffer = some g then
    (bar.current bl ed.currentBuffer g).map fun f => f.place (a.place f.position)
  else bar.current bl ed.currentBuffer g

section Act

variable {ed : Editor B} {bl : List (Entry B)} {a : Action} {bar : Bar B} {g : List Char} {f : Focus B}

theorem act_of_none (h : groupOf bl ed.currentBuffer = none) : bar.act ed bl a = bar.current bl ed.currentBuffer := by
  funext k
  unfold Bar.act
  rw [h]
  exact if_neg nofun

theorem act_of_some (h : groupOf bl ed.currentBuffer = some g) (hf : bar.current bl ed.currentBuffer g = some f) :
    bar.act ed bl a = (bar.current bl ed.currentBuffer).put g (f.place (a.place f.position)) := by
  funext k
  unfold Bar.act Bar.put
  rw [h]
  by_cases hk : k = g
  · rw [if_pos (by rw [hk]), if_pos hk, hk, hf]
    rfl
  · rw [if_neg fun he => hk (Option.some.inj he).symm, if_neg hk]

/-- Only a move gives the current tab another place. -/
theorem act_of_stay (h : ∀ k, a.place k = k) : bar.act ed bl a = bar.current bl ed.currentBuffer := by
  have hplace : (fun f : Focus B => f.place (a.place f.position)) = id := by
    funext f
    rw [h, Focus.place_position]
    rfl
  funext k
  unfold Bar.act
  rw [hplace]
  split
  · rw [Option.map_id, id]
  · rfl

omit [DecidableEq B] in
theorem put_self (h : bar g = some f) : bar.put g f = bar := by
  funext k
  unfold Bar.put
  split
  · rename_i hk
    rw [hk, h]
  · rfl

end Act

/-- The state after an action that brings the tab sets up to date. -/
structure Updated (ed : Editor B) (tb : TabBar B) (bar : Bar B) (tb' : TabBar B) : Prop where
  consistent : Consistent tb' bar
  buffers : tb'.buffers = entries ed tb
  hidden : hidden ed tb' = hidden ed tb

section Actions

variable {bucket : List Char → Nat} {ed : Editor B} {tb tb' : TabBar B} {bar : Bar B} {α : Type}
  {r : Except TabSignal α}

/-- A command that begins with `(awesome-tab-current-tabset t)`. -/
theorem currentTabset_bind {k : Option (Tabset B) → Command TabSignal (TabBar B) α} (h : Consistent tb bar)
    (hk : (currentTabset bucket ed >>= k) tb = some (r, tb')) :
    ∃ tb₁, tb₁ = (bufferTabs bucket ed tb).1 ∧ Updated ed tb (bar.current (entries ed tb) ed.currentBuffer) tb₁ ∧
      ((groupOf (entries ed tb) ed.currentBuffer = none ∧ k none tb₁ = some (r, tb')) ∨
        ∃ ts f, groupOf (entries ed tb) ed.currentBuffer = some ts.name ∧ tb₁.tabsets.find? ts.name = some ts ∧
          bar.current (entries ed tb) ed.currentBuffer ts.name = some f ∧ ts.Shows f ∧ f.here = ed.currentBuffer ∧
          k (some ts) tb₁ = some (r, tb')) := by
  obtain ⟨hcons, hbuffers, htabs⟩ := bufferTabs_spec bucket h ed
  have hrun : k (bufferTabs bucket ed tb).2 (bufferTabs bucket ed tb).1 = some (r, tb') := hk
  refine ⟨(bufferTabs bucket ed tb).1, rfl, ⟨hcons, hbuffers, hidden_bufferTabs bucket ed tb⟩, ?_⟩
  cases hg : groupOf (entries ed tb) ed.currentBuffer with
  | none =>
    rw [hg] at htabs
    rw [show (bufferTabs bucket ed tb).2 = none from htabs] at hrun
    exact Or.inl ⟨rfl, hrun⟩
  | some g =>
    rw [hg] at htabs
    obtain ⟨ts, f, htabs, hfind, rfl, hf, hts, hhere⟩ := htabs
    rw [htabs] at hrun
    exact Or.inr ⟨ts, f, rfl, hfind, hf, hts, hhere, hrun⟩

/-- A command that does not touch the tab bar after that. -/
theorem updated_of_read {k : Option (Tabset B) → Command TabSignal (TabBar B) α} (h : Consistent tb bar)
    (hread : ∀ o, Keeps id (k o)) (hk : (currentTabset bucket ed >>= k) tb = some (r, tb')) :
    Updated ed tb (bar.current (entries ed tb) ed.currentBuffer) tb' := by
  obtain ⟨tb₁, -, hupdated, ⟨-, hrun⟩ | ⟨ts, f, -, -, -, -, -, hrun⟩⟩ := currentTabset_bind h hk
  · obtain rfl : tb' = tb₁ := hread _ _ _ _ hrun
    exact hupdated
  · obtain rfl : tb' = tb₁ := hread _ _ _ _ hrun
    exact hupdated

/-- The buffers of the bar are live. -/
theorem mem_bufferList_of_current {g : List Char} {f : Focus B}
    (hf : bar.current (entries ed tb) ed.currentBuffer g = some f) (b : B) (hb : b ∈ f.toList) : b ∈ ed.bufferList := by
  have hshown : b ∈ (bar.renew (entries ed tb)).shown g := by
    rw [Bar.mem_shown]
    unfold Bar.current Bar.select at hf
    split at hf
    · obtain ⟨f', hf', rfl⟩ := Option.map_eq_some_iff.1 hf
      rw [Focus.toList_visit] at hb
      exact ⟨f', hf', hb⟩
    · exact ⟨f, hf, hb⟩
  obtain ⟨e, he, rfl, -⟩ := mem_members.1 (mem_shown_renew.1 hshown)
  unfold entries at he
  rw [List.mem_insertionSort] at he
  obtain ⟨c, hc, rfl⟩ := List.mem_map.1 he
  exact List.mem_of_mem_filter (List.mem_of_mem_filter hc)

/-- A move sets the tabs of the current tab set. -/
theorem updated_setTabs {a : Action} {ts : Tabset B} {f : Focus B} {tabs : List (Tab B)} {r : Except TabSignal Unit}
    (h : Updated ed tb (bar.current (entries ed tb) ed.currentBuffer) tb')
    (hg : groupOf (entries ed tb) ed.currentBuffer = some ts.name)
    (hf : bar.current (entries ed tb) ed.currentBuffer ts.name = some f) (hts : ts.Shows f)
    (htabs : tabs = (f.place (a.place f.position)).toList.map fun b => Tab.mk b ts.name) {tb'' : TabBar B}
    (hset : setTabs ts tabs tb' = some (r, tb'')) : Updated ed tb (bar.act ed (entries ed tb) a) tb'' := by
  cases hset
  rw [act_of_some hg hf]
  have hshows : ({ ts.setTemplate none with tabs := tabs } : Tabset B).Shows (f.place (a.place f.position)) :=
    ⟨htabs, hts.select⟩
  have hname : bar.current (entries ed tb) ed.currentBuffer ({ ts.setTemplate none with tabs := tabs } : Tabset B).name =
      some f := hf
  exact ⟨h.consistent.set hname hshows (fun b => Focus.mem_toList_place _) _, h.buffers, h.hidden⟩

/-- Drawing the header line moves the first visible tab, and nothing else that the bar shows. -/
theorem keeps_lineFormat (ed : Editor B) (track : Bool) (n : Nat) :
    Keeps (fun ts : Tabset B => (ts.name, ts.tabs, ts.select)) (lineFormat ed track n) := by
  have hscroll : ∀ (count : Int) (ts : Tabset B),
      ((ts.scroll count).name, (ts.scroll count).tabs, (ts.scroll count).select) = (ts.name, ts.tabs, ts.select) := by
    intro count ts
    unfold Tabset.scroll
    dsimp only
    split <;> rfl
  unfold lineFormat
  cases track with
  | false => exact keeps_update fun _ => rfl
  | true =>
    apply Keeps.bind (Keeps.whileLoop (fun _ => keeps_gets _) (fun _ => keeps_update (hscroll (-1))) n ())
    intro _
    apply (keeps_gets id).bind
    intro ts
    apply Keeps.bind
    · apply Keeps.whileLoop (fun _ => keeps_pure _)
      intro elts
      exact (keeps_update (hscroll 1)).bind fun _ => keeps_pure _
    · exact fun _ => keeps_update fun _ => rfl

/-- Drawing the header line of a tab set. -/
theorem updated_tabsetLine {bar' : Bar B} {ts : Tabset B} {f : Focus B} {n : Nat} {tb₁ : TabBar B}
    {o : Except TabSignal (Option (List (TabLabel B)))} (h : Updated ed tb bar' tb₁) (hf : bar' ts.name = some f)
    (hts : ts.Shows f) (hrun : tabsetLine n ed (some ts) tb₁ = some (o, tb')) : Updated ed tb bar' tb' := by
  -- the tab set keeps its tabs and its selected tab
  have hset : ∀ ts' : Tabset B, (ts'.name, ts'.tabs, ts'.select) = (ts.name, ts.tabs, ts.select) → ∀ track,
      Updated ed tb bar' { tb₁ with tabsets := tb₁.tabsets.set ts', trackSelected := track } := by
    intro ts' hsame track
    simp only [Prod.mk.injEq] at hsame
    obtain ⟨hname, htabs, hselect⟩ := hsame
    have hshows : ts'.Shows f := by
      constructor
      · rw [htabs, hts.tabs, hname]
      · rw [hselect, hts.select, hname]
    rw [← hname] at hf
    have hput := h.consistent.set hf hshows (fun _ => Iff.rfl) track
    rw [put_self hf] at hput
    exact ⟨hput, h.buffers, h.hidden⟩
  unfold tabsetLine at hrun
  cases htemplate : ts.template with
  | some labels =>
    simp only [htemplate] at hrun
    cases hrun
    exact h
  | none =>
    simp only [htemplate] at hrun
    split at hrun
    · cases hrun
    · rename_i e ts' hformat
      cases hrun
      exact hset ts' (keeps_lineFormat ed _ n _ _ _ hformat) tb₁.trackSelected
    · rename_i ts' hformat
      cases hrun
      exact hset ts' (keeps_lineFormat ed _ n _ _ _ hformat) false

theorem line_of_not_hidden (n : Nat) (h : AwesomeTab.hidden ed tb ed.currentBuffer = false) :
    line bucket n ed tb = (currentTabset bucket ed >>= tabsetLine n ed) (hideTabCached ed ed.currentBuffer tb) := by
  unfold line
  rw [bind_ok rfl, bind_ok rfl]
  simp only [h, Bool.false_eq_true, if_false]

theorem updated_line {n : Nat} {o : Except TabSignal (Option (List (TabLabel B)))} (h : Consistent tb bar)
    (hhidden : AwesomeTab.hidden ed tb ed.currentBuffer = false) (hrun : line bucket n ed tb = some (o, tb')) :
    Updated ed tb (bar.current (entries ed tb) ed.currentBuffer) tb' := by
  have hkeep := hidden_hideTabCached ed ed.currentBuffer tb
  have hentries := entries_congr hkeep
  have hcons : Consistent (hideTabCached ed ed.currentBuffer tb) bar := h.of_eq rfl rfl
  rw [line_of_not_hidden n hhidden] at hrun
  obtain ⟨tb₁, -, hupdated, hcase⟩ := currentTabset_bind hcons hrun
  rw [hentries] at hupdated hcase
  have hupdated : Updated ed tb (bar.current (entries ed tb) ed.currentBuffer) tb₁ :=
    ⟨hupdated.consistent, hupdated.buffers.trans hentries, hupdated.hidden.trans hkeep⟩
  obtain ⟨-, hrun⟩ | ⟨ts, f, -, -, hf, hts, -, hrun⟩ := hcase
  · cases hrun
    exact hupdated
  · exact updated_tabsetLine hupdated hf hts hrun

theorem updated_moveToRight {r : Except TabSignal Unit} (h : Consistent tb bar)
    (hrun : moveCurrentTabToRight bucket ed tb = some (r, tb')) :
    Updated ed tb (bar.act ed (entries ed tb) .moveToRight) tb' := by
  obtain ⟨tb₁, -, hupdated, ⟨hg, hrun⟩ | ⟨ts, f, hg, -, hf, hts, hhere, hrun⟩⟩ := currentTabset_bind h hrun
  · cases hrun
    rw [act_of_none hg]
    exact hupdated
  · simp only [moveRightFrom_tabs hts hhere (mem_bufferList_of_current hf)] at hrun
    exact updated_setTabs hupdated hg hf hts rfl hrun

theorem updated_moveToLeft {r : Except TabSignal Unit} (h : Consistent tb bar)
    (hrun : moveCurrentTabToLeft bucket ed tb = some (r, tb')) :
    Updated ed tb (bar.act ed (entries ed tb) .moveToLeft) tb' := by
  obtain ⟨tb₁, -, hupdated, ⟨hg, hrun⟩ | ⟨ts, f, hg, -, hf, hts, hhere, hrun⟩⟩ := currentTabset_bind h hrun
  · rw [act_of_none hg]
    have htb' : tb' = tb₁ := by
      dsimp only at hrun
      split at hrun
      · cases hrun
        rfl
      · cases hrun
        rfl
    rw [htb']
    exact hupdated
  · have hsplit := tabs_split hts
    cases htabs : ts.tabs with
    | nil =>
      rw [htabs] at hsplit
      simp at hsplit
    | cons firstBuf oldBufs =>
      simp only [htabs] at hrun
      cases hfirst : isCurrent ed firstBuf with
      | true =>
        -- the current tab is the leftmost one
        rw [hfirst, if_pos rfl] at hrun
        cases hrun
        have hleft : f.left = [] := by
          cases hl : f.left.reverse with
          | nil => exact List.reverse_eq_nil_iff.1 hl
          | cons c l =>
            rw [htabs, hl, List.map_cons, List.cons_append] at hsplit
            obtain ⟨rfl, -⟩ := List.cons.inj hsplit
            have hfalse : isCurrent ed ⟨c, ts.name⟩ = false :=
              isCurrent_left (g := ts.name) hhere (mem_bufferList_of_current hf) _ (by rw [hl]; exact List.mem_cons_self)
            rw [hfirst] at hfalse
            cases hfalse
        have hplace : f.place (Action.place .moveToLeft f.position) = f := by
          have hpos : Action.place .moveToLeft f.position = f.position := by
            rw [Focus.position, hleft]
            rfl
          rw [hpos, Focus.place_position]
        rw [act_of_some hg hf, hplace, put_self hf]
        exact hupdated
      | false =>
        rw [hfirst, if_neg Bool.false_ne_true] at hrun
        rw [moveLeftFrom_tabs hts hhere (mem_bufferList_of_current hf) htabs hfirst] at hrun
        exact updated_setTabs hupdated hg hf hts rfl hrun

theorem updated_moveToBeg {r : Except TabSignal Unit} (h : Consistent tb bar)
    (hrun : moveCurrentTabToBeg bucket ed tb = some (r, tb')) :
    Updated ed tb (bar.act ed (entries ed tb) .moveToBeg) tb' := by
  obtain ⟨tb₁, -, hupdated, ⟨hg, hrun⟩ | ⟨ts, f, hg, -, hf, hts, hhere, hrun⟩⟩ := currentTabset_bind h hrun
  · cases hrun
    rw [act_of_none hg]
    exact hupdated
  · obtain ⟨hfind, htabs⟩ := moveToBeg_tabs hts hhere
    simp only [hfind] at hrun
    exact updated_setTabs hupdated hg hf hts htabs hrun

/-- Every action that brings the tab sets up to date takes the bar to `Bar.act`. -/
theorem perform_updated {a : Action} {n : Nat} {r : Except TabSignal Unit} (h : Consistent tb bar)
    (ha : Updates ed tb a) (hrun : perform bucket n ed a tb = some (r, tb')) :
    Updated ed tb (bar.act ed (entries ed tb) a) tb' := by
  cases a with
  | line =>
    rw [act_of_stay fun _ => rfl]
    obtain ⟨o, hline⟩ := exists_of_bind_pure hrun
    exact updated_line h ha hline
  | cycle backward scope =>
    rw [act_of_stay fun _ => rfl]
    obtain ⟨o, hcycle⟩ := exists_of_bind_pure hrun
    apply updated_of_read h _ hcycle
    intro o
    cases o with
    | none => exact keeps_pure none
    | some ts => exact (keeps_gets _).bind fun _ => keeps_pure _
  | selectBegTab backward =>
    rw [act_of_stay fun _ => rfl]
    obtain ⟨o, hselect⟩ := exists_of_bind_pure hrun
    apply updated_of_read h _ hselect
    intro o
    cases o with
    | none => exact keeps_pure none
    | some ts => exact keeps_pure _
  | moveToRight => exact updated_moveToRight h hrun
  | moveToLeft => exact updated_moveToLeft h hrun
  | moveToBeg => exact updated_moveToBeg h hrun
  | refreshDisplay => exact ha.elim

/-- What an action can do to the tab bar. -/
inductive Outcome (bucket : List Char → Nat) (ed : Editor B) (tb : TabBar B) : TabBar B → Prop
  | hidden : Outcome bucket ed tb (hideTabCached ed ed.currentBuffer tb)
  | refreshed : Outcome bucket ed tb
      { tb with tabsets := tb.tabsets.mapAtoms (Tabset.setTemplate none) (Tabset.name_setTemplate none) }
  | current {tb₀ : TabBar B} : tb₀ = tb ∨ tb₀ = hideTabCached ed ed.currentBuffer tb →
      Outcome bucket ed tb (bufferTabs bucket ed tb₀).1
  | moved {ts : Tabset B} (tabs : List (Tab B)) : (bufferTabs bucket ed tb).2 = some ts →
      Outcome bucket ed tb { (bufferTabs bucket ed tb).1 with
        tabsets := (bufferTabs bucket ed tb).1.tabsets.set { ts.setTemplate none with tabs := tabs } }
  | drawn {tb₀ : TabBar B} {ts ts' : Tabset B} {n : Nat} {o : Except TabSignal Unit} (track : Bool) :
      tb₀ = hideTabCached ed ed.currentBuffer tb → (bufferTabs bucket ed tb₀).2 = some ts →
      lineFormat ed (bufferTabs bucket ed tb₀).1.trackSelected n ts = some (o, ts') →
      Outcome bucket ed tb { (bufferTabs bucket ed tb₀).1 with
        tabsets := (bufferTabs bucket ed tb₀).1.tabsets.set ts', trackSelected := track }

theorem line_outcome {n : Nat} {o : Except TabSignal (Option (List (TabLabel B)))}
    (hrun : line bucket n ed tb = some (o, tb')) : Outcome bucket ed tb tb' := by
  cases hhidden : AwesomeTab.hidden ed tb ed.currentBuffer with
  | true =>
    unfold line at hrun
    rw [bind_ok rfl, bind_ok rfl] at hrun
    simp only [hhidden, if_true] at hrun
    cases hrun
    exact .hidden
  | false =>
    rw [line_of_not_hidden n hhidden] at hrun
    have hrun : tabsetLine n ed (bufferTabs bucket ed (hideTabCached ed ed.currentBuffer tb)).2
        (bufferTabs bucket ed (hideTabCached ed ed.currentBuffer tb)).1 = some (o, tb') := hrun
    cases htabs : (bufferTabs bucket ed (hideTabCached ed ed.currentBuffer tb)).2 with
    | none =>
      rw [htabs] at hrun
      cases hrun
      exact .current (Or.inr rfl)
    | some ts =>
      rw [htabs] at hrun
      cases htemplate : ts.template with
      | some labels =>
        simp only [tabsetLine, htemplate] at hrun
        cases hrun
        exact .current (Or.inr rfl)
      | none =>
        simp only [tabsetLine, htemplate] at hrun
        split at hrun
        · cases hrun
        · rename_i e ts' hformat
          cases hrun
          exact .drawn _ rfl htabs hformat
        · rename_i ts' hformat
          cases hrun
          exact .drawn _ rfl htabs hformat

/-- A command that begins with `(awesome-tab-current-tabset t)` and then sets the tabs of the tab set or does nothing. -/
theorem outcome_of_tabs {k : Option (Tabset B) → Command TabSignal (TabBar B) α}
    (hk : ∀ o s r s', k o s = some (r, s') →
      s' = s ∨ ∃ ts tabs, o = some ts ∧ setTabs ts tabs s = some (.ok (), s'))
    (hrun : (currentTabset bucket ed >>= k) tb = some (r, tb')) : Outcome bucket ed tb tb' := by
  rcases hk (bufferTabs bucket ed tb).2 (bufferTabs bucket ed tb).1 r tb' hrun with hsame | ⟨ts, tabs, hts, hset⟩
  · rw [hsame]
    exact .current (Or.inl rfl)
  · cases hset
    exact .moved tabs hts

theorem moveToLeft_outcome {r : Except TabSignal Unit} (hrun : moveCurrentTabToLeft bucket ed tb = some (r, tb')) :
    Outcome bucket ed tb tb' := by
  apply outcome_of_tabs _ hrun
  intro o s r s' hk
  have hnoTabs : ∀ {s s' : TabBar B} {r : Except TabSignal Unit},
      (if ed.bufferName ed.currentBuffer = ['n', 'i', 'l'] then pure () else signal notFound : Command _ _ Unit) s =
        some (r, s') → s' = s := by
    intro s s' r hk
    split at hk <;> cases hk <;> rfl
  cases o with
  | none => exact Or.inl (hnoTabs hk)
  | some ts =>
    cases htabs : ts.tabs with
    | nil =>
      simp only [htabs] at hk
      exact Or.inl (hnoTabs hk)
    | cons firstBuf oldBufs =>
      simp only [htabs] at hk
      cases hfirst : isCurrent ed firstBuf with
      | true =>
        simp only [hfirst, if_true] at hk
        cases hk
        exact Or.inl rfl
      | false =>
        cases hmove : moveLeftFrom (isCurrent ed) [] firstBuf oldBufs with
        | none =>
          simp only [hfirst, hmove, Bool.false_eq_true, if_false] at hk
          cases hk
          exact Or.inl rfl
        | some newBufs =>
          simp only [hfirst, hmove, Bool.false_eq_true, if_false] at hk
          cases hk
          exact Or.inr ⟨ts, newBufs, rfl, rfl⟩

/-- Every action has one of the outcomes. -/
theorem perform_outcome {a : Action} {n : Nat} {r : Except TabSignal Unit}
    (hrun : perform bucket n ed a tb = some (r, tb')) : Outcome bucket ed tb tb' := by
  cases a with
  | line =>
    obtain ⟨o, hline⟩ := exists_of_bind_pure hrun
    exact line_outcome hline
  | cycle backward scope =>
    obtain ⟨o, hcycle⟩ := exists_of_bind_pure hrun
    apply outcome_of_tabs _ hcycle
    intro o s r s' hk
    cases o <;> cases hk <;> exact Or.inl rfl
  | selectBegTab backward =>
    obtain ⟨o, hselect⟩ := exists_of_bind_pure hrun
    apply outcome_of_tabs _ hselect
    intro o s r s' hk
    cases o <;> cases hk <;> exact Or.inl rfl
  | moveToRight =>
    apply outcome_of_tabs _ hrun
    intro o s r s' hk
    cases o with
    | none =>
      cases hk
      exact Or.inl rfl
    | some ts =>
      cases hmove : moveRightFrom (isCurrent ed) [] ts.tabs with
      | none =>
        simp only [hmove] at hk
        cases hk
        exact Or.inl rfl
      | some newBufs =>
        simp only [hmove] at hk
        cases hk
        exact Or.inr ⟨ts, newBufs, rfl, rfl⟩
  | moveToLeft => exact moveToLeft_outcome hrun
  | moveToBeg =>
    apply outcome_of_tabs _ hrun
    intro o s r s' hk
    cases o with
    | none =>
      cases hk
      exact Or.inl rfl
    | some ts =>
      cases hfind : ts.tabs.find? fun tab => tab.value = ed.currentBuffer with
      | none =>
        simp only [hfind] at hk
        cases hk
        exact Or.inl rfl
      | some currentTab =>
        simp only [hfind] at hk
        cases hk
        exact Or.inr ⟨ts, _, rfl, rfl⟩
  | refreshDisplay =>
    cases hrun
    exact .refreshed

end Actions

end AwesomeTab

end EmacsDir
