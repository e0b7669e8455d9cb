import EmacsDir.TabLine

/-!
# Kept header lines

The labels of a header line are kept until something changes that they depend on.  Over every run the labels of a kept
header line are those of the visible tabs, with the names in the cache of entries and the selected tab marked
(`AllDrawn`).  So the header line that is found in the cache is the one that would be drawn (`line_run`).
-/

namespace EmacsDir

open Command

namespace AwesomeTab

variable {B : Type} [DecidableEq B]

/-- The name in the entry of a buffer. -/
def cachedName (bl : List (Entry B)) (b : B) : List Char := ((entryOf bl b).map Entry.name).getD []

/-- The labels of the visible tabs. -/
def visibleLabels (bl : List (Entry B)) (ts : Tabset B) : List (TabLabel B) :=
  ts.view.map fun tab => ⟨tab, cachedName bl tab.value, ts.select = some tab⟩

/-- A kept header line consists of the labels of the visible tabs. -/
structure Drawn (bl : List (Entry B)) (ts : Tabset B) : Prop where
  start : 0 ≤ ts.start
  template : ∀ l, ts.template = some l → l = visibleLabels bl ts

def AllDrawn (tb : TabBar B) : Prop := ∀ g ts, tb.tabsets.find? g = some ts → Drawn tb.buffers ts

/-- There is no header line. -/
structure Undrawn (ts : Tabset B) : Prop where
  start : 0 ≤ ts.start
  template : ts.template = none

theorem Undrawn.drawn {ts : Tabset B} (h : Undrawn ts) (bl : List (Entry B)) : Drawn bl ts where
  start := h.start
  template l hl := by
    rw [h.template] at hl
    cases hl

section Added

variable {bucket : List Char → Nat} {cache : List (Entry B)} {ob ob' ob'' : Obarray (Tabset.name (B := B))}

omit [DecidableEq B] in
/-- Every tab set is an old one or has no header line. -/
def Kept (ob ob' : Obarray (Tabset.name (B := B))) : Prop :=
  ∀ g ts, ob'.find? g = some ts → ob.find? g = some ts ∨ Undrawn ts

def StartsOk (ob : Obarray (Tabset.name (B := B))) : Prop := ∀ g ts, ob.find? g = some ts → 0 ≤ ts.start

omit [DecidableEq B] in
theorem Kept.trans (h : Kept ob ob') (h' : Kept ob' ob'') : Kept ob ob'' := by
  intro g ts hts
  rcases h' g ts hts with hold | hnew
  · exact h g ts hold
  · exact Or.inr hnew

omit [DecidableEq B] in
theorem Kept.startsOk (h : Kept ob ob') (hs : StartsOk ob) : StartsOk ob' := by
  intro g ts hts
  rcases h g ts hts with hold | hnew
  · exact hs g ts hold
  · exact hnew.start

theorem start_addTab (b : B) (ts : Tabset B) : (ts.addTab b).start = ts.start := by
  unfold Tabset.addTab
  split <;> rfl

/-- A tab set is left alone or loses its header line. -/
theorem kept_addToGroup (bucket : List Char → Nat) (cache : List (Entry B)) (hs : StartsOk ob) (e : Entry B)
    (g : List Char) : Kept ob (addToGroup bucket cache e ob g) := by
  intro k ts hts
  unfold addToGroup at hts
  cases hfind : ob.find? g with
  | none =>
    rw [hfind] at hts
    rw [Obarray.find?_intern hfind] at hts
    split at hts
    · cases hts
      exact Or.inr ⟨Int.le_refl 0, rfl⟩
    · exact Or.inl hts
  | some tabset =>
    rw [hfind] at hts
    dsimp only at hts
    split at hts
    · exact Or.inl hts
    · rw [Obarray.find?_set] at hts
      split at hts
      · obtain ⟨ts', -, rfl⟩ := Option.map_eq_some_iff.1 hts
        refine Or.inr ⟨?_, rfl⟩
        show 0 ≤ (tabset.addTab e.buffer).start
        rw [start_addTab]
        exact hs g tabset hfind
      · exact Or.inl hts

/-- The tab set of a changed entry loses its header line. -/
theorem undrawn_addToGroup (hs : StartsOk ob) {e : Entry B} (he : entryOf cache e.buffer ≠ some e) {g : List Char}
    {ts : Tabset B} (hts : (addToGroup bucket cache e ob g).find? g = some ts) : Undrawn ts := by
  unfold addToGroup at hts
  cases hfind : ob.find? g with
  | none =>
    rw [hfind] at hts
    rw [Obarray.find?_intern hfind] at hts
    split at hts
    · cases hts
      exact ⟨Int.le_refl 0, rfl⟩
    · rename_i hne
      exact absurd rfl hne
  | some tabset =>
    rw [hfind] at hts
    dsimp only at hts
    have hname : ((tabset.addTab e.buffer).setTemplate none).name = g :=
      (Tabset.name_addTab _ _).trans (Obarray.name_of_find? hfind)
    rw [if_neg he, Obarray.find?_set, if_pos hname.symm, hfind] at hts
    cases hts
    refine ⟨?_, rfl⟩
    show 0 ≤ (tabset.addTab e.buffer).start
    rw [start_addTab]
    exact hs g tabset hfind

theorem kept_foldl_groups (bucket : List Char → Nat) (cache : List (Entry B)) (hs : StartsOk ob) (e : Entry B)
    (gs : List (List Char)) : Kept ob (gs.foldl (addToGroup bucket cache e) ob) := by
  induction gs generalizing ob with
  | nil => exact fun _ _ => Or.inl
  | cons g gs ih =>
    have hkept := kept_addToGroup bucket cache hs e g
    exact hkept.trans (ih (hkept.startsOk hs))

theorem undrawn_foldl_groups (hs : StartsOk ob) {e : Entry B} (he : entryOf cache e.buffer ≠ some e)
    {gs : List (List Char)} {g : List Char} (hg : g ∈ gs) {ts : Tabset B}
    (hts : (gs.foldl (addToGroup bucket cache e) ob).find? g = some ts) : Undrawn ts := by
  induction gs generalizing ob with
  | nil => cases hg
  | cons k gs ih =>
    have hs' := (kept_addToGroup bucket cache hs e k).startsOk hs
    rw [List.foldl_cons] at hts
    rcases List.mem_cons.1 hg with rfl | hg
    · rcases kept_foldl_groups bucket cache hs' e gs g ts hts with hold | hnew
      · exact undrawn_addToGroup hs he hold
      · exact hnew
    · exact ih hs' hg hts

theorem kept_addEntries (bucket : List Char → Nat) (cache : List (Entry B)) (hs : StartsOk ob) (bl : List (Entry B)) :
    Kept ob (bl.foldl (addEntry bucket cache) ob) := by
  induction bl generalizing ob with
  | nil => exact fun _ _ => Or.inl
  | cons e bl ih =>
    have hkept := kept_foldl_groups bucket cache hs e e.groups
    exact hkept.trans (ih (hkept.startsOk hs))

theorem undrawn_addEntries (hs : StartsOk ob) {bl : List (Entry B)} {e : Entry B} (hmem : e ∈ bl)
    (he : entryOf cache e.buffer ≠ some e) {g : List Char} (hg : g ∈ e.groups) {ts : Tabset B}
    (hts : (bl.foldl (addEntry bucket cache) ob).find? g = some ts) : Undrawn ts := by
  induction bl generalizing ob with
  | nil => cases hmem
  | cons e' bl ih =>
    have hs' := (kept_foldl_groups bucket cache hs e' e'.groups).startsOk hs
    rw [List.foldl_cons] at hts
    rcases List.mem_cons.1 hmem with rfl | hmem
    · rcases kept_addEntries bucket cache hs' bl g ts hts with hold | hnew
      · exact undrawn_foldl_groups hs he hg hold
      · exact hnew
    · exact ih hs' hmem hts

end Added

section Sweep

variable {bl : List (Entry B)} {ts : Tabset B}

theorem undrawn_deleteTab (tab : Tab B) (ts : Tabset B) :
    (ts.deleteTab tab).1.template = none ∧ (ts.deleteTab tab).1.start = ts.start := by
  unfold Tabset.deleteTab
  dsimp only
  split
  · unfold Tabset.selectTab
    split
    · exact ⟨rfl, rfl⟩
    · split
      · split <;> exact ⟨rfl, rfl⟩
      · exact ⟨rfl, rfl⟩
  · exact ⟨rfl, rfl⟩

theorem sweepFrom_cases (bl : List (Entry B)) (g : List Char) (tabs : List (Tab B)) (acc : Tabset B × Bool) :
    let swept := (tabs.foldl (sweepTab bl g) acc).1
    swept.start = acc.1.start ∧
      ((swept = acc.1 ∧ ∀ tab ∈ tabs, staysIn bl g tab.value = true) ∨ swept.template = none) := by
  induction tabs generalizing acc with
  | nil => exact ⟨rfl, Or.inl ⟨rfl, nofun⟩⟩
  | cons tab tabs ih =>
    rw [List.foldl_cons]
    by_cases htab : staysIn bl g tab.value = true
    · rw [sweepTab_stays htab]
      obtain ⟨hstart, hcase⟩ := ih acc
      refine ⟨hstart, ?_⟩
      rcases hcase with ⟨hsame, hstay⟩ | hnone
      · exact Or.inl ⟨hsame, List.forall_mem_cons.2 ⟨htab, hstay⟩⟩
      · exact Or.inr hnone
    · rw [sweepTab_goes htab]
      obtain ⟨hnone, hstart⟩ := undrawn_deleteTab tab acc.1
      obtain ⟨hstart', hcase⟩ := ih ((acc.1.deleteTab tab).1, acc.2 || (acc.1.deleteTab tab).2)
      refine ⟨hstart'.trans hstart, Or.inr ?_⟩
      rcases hcase with ⟨hsame, -⟩ | hnone'
      · rw [hsame]
        exact hnone
      · exact hnone'

/-- A tab set keeps all its tabs or loses its header line. -/
theorem sweep_cases (bl : List (Entry B)) (hs : 0 ≤ ts.start) :
    ((sweep bl ts).1 = ts ∧ ∀ tab ∈ ts.tabs, staysIn bl ts.name tab.value = true) ∨ Undrawn (sweep bl ts).1 := by
  obtain ⟨hstart, hcase⟩ := sweepFrom_cases bl ts.name ts.tabs (ts, false)
  rcases hcase with hkeep | hnone
  · exact Or.inl hkeep
  · exact Or.inr ⟨by rw [← hstart] at hs; exact hs, hnone⟩

end Sweep

section Updated

variable {bucket : List Char → Nat} {bl : List (Entry B)} {tb : TabBar B} {ed : Editor B}

theorem cachedName_of_mem (hbl : (bl.map Entry.buffer).Nodup) {e : Entry B} (he : e ∈ bl) :
    cachedName bl e.buffer = e.name := by
  unfold cachedName
  rw [(entryOf_eq_some_iff hbl).2 ⟨he, rfl⟩]
  rfl

/-- The header lines that are kept when the tab sets are brought up to date are those of tab sets without a change. -/
theorem allDrawn_updateTabsets (h : AllDrawn tb) (hbl : (bl.map Entry.buffer).Nodup) :
    AllDrawn (updateTabsets bucket bl tb) := by
  intro g ts' hts'
  show Drawn bl ts'
  have hs : StartsOk tb.tabsets := fun k ts hts => (h k ts hts).start
  have hkept := kept_addEntries bucket tb.buffers hs bl
  unfold updateTabsets at hts'
  dsimp only at hts'
  rw [find?_removeEmpty, Obarray.find?_mapAtoms] at hts'
  obtain ⟨hswept, -⟩ := Option.filter_eq_some_iff.1 hts'
  obtain ⟨ts, hts, rfl⟩ := Option.map_eq_some_iff.1 hswept
  have hname : ts.name = g := Obarray.name_of_find? hts
  rcases sweep_cases bl (hkept.startsOk hs g ts hts) with ⟨hsame, hstay⟩ | hundrawn
  · rw [hsame]
    rcases hkept g ts hts with hold | hundrawn
    · refine ⟨(h g ts hold).start, ?_⟩
      intro l hl
      rw [(h g ts hold).template l hl]
      apply List.map_congr_left
      intro tab htab
      -- the entry of a tab that stays has not changed
      have hmem := hstay tab (List.mem_of_mem_drop htab)
      rw [hname, staysIn_iff hbl] at hmem
      obtain ⟨e, he, hb, hg⟩ := mem_members.1 hmem
      have hcache : entryOf tb.buffers e.buffer = some e := by
        by_contra hne
        have hnone := (undrawn_addEntries hs he hne hg hts).template
        rw [hl] at hnone
        cases hnone
      rw [← hb, cachedName_of_mem hbl he]
      unfold cachedName
      rw [hcache]
      rfl
    · exact hundrawn.drawn bl
  · exact hundrawn.drawn bl

theorem AllDrawn.of_eq (h : AllDrawn tb) {tb' : TabBar B} (hts : tb'.tabsets = tb.tabsets)
    (hbuffers : tb'.buffers = tb.buffers) : AllDrawn tb' := by
  unfold AllDrawn
  rw [hts, hbuffers]
  exact h

theorem AllDrawn.set (h : AllDrawn tb) {ts : Tabset B} (hts : Drawn tb.buffers ts) (track : Bool) :
    AllDrawn { tb with tabsets := tb.tabsets.set ts, trackSelected := track } := by
  intro g ts' hts'
  show Drawn tb.buffers ts'
  rw [Obarray.find?_set] at hts'
  split at hts'
  · obtain ⟨ts₀, -, rfl⟩ := Option.map_eq_some_iff.1 hts'
    exact hts
  · exact h g ts' hts'

theorem allDrawn_bufferUpdateGroups (h : AllDrawn tb) : AllDrawn (bufferUpdateGroups bucket ed tb).1 := by
  obtain ⟨hkeep, hkeep'⟩ := hideTabCached_keeps ed (ed.bufferList.filter (listed ed)) tb
  have hsame := h.of_eq hkeep hkeep'
  unfold bufferUpdateGroups
  dsimp only
  split
  · exact hsame
  · exact allDrawn_updateTabsets hsame (nodup_entries ed tb)

theorem drawn_selectTab {ts : Tabset B} (h : Drawn bl ts) (tab : Option (Tab B)) : Drawn bl (ts.selectTab tab).1 := by
  unfold Tabset.selectTab
  split
  · exact h
  · rename_i tab
    have hundrawn : Undrawn { ts.setTemplate none with select := some tab } := ⟨h.start, rfl⟩
    split
    · split
      · exact h
      · exact hundrawn.drawn bl
    · exact h

theorem allDrawn_bufferTabs (h : AllDrawn tb) : AllDrawn (bufferTabs bucket ed tb).1 := by
  have hupdate : AllDrawn (bufferUpdateGroups bucket ed tb).1 := allDrawn_bufferUpdateGroups h
  unfold bufferTabs
  dsimp only
  split
  · rename_i ts hts
    obtain ⟨g, -, hfind⟩ := Option.bind_eq_some_iff.1 hts
    exact hupdate.set (drawn_selectTab (hupdate g ts hfind) _) _
  · exact hupdate

/-- The names in the entries are those of the editor. -/
theorem visibleLabels_eq {ts : Tabset B} {f : Focus B} (hbuffers : tb.buffers = entries ed tb)
    (hts : ts.Shows f) (hmem : ∀ b ∈ f.toList, b ∈ members tb.buffers ts.name) :
    visibleLabels tb.buffers ts = ts.view.map (lineTab ed ts) := by
  apply List.map_congr_left
  intro tab htab
  have htab := List.mem_of_mem_drop htab
  rw [hts.tabs] at htab
  obtain ⟨b, hb, rfl⟩ := List.mem_map.1 htab
  obtain ⟨e, he, rfl, -⟩ := mem_members.1 (hmem b hb)
  have hbl := nodup_entries ed tb
  rw [hbuffers] at he ⊢
  rw [cachedName_of_mem hbl he, (mem_entries.1 he).2.1]
  rfl

end Updated

/-! ### Runs -/

section Runs

variable {bucket : List Char → Nat} {tb tb' : TabBar B} {bar : Bar B} {ed : Editor B} {a : Action} {g : List Char}

/-- The tab set of the current buffer is in the store. -/
theorem find?_bufferTabs (hcons : Consistent tb bar) {ts : Tabset B} (hts : (bufferTabs bucket ed tb).2 = some ts) :
    (bufferTabs bucket ed tb).1.tabsets.find? ts.name = some ts ∧ ∃ f,
      bar.current (entries ed tb) ed.currentBuffer ts.name = some f ∧ ts.Shows f := by
  obtain ⟨-, -, htabs⟩ := bufferTabs_spec bucket hcons ed
  split at htabs
  · rw [htabs] at hts
    cases hts
  · obtain ⟨ts', f, htabs, hfind, rfl, hf, hshows, -⟩ := htabs
    rw [htabs] at hts
    cases hts
    exact ⟨hfind, f, hf, hshows⟩

/-- The names in the entries are those of the editor that has brought them up to date. -/
theorem visibleLabels_bufferTabs (bucket : List Char → Nat) (hcons : Consistent tb bar) {ts ts' : Tabset B} {f : Focus B}
    (hf : bar.current (entries ed tb) ed.currentBuffer ts.name = some f) (hname : ts'.name = ts.name)
    (hts' : ts'.Shows f) :
    visibleLabels (bufferTabs bucket ed tb).1.buffers ts' = ts'.view.map (lineTab ed ts') := by
  obtain ⟨hcons', hbuffers, -⟩ := bufferTabs_spec bucket hcons ed
  rw [← entries_congr (hidden_bufferTabs bucket ed tb)] at hbuffers
  apply visibleLabels_eq hbuffers hts'
  intro b hb
  rw [← hcons'.shown, Bar.mem_shown, hname]
  exact ⟨f, hf, hb⟩

/-- What one action does to the kept header lines. -/
theorem allDrawn_step (h : AllDrawn tb) (hcons : Consistent tb bar) (hstep : Step bucket tb (ed, a) tb') :
    AllDrawn tb' := by
  obtain ⟨n, r, hrun⟩ := hstep
  have hdrawn : AllDrawn (hideTabCached ed ed.currentBuffer tb) := h.of_eq rfl rfl
  have hcons₀ : Consistent (hideTabCached ed ed.currentBuffer tb) bar := hcons.of_eq rfl rfl
  cases perform_outcome hrun with
  | hidden => exact hdrawn
  | refreshed =>
    intro g ts hts
    have hfind : (tb.tabsets.mapAtoms (Tabset.setTemplate none) (Tabset.name_setTemplate none)).find? g = some ts := hts
    rw [Obarray.find?_mapAtoms] at hfind
    obtain ⟨ts₀, hfind₀, rfl⟩ := Option.map_eq_some_iff.1 hfind
    have hundrawn : Undrawn (ts₀.setTemplate none) := ⟨(h g ts₀ hfind₀).start, rfl⟩
    exact hundrawn.drawn _
  | current htb =>
    obtain rfl | rfl := htb
    · exact allDrawn_bufferTabs h
    · exact allDrawn_bufferTabs hdrawn
  | @moved ts tabs hts =>
    have hdrawn₁ : AllDrawn (bufferTabs bucket ed tb).1 := allDrawn_bufferTabs h
    obtain ⟨hfind, -⟩ := find?_bufferTabs hcons hts
    have hundrawn : Undrawn { ts.setTemplate none with tabs := tabs } := ⟨(hdrawn₁ _ ts hfind).start, rfl⟩
    exact hdrawn₁.set (hundrawn.drawn _) _
  | @drawn tb₀ ts ts' n o track htb hts hformat =>
    rw [← htb] at hdrawn hcons₀
    have hdrawn₁ : AllDrawn (bufferTabs bucket ed tb₀).1 := allDrawn_bufferTabs hdrawn
    obtain ⟨hfind, f, hf, hshows⟩ := find?_bufferTabs hcons₀ hts
    obtain ⟨-, hname, hts', hstart, htemplate, -⟩ := lineFormat_drawn hshows (hdrawn₁ _ ts hfind).start hformat
    refine hdrawn₁.set ⟨hstart, ?_⟩ track
    intro l hl
    rw [htemplate, Option.some.injEq] at hl
    rw [← hl, visibleLabels_bufferTabs bucket hcons₀ hf hname hts']

theorem run_drawn {flag : Bool} {u : List (Editor B × Action)} (h : Runs (Step bucket) (start flag) u tb) :
    AllDrawn tb ∧ ∃ bar, Consistent tb bar := by
  have hstart : AllDrawn (start flag : TabBar B) := by
    intro g ts hts
    cases hts
  refine h.invariant (fun tb => AllDrawn tb ∧ ∃ bar, Consistent tb bar) ⟨hstart, _, consistent_start flag⟩ ?_
  rintro tb₁ ⟨ed, a⟩ tb₂ ⟨hdrawn, bar, hcons⟩ hstep
  exact ⟨allDrawn_step hdrawn hcons hstep, step_consistent ⟨bar, hcons⟩ hstep⟩

/-- After every run, the header line of a buffer that is shown is a list of labels of its group: from the cache or newly
drawn, for every bound that is large enough, it has the labels of the visible tabs with their present names, and the
label of the current buffer is the active one.  The next time it is found in the cache. -/
theorem line_run {flag : Bool} {u : List (Editor B × Action)} (h : Runs (Step bucket) (start flag) u tb)
    (hcur : Belongs ed tb ed.currentBuffer g) (hg : (ed.bufferGroups ed.currentBuffer).head? = some g) :
    ∃ N, ∀ n, N ≤ n → ∃ ts tb', line bucket n ed tb = some (.ok (some (ts.view.map (lineTab ed ts))), tb') ∧
      tb'.tabsets.find? g = some ts ∧ ts.select = some ⟨ed.currentBuffer, g⟩ ∧
      ts.template = some (ts.view.map (lineTab ed ts)) := by
  obtain ⟨hdrawn, bar, hcons⟩ := run_drawn h
  have hkeep := hidden_hideTabCached ed ed.currentBuffer tb
  have hcons₀ : Consistent (hideTabCached ed ed.currentBuffer tb) bar := hcons.of_eq rfl rfl
  have hdrawn₀ : AllDrawn (hideTabCached ed ed.currentBuffer tb) := hdrawn.of_eq rfl rfl
  have hgroup : groupOf (entries ed (hideTabCached ed ed.currentBuffer tb)) ed.currentBuffer = some g := by
    rw [entries_congr hkeep, groupOf_entries (mem_tabBufferList.2 ⟨hcur.1, hcur.2.1, hcur.2.2.1⟩), hg]
  obtain ⟨-, -, htabs⟩ := bufferTabs_spec bucket hcons₀ ed
  have hdrawn₁ : AllDrawn (bufferTabs bucket ed (hideTabCached ed ed.currentBuffer tb)).1 := allDrawn_bufferTabs hdrawn₀
  rw [hgroup] at htabs
  obtain ⟨ts, f, htabs, hfind, rfl, hf, hts, hhere⟩ := htabs
  have hrun : ∀ n, line bucket n ed tb =
      tabsetLine n ed (some ts) (bufferTabs bucket ed (hideTabCached ed ed.currentBuffer tb)).1 := by
    intro n
    rw [line_of_not_hidden n hcur.2.2.1, ← htabs]
    rfl
  have hlabels := visibleLabels_bufferTabs bucket hcons₀ hf rfl hts
  generalize (bufferTabs bucket ed (hideTabCached ed ed.currentBuffer tb)).1 = tb₁ at *
  have hstart := (hdrawn₁ ts.name ts hfind).start
  refine ⟨ts.start.toNat + ts.tabs.length + 1, ?_⟩
  intro n hn
  rw [hrun]
  cases htemplate : ts.template with
  | some labels =>
    have hl := (hdrawn₁ ts.name ts hfind).template labels htemplate
    rw [hlabels] at hl
    refine ⟨ts, tb₁, ?_, hfind, ?_, ?_⟩
    · simp only [tabsetLine, htemplate]
      rw [hl]
      rfl
    · rw [hts.select, hhere]
    · rw [htemplate, hl]
  | none =>
    obtain ⟨ts', hformat⟩ := lineFormat_exits ed tb₁.trackSelected hts hstart (show _ < n by omega)
    obtain ⟨-, hname, hts', -, htemplate', -⟩ := lineFormat_drawn hts hstart hformat
    refine ⟨ts', { tb₁ with tabsets := tb₁.tabsets.set ts', trackSelected := false }, ?_, ?_, ?_, htemplate'⟩
    · simp only [tabsetLine, htemplate, hformat]
      rw [htemplate']
    · show (tb₁.tabsets.set ts').find? ts.name = some ts'
      rw [Obarray.find?_set, if_pos hname.symm, hfind]
      rfl
    · rw [hts'.select, hhere, hname]

theorem line_run_three_files :
    ∃ N, ∀ n, N ≤ n → ∃ ts tb', line (fun _ => 0) n (files [1, 2, 3] 1 (by decide)) threeFiles =
      some (.ok (some (ts.view.map (lineTab (files [1, 2, 3] 1 (by decide)) ts))), tb') ∧
      tb'.tabsets.find? ['s', 'r', 'c'] = some ts ∧ ts.select = some ⟨1, ['s', 'r', 'c']⟩ ∧
      ts.template = some (ts.view.map (lineTab (files [1, 2, 3] 1 (by decide)) ts)) :=
  line_run (.snoc .nil step_threeFiles) (by decide) rfl

end Runs

/-! ### Following the selected tab -/

section Track

variable {bucket : List Char → Nat} {cache bl : List (Entry B)} {ob ob' ob'' : Obarray (Tabset.name (B := B))}
  {tb tb' : TabBar B} {ed : Editor B} {a : Action} {g : List Char}

/-- Every tab set is still there, with the same selected tab and the same first visible one. -/
def Remains (ob ob' : Obarray (Tabset.name (B := B))) : Prop :=
  ∀ g ts, ob.find? g = some ts → ∃ ts', ob'.find? g = some ts' ∧ ts'.start = ts.start ∧ ts'.select = ts.select

omit [DecidableEq B] in
theorem Remains.refl (ob : Obarray (Tabset.name (B := B))) : Remains ob ob := fun _ ts hts => ⟨ts, hts, rfl, rfl⟩

omit [DecidableEq B] in
theorem Remains.trans (h : Remains ob ob') (h' : Remains ob' ob'') : Remains ob ob'' := by
  intro g ts hts
  obtain ⟨ts', hts', hstart, hselect⟩ := h g ts hts
  obtain ⟨ts'', hts'', hstart', hselect'⟩ := h' g ts' hts'
  exact ⟨ts'', hts'', hstart'.trans hstart, hselect'.trans hselect⟩

theorem select_addTab (b : B) (ts : Tabset B) : (ts.addTab b).select = ts.select := by
  unfold Tabset.addTab
  split <;> rfl

theorem remains_addToGroup (bucket : List Char → Nat) (cache : List (Entry B)) (e : Entry B)
    (ob : Obarray (Tabset.name (B := B))) (g : List Char) : Remains ob (addToGroup bucket cache e ob g) := by
  intro k ts hts
  unfold addToGroup
  cases hfind : ob.find? g with
  | none =>
    have hne : k ≠ g := by
      intro he
      rw [he, hfind] at hts
      cases hts
    refine ⟨ts, ?_, rfl, rfl⟩
    dsimp only
    rw [Obarray.find?_intern hfind]
    exact (if_neg hne).trans hts
  | some tabset =>
    dsimp only
    split
    · exact ⟨ts, hts, rfl, rfl⟩
    · rw [Obarray.find?_set]
      have hname : ((tabset.addTab e.buffer).setTemplate none).name = g :=
        (Tabset.name_addTab _ _).trans (Obarray.name_of_find? hfind)
      by_cases hk : k = g
      · rw [hk, hfind] at hts
        cases hts
        rw [hname, if_pos hk, hk, hfind]
        exact ⟨_, rfl, start_addTab _ _, select_addTab _ _⟩
      · rw [hname, if_neg hk]
        exact ⟨ts, hts, rfl, rfl⟩

theorem remains_foldl_groups (bucket : List Char → Nat) (cache : List (Entry B)) (e : Entry B) (gs : List (List Char))
    (ob : Obarray (Tabset.name (B := B))) : Remains ob (gs.foldl (addToGroup bucket cache e) ob) := by
  induction gs generalizing ob with
  | nil => exact .refl ob
  | cons g gs ih => exact (remains_addToGroup bucket cache e ob g).trans (ih _)

theorem remains_addEntries (bucket : List Char → Nat) (cache bl : List (Entry B)) (ob : Obarray (Tabset.name (B := B))) :
    Remains ob (bl.foldl (addEntry bucket cache) ob) := by
  induction bl generalizing ob with
  | nil => exact .refl ob
  | cons e bl ih => exact (remains_foldl_groups bucket cache e e.groups ob).trans (ih _)

theorem select_of_not_moved {tab : Option (Tab B)} {ts : Tabset B} (h : (ts.selectTab tab).2 = false) :
    (ts.selectTab tab).1.select = ts.select := by
  unfold Tabset.selectTab at h ⊢
  split
  · rfl
  · split
    · split
      · rfl
      · rename_i hmember hselect
        simp [hmember, hselect] at h
    · rfl

theorem select_deleteTab_of_not_moved {tab : Tab B} {ts : Tabset B} (h : (ts.deleteTab tab).2 = false) :
    (ts.deleteTab tab).1.select = ts.select := by
  unfold Tabset.deleteTab at h ⊢
  dsimp only at h ⊢
  split
  · rename_i hsel
    rw [if_pos hsel, if_pos hsel] at h
    exact select_of_not_moved h
  · rfl

theorem select_sweepFrom (g : List Char) (tabs : List (Tab B)) (acc : Tabset B × Bool)
    (h : (tabs.foldl (sweepTab bl g) acc).2 = false) :
    acc.2 = false ∧ (tabs.foldl (sweepTab bl g) acc).1.select = acc.1.select := by
  induction tabs generalizing acc with
  | nil => exact ⟨h, rfl⟩
  | cons tab tabs ih =>
    rw [List.foldl_cons] at h ⊢
    obtain ⟨hacc, hselect⟩ := ih _ h
    by_cases htab : staysIn bl g tab.value = true
    · rw [sweepTab_stays htab] at hacc hselect ⊢
      exact ⟨hacc, hselect⟩
    · rw [sweepTab_goes htab] at hacc hselect ⊢
      rw [Bool.or_eq_false_iff] at hacc
      exact ⟨hacc.1, hselect.trans (select_deleteTab_of_not_moved hacc.2)⟩

/-- If another tab comes to be selected when the others are deleted, this is noted. -/
theorem select_sweep {ts : Tabset B} (h : (sweep bl ts).2 = false) : (sweep bl ts).1.select = ts.select :=
  (select_sweepFrom ts.name ts.tabs (ts, false) h).2

theorem autoScrollFlag_bufferUpdateGroups (bucket : List Char → Nat) (ed : Editor B) (tb : TabBar B) :
    (bufferUpdateGroups bucket ed tb).1.autoScrollFlag = tb.autoScrollFlag := by
  have hfold : ∀ (bs : List B) (tb : TabBar B),
      (bs.foldl (fun tb b => hideTabCached ed b tb) tb).autoScrollFlag = tb.autoScrollFlag := by
    intro bs
    induction bs with
    | nil => exact fun _ => rfl
    | cons b bs ih =>
      intro tb
      rw [List.foldl_cons, ih]
      rfl
  unfold bufferUpdateGroups
  dsimp only
  split
  · exact hfold _ tb
  · exact hfold _ tb

theorem autoScrollFlag_bufferTabs (bucket : List Char → Nat) (ed : Editor B) (tb : TabBar B) :
    (bufferTabs bucket ed tb).1.autoScrollFlag = tb.autoScrollFlag := by
  rw [← autoScrollFlag_bufferUpdateGroups bucket ed tb]
  unfold bufferTabs
  dsimp only
  split <;> rfl

/-- The option is not touched. -/
theorem autoScrollFlag_step (hstep : Step bucket tb (ed, a) tb') : tb'.autoScrollFlag = tb.autoScrollFlag := by
  obtain ⟨n, r, hrun⟩ := hstep
  cases perform_outcome hrun with
  | hidden => rfl
  | refreshed => rfl
  | current htb =>
    obtain rfl | rfl := htb
    · exact autoScrollFlag_bufferTabs bucket ed _
    · exact autoScrollFlag_bufferTabs bucket ed _
  | moved tabs hts => exact autoScrollFlag_bufferTabs bucket ed tb
  | drawn track htb hts hformat =>
    rw [htb]
    exact autoScrollFlag_bufferTabs bucket ed _

theorem run_autoScrollFlag {flag : Bool} {u : List (Editor B × Action)} (h : Runs (Step bucket) (start flag) u tb) :
    tb.autoScrollFlag = flag :=
  h.invariant (fun tb => tb.autoScrollFlag = flag) rfl fun _ _ _ hflag hstep => (autoScrollFlag_step hstep).trans hflag

/-- The tab set of a group keeps its first visible tab.  If another tab comes to be selected, the header line is lost and
this is noted. -/
theorem bufferUpdateGroups_tabset {ts₀ ts₂ : Tabset B} (hs : StartsOk tb.tabsets) (hfind : tb.tabsets.find? g = some ts₀)
    (hfind' : (bufferUpdateGroups bucket ed tb).1.tabsets.find? g = some ts₂) :
    ts₂.start = ts₀.start ∧ (ts₂.select = ts₀.select ∨
      ts₂.template = none ∧ (bufferUpdateGroups bucket ed tb).1.trackSelected = tb.autoScrollFlag) := by
  have hflag := autoScrollFlag_bufferUpdateGroups bucket ed tb
  obtain ⟨hkeep, -⟩ := hideTabCached_keeps ed (ed.bufferList.filter (listed ed)) tb
  unfold bufferUpdateGroups at hfind' hflag ⊢
  dsimp only at hfind' hflag ⊢
  generalize (ed.bufferList.filter (listed ed)).foldl (fun tb b => hideTabCached ed b tb) tb = tb₁ at *
  by_cases hbl : entries ed tb = tb.buffers
  · rw [if_pos hbl] at hfind'
    rw [hkeep, hfind] at hfind'
    cases hfind'
    exact ⟨rfl, Or.inl rfl⟩
  · rw [if_neg hbl] at hfind' hflag ⊢
    generalize entries ed tb = bl at *
    unfold updateTabsets at hfind' hflag ⊢
    dsimp only at hfind' hflag ⊢
    rw [hkeep] at hfind'
    rw [find?_removeEmpty, Obarray.find?_mapAtoms] at hfind'
    obtain ⟨hswept, -⟩ := Option.filter_eq_some_iff.1 hfind'
    obtain ⟨ts, hts, rfl⟩ := Option.map_eq_some_iff.1 hswept
    obtain ⟨ts', hts', hstart, hselect⟩ := remains_addEntries bucket tb₁.buffers bl tb.tabsets g ts₀ hfind
    rw [hts] at hts'
    cases hts'
    have hsweep := (sweepFrom_cases bl ts.name ts.tabs (ts, false)).1
    refine ⟨hsweep.trans hstart, ?_⟩
    have hstart' : 0 ≤ ts.start := by
      rw [hstart]
      exact hs g ts₀ hfind
    rcases sweep_cases bl hstart' with ⟨hsame, -⟩ | hundrawn
    · rw [hsame]
      exact Or.inl hselect
    · cases hmoved : (sweep bl ts).2 with
      | false => exact Or.inl ((select_sweep hmoved).trans hselect)
      | true =>
        refine Or.inr ⟨hundrawn.template, ?_⟩
        have hany : ((bl.foldl (addEntry bucket tb₁.buffers) tb₁.tabsets).atoms.any fun ts => (sweep bl ts).2) = true := by
          rw [List.any_eq_true]
          rw [hkeep]
          exact ⟨ts, Obarray.mem_of_find? hts, hmoved⟩
        rw [if_pos hany]
        exact hflag

theorem selectTab_own (b : B) (ts : Tabset B) :
    ts.selectTab (some ⟨b, ts.name⟩) =
      if ts.select = some ⟨b, ts.name⟩ then (ts, false)
      else ({ ts.setTemplate none with select := some ⟨b, ts.name⟩ }, true) := by
  unfold Tabset.selectTab Tabset.member
  simp only [decide_true, Bool.true_or, if_true]

/-- When the current buffer is not the selected one of its group, the header line is drawn again and follows it. -/
theorem bufferTabs_tracks (bucket : List Char → Nat) {bar : Bar B} (hcons : Consistent tb bar) (hs : StartsOk tb.tabsets)
    (hgroup : groupOf (entries ed tb) ed.currentBuffer = some g) {ts₀ : Tabset B} (hfind : tb.tabsets.find? g = some ts₀)
    (hsel : ts₀.select ≠ some ⟨ed.currentBuffer, g⟩) :
    ∃ ts f, (bufferTabs bucket ed tb).2 = some ts ∧ (bufferTabs bucket ed tb).1.tabsets.find? g = some ts ∧
      ts.name = g ∧ ts.Shows f ∧ f.here = ed.currentBuffer ∧ ts.start = ts₀.start ∧ ts.template = none ∧
      (bufferTabs bucket ed tb).1.trackSelected = tb.autoScrollFlag := by
  obtain ⟨-, -, htabs⟩ := bufferTabs_spec bucket hcons ed
  rw [hgroup] at htabs
  obtain ⟨ts, f, htabs, hfind', hname, -, hts, hhere⟩ := htabs
  refine ⟨ts, f, htabs, hfind', hname, hts, hhere, ?_⟩
  have hupdate := consistent_bufferUpdateGroups bucket hcons ed
  have hbuffers := buffers_bufferUpdateGroups bucket ed tb
  have hflag := autoScrollFlag_bufferUpdateGroups bucket ed tb
  have hgroup' : (bufferUpdateGroups bucket ed tb).2 = some g := by
    rw [← hgroup, ← hbuffers]
    rfl
  obtain ⟨f₂, hf₂, hb⟩ := Bar.mem_shown.1
    (mem_shown_renew.2 (mem_members_groupOf (nodup_entries ed tb) hgroup) : _ ∈ (bar.renew (entries ed tb)).shown g)
  obtain ⟨ts₂, hfind₂, rfl, hts₂⟩ := hupdate.find? hf₂
  obtain ⟨hstart, hcase⟩ := bufferUpdateGroups_tabset hs hfind hfind₂
  have hget : ts₂.getTab ed.currentBuffer = some ⟨ed.currentBuffer, ts₂.name⟩ := by
    rw [Tabset.find?_tabs hts₂, if_pos hb]
  unfold bufferTabs at htabs ⊢
  dsimp only at htabs ⊢
  simp only [hgroup', Option.bind_some, hfind₂, hget, selectTab_own] at htabs ⊢
  split at htabs
  · rename_i hselect
    rw [if_pos hselect]
    cases htabs
    rcases hcase with hsame | ⟨htemplate, htrack⟩
    · exact absurd (hsame.symm.trans hselect) hsel
    · exact ⟨hstart, htemplate, htrack⟩
  · rename_i hselect
    rw [if_neg hselect]
    cases htabs
    exact ⟨hstart, rfl, hflag⟩

/-- With the option on, after every run: when another tab of its group was selected than that of the current buffer,
drawing the header line scrolls the group just as far as needed to show the tab of the current buffer. -/
theorem line_scrolls {u : List (Editor B × Action)} (h : Runs (Step bucket) (start true) u tb)
    (hcur : Belongs ed tb ed.currentBuffer g) (hg : (ed.bufferGroups ed.currentBuffer).head? = some g)
    {ts₀ : Tabset B} (hfind : tb.tabsets.find? g = some ts₀) (hsel : selectedOf tb g ≠ some ed.currentBuffer) :
    ∃ N, ∀ n, N ≤ n → ∃ labels tb' ts, line bucket n ed tb = some (.ok labels, tb') ∧ tb'.tabsets.find? g = some ts ∧
      ∃ k : Nat, ts.start = (k : Int) ∧
        Scrolled ed ts ts₀.start.toNat ((tabsOf tb' g).idxOf ed.currentBuffer) k := by
  obtain ⟨hdrawn, bar, hcons⟩ := run_drawn h
  have hkeep := hidden_hideTabCached ed ed.currentBuffer tb
  have hcons₀ : Consistent (hideTabCached ed ed.currentBuffer tb) bar := hcons.of_eq rfl rfl
  have hgroup : groupOf (entries ed (hideTabCached ed ed.currentBuffer tb)) ed.currentBuffer = some g := by
    rw [entries_congr hkeep, groupOf_entries (mem_tabBufferList.2 ⟨hcur.1, hcur.2.1, hcur.2.2.1⟩), hg]
  have hselect : ts₀.select ≠ some ⟨ed.currentBuffer, g⟩ := by
    intro he
    apply hsel
    unfold selectedOf
    rw [hfind, Option.bind_some, he]
    rfl
  have hs : StartsOk tb.tabsets := fun k ts hts => (hdrawn k ts hts).start
  obtain ⟨ts, f, htabs, hfind', rfl, hts, hhere, hstart, htemplate, htrack⟩ :=
    bufferTabs_tracks bucket hcons₀ hs hgroup hfind hselect
  have hflag : (hideTabCached ed ed.currentBuffer tb).autoScrollFlag = true := by
    show tb.autoScrollFlag = true
    exact run_autoScrollFlag h
  rw [hflag] at htrack
  have hrun : ∀ n, line bucket n ed tb =
      tabsetLine n ed (some ts) (bufferTabs bucket ed (hideTabCached ed ed.currentBuffer tb)).1 := by
    intro n
    rw [line_of_not_hidden n hcur.2.2.1, ← htabs]
    rfl
  generalize (bufferTabs bucket ed (hideTabCached ed ed.currentBuffer tb)).1 = tb₁ at *
  have hpos : 0 ≤ ts.start := by
    rw [hstart]
    exact (hdrawn _ ts₀ hfind).start
  refine ⟨ts.start.toNat + ts.tabs.length + 1, ?_⟩
  intro n hn
  rw [hrun]
  obtain ⟨ts', hformat⟩ := lineFormat_exits ed tb₁.trackSelected hts hpos (show _ < n by omega)
  obtain ⟨-, hname, hts', -, -, hscrolled⟩ := lineFormat_drawn hts hpos hformat
  obtain ⟨k, hk, hscrolled⟩ := hscrolled htrack
  have hset : (tb₁.tabsets.set ts').find? ts.name = some ts' := by
    rw [Obarray.find?_set, if_pos hname.symm, hfind']
    rfl
  refine ⟨ts'.template, { tb₁ with tabsets := tb₁.tabsets.set ts', trackSelected := false }, ts', ?_, hset, k, hk, ?_⟩
  · simp only [tabsetLine, htemplate, hformat]
  · have hlist : tabsOf { tb₁ with tabsets := tb₁.tabsets.set ts', trackSelected := false } ts.name = f.toList := by
      unfold tabsOf
      rw [hset]
      exact Tabset.values_of_shows hts'
    have hstart₀ : ts₀.start = ts.start := hstart.symm
    rw [hlist, ← hhere, Focus.idxOf_toList, hstart₀]
    obtain ⟨htabs', hselect'⟩ := name_eq_of_shows hts hts' hname
    exact hscrolled.congr htabs' hselect'

/-- The third of three files becomes current. -/
theorem line_scrolls_three_files :
    ∃ ts₀, threeFiles.tabsets.find? ['s', 'r', 'c'] = some ts₀ ∧
      ∃ N, ∀ n, N ≤ n → ∃ labels tb' ts, line (fun _ => 0) n (files [1, 2, 3] 3 (by decide)) threeFiles =
        some (.ok labels, tb') ∧ tb'.tabsets.find? ['s', 'r', 'c'] = some ts ∧
        ∃ k : Nat, ts.start = (k : Int) ∧ Scrolled (files [1, 2, 3] 3 (by decide)) ts ts₀.start.toNat
          ((tabsOf tb' ['s', 'r', 'c']).idxOf 3) k :=
  ⟨_, rfl, line_scrolls (.snoc .nil step_threeFiles) (by decide) rfl rfl (by decide)⟩

end Track

end AwesomeTab

end EmacsDir
