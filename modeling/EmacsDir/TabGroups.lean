import EmacsDir.AwesomeTab

/-!
# What the tab bar shows

The purpose of the tab bar: for every group the buffers of the group, in an order that only the user changes, with one
of them selected.  As a model, a `Bar` gives every group that has buffers a focus.  Bringing it up to date (`renew`) adds
the new members of a group to the right of the focus, one after the other, and takes out what is not a member any more.

The store of tab sets with its cache of entries is a `Bar` whose members are those of the cache (`Consistent`), and
`bufferUpdateGroups` is `renew`, whether the entries have changed or not: with the old entries nothing has to be done.
-/

namespace EmacsDir

namespace AwesomeTab

variable {B : Type} [DecidableEq B]

/-- What is shown for each group. -/
abbrev Bar (B : Type) : Type := List Char → Option (Focus B)

/-- The buffers with an entry in a group. -/
def members (bl : List (Entry B)) (g : List Char) : List B := (bl.filter fun e => e.groups.contains g).map Entry.buffer

/-- The buffers shown for a group, in their order. -/
def Bar.shown (bar : Bar B) (g : List Char) : List B := ((bar g).map Focus.toList).getD []

/-- The bar brought up to date. -/
def Bar.renew (bl : List (Entry B)) (bar : Bar B) : Bar B := fun g =>
  ((members bl g).foldl Focus.addTo (bar g)).bind (Focus.filter fun b => b ∈ members bl g)

/-- The tab sets are those of the bar. -/
def Represents (ob : Obarray (Tabset.name (B := B))) (bar : Bar B) : Prop :=
  ∀ g, Option.Rel Tabset.Shows (ob.find? g) (bar g)

/-- The store shows the bar, and every group shows the buffers that have an entry in it. -/
structure Consistent (tb : TabBar B) (bar : Bar B) : Prop where
  represents : Represents tb.tabsets bar
  shown : ∀ g b, b ∈ bar.shown g ↔ b ∈ members tb.buffers g
  nodup : (tb.buffers.map Entry.buffer).Nodup

omit [DecidableEq B] in
/-- A group has a tab set if the bar shows something for it. -/
theorem Represents.cases {ob : Obarray (Tabset.name (B := B))} {bar : Bar B} (h : Represents ob bar) (g : List Char) :
    (ob.find? g = none ∧ bar g = none) ∨ ∃ ts f, ob.find? g = some ts ∧ bar g = some f ∧ ts.Shows f := by
  have hrel := h g
  generalize ob.find? g = o at hrel
  generalize bar g = o' at hrel
  cases hrel with
  | none => exact Or.inl ⟨rfl, rfl⟩
  | some hts => exact Or.inr ⟨_, _, rfl, rfl, hts⟩

section Members

variable {bl : List (Entry B)} {g : List Char} {b : B}

omit [DecidableEq B] in
theorem mem_members : b ∈ members bl g ↔ ∃ e ∈ bl, e.buffer = b ∧ g ∈ e.groups := by
  simp only [members, List.mem_map, List.mem_filter, List.contains_iff_mem]
  constructor
  · rintro ⟨e, ⟨he, hg⟩, hb⟩
    exact ⟨e, he, hb, hg⟩
  · rintro ⟨e, he, hb, hg⟩
    exact ⟨e, ⟨he, hg⟩, hb⟩

omit [DecidableEq B] in
theorem members_cons (e : Entry B) (bl : List (Entry B)) (g : List Char) :
    members (e :: bl) g = if g ∈ e.groups then e.buffer :: members bl g else members bl g := by
  unfold members
  by_cases hg : g ∈ e.groups
  · rw [List.filter_cons, if_pos (List.contains_iff_mem.2 hg), if_pos hg, List.map_cons]
  · rw [List.filter_cons, if_neg (by simpa using hg), if_neg hg]

omit [DecidableEq B] in
theorem nodup_members (h : (bl.map Entry.buffer).Nodup) : (members bl g).Nodup :=
  h.sublist (List.filter_sublist.map Entry.buffer)

theorem entryOf_eq_some_iff (h : (bl.map Entry.buffer).Nodup) {e : Entry B} :
    entryOf bl b = some e ↔ e ∈ bl ∧ e.buffer = b := by
  constructor
  · intro he
    exact ⟨List.mem_of_find?_eq_some he, by simpa using List.find?_some he⟩
  · rintro ⟨he, rfl⟩
    cases hf : entryOf bl e.buffer with
    | none =>
      have := List.find?_eq_none.1 hf e he
      simp at this
    | some e' =>
      have hb : e'.buffer = e.buffer := by simpa using List.find?_some hf
      rw [List.inj_on_of_nodup_map h (List.mem_of_find?_eq_some hf) he hb]

theorem staysIn_iff (h : (bl.map Entry.buffer).Nodup) : staysIn bl g b = true ↔ b ∈ members bl g := by
  unfold staysIn
  rw [mem_members]
  constructor
  · intro hs
    split at hs
    · rename_i e he
      obtain ⟨hmem, hb⟩ := (entryOf_eq_some_iff h).1 he
      exact ⟨e, hmem, hb, List.contains_iff_mem.1 hs⟩
    · cases hs
  · rintro ⟨e, he, hb, hg⟩
    rw [(entryOf_eq_some_iff h).2 ⟨he, hb⟩]
    exact List.contains_iff_mem.2 hg

end Members

/-! ### Adding the entries -/

theorem Focus.mem_addTo {o : Option (Focus B)} {x y : B} {f : Focus B} (h : Focus.addTo o x = some f) :
    y ∈ f.toList ↔ y = x ∨ ∃ f', o = some f' ∧ y ∈ f'.toList := by
  cases o with
  | none =>
    cases h
    simp [Focus.single, Focus.toList]
  | some f' =>
    cases h
    rw [Focus.mem_add]
    simp

/-- An entry is skipped only if its buffer is there already. -/
def SkipsShown (cache : List (Entry B)) (bar : Bar B) (e : Entry B) : Prop :=
  entryOf cache e.buffer = some e → ∀ g ∈ e.groups, e.buffer ∈ bar.shown g

/-- The entry comes in for one group. -/
def Bar.enter (e : Entry B) (bar : Bar B) (g : List Char) : Bar B := fun k =>
  if k = g then Focus.addTo (bar g) e.buffer else bar k

variable {bucket : List Char → Nat} {cache bl : List (Entry B)} {ob : Obarray (Tabset.name (B := B))} {bar : Bar B}

omit [DecidableEq B] in
theorem Bar.mem_shown {g : List Char} {b : B} : b ∈ bar.shown g ↔ ∃ f, bar g = some f ∧ b ∈ f.toList := by
  unfold Bar.shown
  cases bar g with
  | none => simp
  | some f => simp

theorem Bar.shown_enter {e : Entry B} {g k : List Char} {b : B} :
    b ∈ (bar.enter e g).shown k ↔ b ∈ bar.shown k ∨ (k = g ∧ b = e.buffer) := by
  rw [Bar.mem_shown, Bar.mem_shown]
  unfold Bar.enter
  by_cases hk : k = g
  · subst hk
    rw [if_pos rfl]
    simp only [true_and]
    constructor
    · rintro ⟨f, hf, hb⟩
      exact ((Focus.mem_addTo hf).1 hb).symm
    · intro h
      cases ho : Focus.addTo (bar k) e.buffer with
      | none =>
        unfold Focus.addTo at ho
        split at ho <;> cases ho
      | some f => exact ⟨f, rfl, (Focus.mem_addTo ho).2 h.symm⟩
  · rw [if_neg hk]
    simp [hk]

/-- One group shows something else. -/
def Bar.put (g : List Char) (f : Focus B) (bar : Bar B) : Bar B := fun k => if k = g then some f else bar k

omit [DecidableEq B] in
theorem represents_set (h : Represents ob bar) {ts ts' : Tabset B} {f : Focus B} (hfind : ob.find? ts'.name = some ts)
    (hshows : ts'.Shows f) : Represents (ob.set ts') (bar.put ts'.name f) := by
  intro k
  rw [Obarray.find?_set]
  unfold Bar.put
  by_cases hk : k = ts'.name
  · rw [if_pos hk, if_pos hk, hk, hfind]
    exact Option.Rel.some hshows
  · rw [if_neg hk, if_neg hk]
    exact h k

theorem represents_addToGroup (h : Represents ob bar) {e : Entry B} {g : List Char} (hg : g ∈ e.groups)
    (hskip : SkipsShown cache bar e) : Represents (addToGroup bucket cache e ob g) (bar.enter e g) := by
  unfold addToGroup
  obtain ⟨hfind, hbar⟩ | ⟨ts, f, hfind, hbar, hshows⟩ := h.cases g
  · simp only [hfind]
    intro k
    rw [Obarray.find?_intern hfind, show (Tabset.make g [e.buffer]).name = g from rfl]
    unfold Bar.enter
    by_cases hkg : k = g
    · subst hkg
      rw [if_pos rfl, if_pos rfl, hbar]
      exact Option.Rel.some (Tabset.shows_make k e.buffer)
    · rw [if_neg hkg, if_neg hkg]
      exact h k
  · simp only [hfind]
    have hname : ts.name = g := Obarray.name_of_find? hfind
    split
    · -- the entry has not changed
      rename_i hcache
      have hmem : e.buffer ∈ f.toList := by
        obtain ⟨f', hf', hb⟩ := Bar.mem_shown.1 (hskip hcache g hg)
        rw [hbar] at hf'
        cases hf'
        exact hb
      have henter : bar.enter e g = bar := by
        funext k
        unfold Bar.enter
        split
        · rename_i hkg
          rw [hkg, hbar]
          exact congrArg some (Focus.add_of_mem hmem)
        · rfl
      rw [henter]
      exact h
    · have hset : ((ts.addTab e.buffer).setTemplate none).name = g := (Tabset.name_addTab _ _).trans hname
      have henter : bar.enter e g = bar.put ((ts.addTab e.buffer).setTemplate none).name (f.add e.buffer) := by
        funext k
        unfold Bar.enter Bar.put
        rw [hset, hbar]
        rfl
      rw [henter]
      exact represents_set h (hset ▸ hfind) (Tabset.shows_setTemplate (Tabset.shows_addTab hshows e.buffer) none)

/-- All groups of an entry, one after the other. -/
theorem represents_foldl_groups {e : Entry B} {gs : List (List Char)} (hgs : ∀ g ∈ gs, g ∈ e.groups)
    (h : Represents ob bar) (hskip : SkipsShown cache bar e) :
    Represents (gs.foldl (addToGroup bucket cache e) ob) (gs.foldl (fun bar g => bar.enter e g) bar) := by
  induction gs generalizing ob bar with
  | nil => exact h
  | cons g gs ih =>
    apply ih (fun k hk => hgs k (List.mem_cons_of_mem g hk))
    · exact represents_addToGroup h (hgs g List.mem_cons_self) hskip
    · intro hcache k hk
      exact Bar.shown_enter.2 (Or.inl (hskip hcache k hk))

/-- What a group shows after an entry: two times is like once. -/
theorem foldl_enter (e : Entry B) (gs : List (List Char)) (bar : Bar B) (k : List Char) :
    gs.foldl (fun bar g => bar.enter e g) bar k = if k ∈ gs then Focus.addTo (bar k) e.buffer else bar k := by
  induction gs generalizing bar with
  | nil => rfl
  | cons g gs ih =>
    rw [List.foldl_cons, ih]
    unfold Bar.enter
    by_cases hk : k = g
    · subst hk
      rw [if_pos rfl, if_pos List.mem_cons_self]
      split
      · cases bar k with
        | none => exact congrArg some (Focus.add_of_mem (by simp [Focus.single, Focus.toList]))
        | some f => exact congrArg some (Focus.add_of_mem (Focus.mem_add.2 (Or.inl rfl)))
      · rfl
    · rw [if_neg hk]
      simp [hk]

/-- The entries that have come in. -/
def Bar.enterAll (bl : List (Entry B)) (bar : Bar B) : Bar B := fun g => (members bl g).foldl Focus.addTo (bar g)

theorem enterAll_cons (e : Entry B) (bl : List (Entry B)) (bar : Bar B) :
    bar.enterAll (e :: bl) = Bar.enterAll bl (e.groups.foldl (fun bar g => bar.enter e g) bar) := by
  funext k
  unfold Bar.enterAll
  rw [foldl_enter, members_cons]
  split <;> rfl

theorem represents_addEntries (h : Represents ob bar) (hskip : ∀ e ∈ bl, SkipsShown cache bar e) :
    Represents (bl.foldl (addEntry bucket cache) ob) (bar.enterAll bl) := by
  induction bl generalizing ob bar with
  | nil => exact h
  | cons e bl ih =>
    rw [List.foldl_cons, enterAll_cons]
    apply ih
    · exact represents_foldl_groups (fun g hg => hg) h (hskip e List.mem_cons_self)
    · intro e' he' hcache g hg
      have hb := hskip e' (List.mem_cons_of_mem e he') hcache g hg
      obtain ⟨f, hf, hb⟩ := Bar.mem_shown.1 hb
      rw [Bar.mem_shown, foldl_enter]
      split
      · rw [hf]
        exact ⟨_, rfl, (Focus.add_sublist e.buffer).subset hb⟩
      · exact ⟨f, hf, hb⟩

/-! ### Taking out the other tabs -/

theorem shows_sweepFrom (bl : List (Entry B)) {g : List Char} (bs : List B) {acc : Tabset B × Bool}
    {o : Option (Focus B)}
    (hname : acc.1.name = g) (h : acc.1.ShowsRest o) :
    ((bs.map fun b => Tab.mk b g).foldl (sweepTab bl g) acc).1.ShowsRest
      (o.bind (Focus.filter fun b => staysIn bl g b || b ∉ bs)) := by
  induction bs generalizing acc o with
  | nil =>
    have hfilter : (o.bind (Focus.filter fun b => staysIn bl g b || b ∉ ([] : List B))) = o := by
      cases o with
      | none => rfl
      | some f => exact Focus.filter_eq_self (by simp)
    rw [hfilter]
    exact h
  | cons b bs ih =>
    rw [List.map_cons, List.foldl_cons]
    by_cases hb : staysIn bl g b = true
    · have hfilter : (o.bind (Focus.filter fun c => staysIn bl g c || c ∉ b :: bs)) =
          o.bind (Focus.filter fun c => staysIn bl g c || c ∉ bs) := by
        congr 1
        funext f
        apply Focus.filter_congr
        intro c _
        by_cases hc : c = b
        · simp [hc, hb]
        · simp [hc]
      rw [sweepTab_stays hb, hfilter]
      exact ih hname h
    · rw [sweepTab_goes hb]
      have hdelete : (acc.1.deleteTab ⟨b, g⟩).1.ShowsRest (o.bind (Focus.filter fun c => c ≠ b)) := by
        cases o with
        | none =>
          show (acc.1.deleteTab ⟨b, g⟩).1.tabs = []
          rw [Tabset.tabs_deleteTab, show acc.1.tabs = [] from h, List.filter_nil]
        | some f =>
          rw [← hname]
          exact Tabset.shows_deleteTab h b
      have hfilter : (o.bind (Focus.filter fun c => staysIn bl g c || c ∉ b :: bs)) =
          (o.bind (Focus.filter fun c => c ≠ b)).bind (Focus.filter fun c => staysIn bl g c || c ∉ bs) := by
        cases o with
        | none => rfl
        | some f =>
          show f.filter _ = (f.filter _).bind (Focus.filter _)
          rw [Focus.filter_filter]
          apply Focus.filter_congr
          intro c _
          by_cases hc : c = b
          · simp [hc, hb]
          · simp [hc]
      rw [hfilter]
      exact ih ((Tabset.name_deleteTab _ _).trans hname) hdelete

/-- What remains of a tab set. -/
theorem shows_sweep (bl : List (Entry B)) {ts : Tabset B} {f : Focus B} (h : ts.Shows f) :
    (sweep bl ts).1.ShowsRest (f.filter fun b => staysIn bl ts.name b) := by
  have hsweep := shows_sweepFrom bl f.toList rfl (show (ts, false).1.ShowsRest (some f) from h)
  rw [← h.tabs] at hsweep
  have hfilter : (some f).bind (Focus.filter fun b => staysIn bl ts.name b || b ∉ f.toList) =
      f.filter fun b => staysIn bl ts.name b := by
    apply Focus.filter_congr
    intro c hc
    simp [hc]
  rw [hfilter] at hsweep
  exact hsweep

omit [DecidableEq B] in
theorem find?_removeEmpty (g : List Char) :
    (removeEmpty ob).find? g = (ob.find? g).filter fun ts => !ts.tabs.isEmpty := by
  have hfold : ∀ (l : List (Tabset B)) (ob : Obarray (Tabset.name (B := B))),
      (l.foldl (fun ob ts => ob.unintern ts.name) ob).find? g = if g ∈ l.map Tabset.name then none else ob.find? g := by
    intro l
    induction l with
    | nil => exact fun _ => rfl
    | cons ts l ih =>
      intro ob
      rw [List.foldl_cons, ih, Obarray.find?_unintern, List.map_cons]
      by_cases hg : g = ts.name
      · simp [hg]
      · simp [hg]
  unfold removeEmpty
  rw [hfold]
  cases hfind : ob.find? g with
  | none => simp
  | some ts =>
    have hname := Obarray.name_of_find? hfind
    have hmem : g ∈ (ob.atoms.filter fun ts => ts.tabs.isEmpty).map Tabset.name ↔ ts.tabs.isEmpty = true := by
      rw [List.mem_map]
      constructor
      · rintro ⟨ts', hts', hname'⟩
        obtain ⟨hmem', hempty⟩ := List.mem_filter.1 hts'
        have hfind' := Obarray.find?_eq_some_iff.2 ⟨hmem', hname'⟩
        rw [hfind] at hfind'
        cases hfind'
        exact hempty
      · exact fun hempty => ⟨ts, List.mem_filter.2 ⟨Obarray.mem_of_find? hfind, hempty⟩, hname⟩
    rw [Option.filter_some]
    by_cases hempty : ts.tabs.isEmpty = true
    · rw [if_pos (hmem.2 hempty), if_neg (by simpa using hempty)]
    · rw [if_neg (mt hmem.1 hempty), if_pos (by simpa using hempty)]

/-- After the sweep every group shows what remains. -/
theorem represents_swept (bl : List (Entry B)) (h : Represents ob bar) :
    Represents (removeEmpty (ob.mapAtoms (fun ts => (sweep bl ts).1) (name_sweep bl)))
      fun g => (bar g).bind (Focus.filter fun b => staysIn bl g b) := by
  intro g
  show Option.Rel _ _ ((bar g).bind _)
  rw [find?_removeEmpty, Obarray.find?_mapAtoms]
  obtain ⟨hfind, hbar⟩ | ⟨ts, f, hfind, hbar, hshows⟩ := h.cases g
  · rw [hfind, hbar]
    exact Option.Rel.none
  · obtain rfl : ts.name = g := Obarray.name_of_find? hfind
    have hsweep := shows_sweep bl hshows
    rw [hfind, hbar, Option.map_some, Option.filter_some, Option.bind_some]
    cases hrest : f.filter fun b => staysIn bl ts.name b with
    | none =>
      rw [hrest] at hsweep
      rw [show (sweep bl ts).1.tabs = [] from hsweep]
      exact Option.Rel.none
    | some f' =>
      rw [hrest] at hsweep
      have hne : (sweep bl ts).1.tabs ≠ [] := by
        rw [hsweep.tabs]
        simpa using f'.toList_ne_nil
      rw [if_pos (by simpa using hne)]
      exact Option.Rel.some hsweep

omit [DecidableEq B] in
/-- A change of the tab sets that does not change what they show. -/
theorem represents_mapAtoms {f : Tabset B → Tabset B} (hf : ∀ ts, (f ts).name = ts.name) (h : Represents ob bar)
    (hshows : ∀ ts f', ts.Shows f' → (f ts).Shows f') : Represents (ob.mapAtoms f hf) bar := by
  intro g
  rw [Obarray.find?_mapAtoms]
  obtain ⟨hfind, hbar⟩ | ⟨ts, f', hfind, hbar, hts⟩ := h.cases g
  · rw [hfind, hbar]
    exact Option.Rel.none
  · rw [hfind, hbar]
    exact Option.Rel.some (hshows ts f' hts)

/-! ### The update -/

theorem nodup_entries (ed : Editor B) (tb : TabBar B) : ((entries ed tb).map Entry.buffer).Nodup := by
  unfold entries
  rw [(List.perm_insertionSort _ _).map Entry.buffer |>.nodup_iff, List.map_map]
  have hid : (Entry.buffer ∘ fun b => Entry.mk b (ed.bufferName b) (ed.bufferGroups b)) = id := rfl
  rw [hid, List.map_id]
  exact (ed.bufferList_nodup.filter _).filter _

theorem mem_shown_enterAll {g : List Char} {b : B} :
    b ∈ (bar.enterAll bl).shown g ↔ b ∈ bar.shown g ∨ b ∈ members bl g := by
  unfold Bar.enterAll
  have hfold : ∀ (xs : List B) (o : Option (Focus B)),
      (∃ f, xs.foldl Focus.addTo o = some f ∧ b ∈ f.toList) ↔ (∃ f, o = some f ∧ b ∈ f.toList) ∨ b ∈ xs := by
    intro xs
    induction xs with
    | nil => simp
    | cons x xs ih =>
      intro o
      rw [List.foldl_cons, ih, List.mem_cons, ← or_assoc]
      have hadd : (∃ f, Focus.addTo o x = some f ∧ b ∈ f.toList) ↔ (∃ f, o = some f ∧ b ∈ f.toList) ∨ b = x := by
        cases ho : Focus.addTo o x with
        | none =>
          unfold Focus.addTo at ho
          split at ho <;> cases ho
        | some f =>
          simp only [Option.some.injEq, exists_eq_left']
          rw [Focus.mem_addTo ho]
          exact or_comm
      rw [hadd]
  rw [Bar.mem_shown, hfold, Bar.mem_shown]

omit [DecidableEq B] in
theorem mem_shown_filter {p : List Char → B → Bool} {g : List Char} {b : B} :
    b ∈ Bar.shown (fun g => (bar g).bind (Focus.filter (p g))) g ↔ b ∈ bar.shown g ∧ p g b = true := by
  rw [Bar.mem_shown, Bar.mem_shown]
  show (∃ f, (bar g).bind (Focus.filter (p g)) = some f ∧ _) ↔ _
  cases hbar : bar g with
  | none => simp
  | some f =>
    rw [Option.bind_some]
    simp only [Option.some.injEq, exists_eq_left']
    cases hf : f.filter (p g) with
    | none =>
      have hnone := Focus.filter_eq_none.1 hf
      constructor
      · rintro ⟨f', hf', -⟩
        cases hf'
      · rintro ⟨hb, hp⟩
        rw [hnone b hb] at hp
        cases hp
    | some f' =>
      simp only [Option.some.injEq, exists_eq_left']
      rw [Focus.toList_filter hf, List.mem_filter]

theorem mem_shown_renew {g : List Char} {b : B} : b ∈ (bar.renew bl).shown g ↔ b ∈ members bl g := by
  have hrenew : bar.renew bl = fun g => (bar.enterAll bl g).bind (Focus.filter fun b => b ∈ members bl g) := rfl
  rw [hrenew, mem_shown_filter, mem_shown_enterAll, decide_eq_true_eq]
  exact ⟨And.right, fun h => ⟨Or.inr h, h⟩⟩

/-- With the entries of its cache a bar is up to date. -/
theorem renew_eq_self (h : ∀ g b, b ∈ bar.shown g ↔ b ∈ members bl g) : bar.renew bl = bar := by
  funext g
  unfold Bar.renew
  cases hbar : bar g with
  | none =>
    have hnil : members bl g = [] := by
      apply List.eq_nil_iff_forall_not_mem.2
      intro b hb
      obtain ⟨f, hf, -⟩ := Bar.mem_shown.1 ((h g b).2 hb)
      rw [hbar] at hf
      cases hf
    rw [hnil]
    rfl
  | some f =>
    have hmem : ∀ b, b ∈ f.toList ↔ b ∈ members bl g := by
      intro b
      rw [← h g b, Bar.mem_shown, hbar]
      simp
    have hfold : ∀ xs : List B, (∀ x ∈ xs, x ∈ f.toList) → xs.foldl Focus.addTo (some f) = some f := by
      intro xs
      induction xs with
      | nil => exact fun _ => rfl
      | cons x xs ih =>
        intro hxs
        rw [List.foldl_cons, show Focus.addTo (some f) x = some (f.add x) from rfl,
          Focus.add_of_mem (hxs x List.mem_cons_self)]
        exact ih fun y hy => hxs y (List.mem_cons_of_mem x hy)
    rw [hfold _ fun x hx => (hmem x).2 hx]
    apply Focus.filter_eq_self
    intro b hb
    simpa using (hmem b).1 hb

/-- New entries: what the tab sets show is brought up to date. -/
theorem consistent_updateTabsets {tb : TabBar B} (h : Consistent tb bar) (hbl : (bl.map Entry.buffer).Nodup) :
    Consistent (updateTabsets bucket bl tb) (bar.renew bl) where
  represents := by
    have hskip : ∀ e ∈ bl, SkipsShown tb.buffers bar e := by
      intro e _ hcache g hg
      obtain ⟨hmem, -⟩ := (entryOf_eq_some_iff h.nodup).1 hcache
      exact (h.shown g e.buffer).2 (mem_members.2 ⟨e, hmem, rfl, hg⟩)
    have hadded : Represents (bl.foldl (addEntry bucket tb.buffers) tb.tabsets) (bar.enterAll bl) :=
      represents_addEntries h.represents hskip
    have hswept := represents_swept bl hadded
    have hrenew : bar.renew bl = fun g => (bar.enterAll bl g).bind (Focus.filter fun b => staysIn bl g b) := by
      funext g
      show (bar.enterAll bl g).bind _ = _
      congr 2
      funext b
      rw [Bool.eq_iff_iff, staysIn_iff hbl, decide_eq_true_eq]
    rw [hrenew]
    exact hswept
  shown _ _ := mem_shown_renew
  nodup := hbl

omit [DecidableEq B] in
theorem Consistent.of_eq {tb tb' : TabBar B} (h : Consistent tb bar) (ht : tb'.tabsets = tb.tabsets)
    (hb : tb'.buffers = tb.buffers) : Consistent tb' bar where
  represents := by
    rw [ht]
    exact h.represents
  shown := by
    rw [hb]
    exact h.shown
  nodup := by
    rw [hb]
    exact h.nodup

theorem hideTabCached_keeps (ed : Editor B) (bs : List B) (tb : TabBar B) :
    (bs.foldl (fun tb b => hideTabCached ed b tb) tb).tabsets = tb.tabsets ∧
      (bs.foldl (fun tb b => hideTabCached ed b tb) tb).buffers = tb.buffers := by
  induction bs generalizing tb with
  | nil => exact ⟨rfl, rfl⟩
  | cons b bs ih =>
    rw [List.foldl_cons]
    exact ih (hideTabCached ed b tb)

/-- Whether the entries have changed or not, the bar is brought up to date. -/
theorem consistent_bufferUpdateGroups (bucket : List Char → Nat) {tb : TabBar B} (h : Consistent tb bar) (ed : Editor B) :
    Consistent (bufferUpdateGroups bucket ed tb).1 (bar.renew (entries ed tb)) := by
  obtain ⟨hkeep, hkeep'⟩ := hideTabCached_keeps ed (ed.bufferList.filter (listed ed)) tb
  unfold bufferUpdateGroups
  dsimp only
  by_cases hbl : entries ed tb = tb.buffers
  · rw [if_pos hbl, hbl, renew_eq_self h.shown]
    exact h.of_eq hkeep hkeep'
  · rw [if_neg hbl]
    exact consistent_updateTabsets (h.of_eq hkeep hkeep') (nodup_entries ed tb)

theorem buffers_bufferUpdateGroups (bucket : List Char → Nat) (ed : Editor B) (tb : TabBar B) :
    (bufferUpdateGroups bucket ed tb).1.buffers = entries ed tb := by
  obtain ⟨-, hkeep⟩ := hideTabCached_keeps ed (ed.bufferList.filter (listed ed)) tb
  unfold bufferUpdateGroups
  dsimp only
  split
  · rename_i hbl
    rw [hkeep, hbl]
  · rfl

/-! ### The tab set of the current buffer -/

/-- The first group of a buffer. -/
def groupOf (bl : List (Entry B)) (b : B) : Option (List Char) := (entryOf bl b).bind fun e => e.groups.head?

/-- A buffer comes in focus in a group. -/
def Bar.select (g : Option (List Char)) (b : B) (bar : Bar B) : Bar B := fun k =>
  if g = some k then (bar k).map (Focus.visit b) else bar k

theorem mem_members_groupOf {g : List Char} {b : B} (h : (bl.map Entry.buffer).Nodup) (hg : groupOf bl b = some g) :
    b ∈ members bl g := by
  obtain ⟨e, he, hhead⟩ := Option.bind_eq_some_iff.1 hg
  obtain ⟨hmem, hb⟩ := (entryOf_eq_some_iff h).1 he
  exact mem_members.2 ⟨e, hmem, hb, List.mem_of_head? hhead⟩

omit [DecidableEq B] in
/-- What a consistent store holds for a group of the bar. -/
theorem Consistent.find? {tb : TabBar B} (h : Consistent tb bar) {g : List Char} {f : Focus B} (hf : bar g = some f) :
    ∃ ts, tb.tabsets.find? g = some ts ∧ ts.name = g ∧ ts.Shows f := by
  obtain ⟨-, hbar⟩ | ⟨ts, f', hfind, hbar, hts⟩ := h.represents.cases g
  · rw [hf] at hbar
    cases hbar
  · rw [hf] at hbar
    cases hbar
    exact ⟨ts, hfind, Obarray.name_of_find? hfind, hts⟩

omit [DecidableEq B] in
/-- A tab set is changed without a change of its buffers. -/
theorem Consistent.set {tb : TabBar B} (h : Consistent tb bar) {ts : Tabset B} {f f' : Focus B}
    (hf : bar ts.name = some f) (hts : ts.Shows f') (hmem : ∀ b, b ∈ f'.toList ↔ b ∈ f.toList) (track : Bool) :
    Consistent { tb with tabsets := tb.tabsets.set ts, trackSelected := track } (bar.put ts.name f') where
  represents := by
    obtain ⟨ts₀, hfind, -, -⟩ := h.find? hf
    exact represents_set h.represents hfind hts
  shown := by
    intro g b
    show _ ↔ b ∈ members tb.buffers g
    rw [← h.shown g b, Bar.mem_shown, Bar.mem_shown]
    unfold Bar.put
    by_cases hg : g = ts.name
    · rw [if_pos hg, hg, hf]
      simpa using hmem b
    · rw [if_neg hg]
  nodup := h.nodup

/-- The bar after `(awesome-tab-current-tabset t)`. -/
def Bar.current (bl : List (Entry B)) (b : B) (bar : Bar B) : Bar B := (bar.renew bl).select (groupOf bl b) b

/-- `(awesome-tab-current-tabset t)` brings the bar up to date and the current buffer in focus. -/
theorem bufferTabs_spec (bucket : List Char → Nat) {tb : TabBar B} (h : Consistent tb bar) (ed : Editor B) :
    Consistent (bufferTabs bucket ed tb).1 (bar.current (entries ed tb) ed.currentBuffer) ∧
      (bufferTabs bucket ed tb).1.buffers = entries ed tb ∧
      match groupOf (entries ed tb) ed.currentBuffer with
      | none => (bufferTabs bucket ed tb).2 = none
      | some g => ∃ ts f, (bufferTabs bucket ed tb).2 = some ts ∧ (bufferTabs bucket ed tb).1.tabsets.find? g = some ts ∧
          ts.name = g ∧ bar.current (entries ed tb) ed.currentBuffer g = some f ∧ ts.Shows f ∧
          f.here = ed.currentBuffer := by
  have hupdate := consistent_bufferUpdateGroups bucket h ed
  have hbuffers := buffers_bufferUpdateGroups bucket ed tb
  have hgroup : (bufferUpdateGroups bucket ed tb).2 = groupOf (entries ed tb) ed.currentBuffer := by
    rw [← hbuffers]
    rfl
  unfold bufferTabs
  dsimp only
  rw [hgroup]
  cases hg : groupOf (entries ed tb) ed.currentBuffer with
  | none =>
    have hselect : bar.current (entries ed tb) ed.currentBuffer = bar.renew (entries ed tb) := by
      unfold Bar.current Bar.select
      rw [hg]
      funext k
      exact if_neg nofun
    rw [hselect]
    exact ⟨hupdate, hbuffers, rfl⟩
  | some g =>
    have hmem : ed.currentBuffer ∈ (bar.renew (entries ed tb)).shown g :=
      mem_shown_renew.2 (mem_members_groupOf (nodup_entries ed tb) hg)
    obtain ⟨f, hf, hb⟩ := Bar.mem_shown.1 hmem
    obtain ⟨ts, hfind, hname, hts⟩ := hupdate.find? hf
    have hts' := Tabset.shows_selectTab hts ed.currentBuffer
    have hname' : (ts.selectTab (ts.getTab ed.currentBuffer)).1.name = g := (Tabset.name_selectTab _ _).trans hname
    have hselect : bar.current (entries ed tb) ed.currentBuffer =
        (bar.renew (entries ed tb)).put g (f.visit ed.currentBuffer) := by
      funext k
      unfold Bar.current Bar.select Bar.put
      rw [hg]
      by_cases hk : k = g
      · rw [if_pos hk, if_pos (by rw [hk]), hk, hf]
        rfl
      · rw [if_neg hk, if_neg fun he => hk (Option.some.inj he).symm]
    rw [Option.bind_some, hfind, hselect]
    refine ⟨?_, hbuffers, _, f.visit ed.currentBuffer, rfl, ?_, hname', ?_, hts', Focus.visit_here hb⟩
    · have hset := hupdate.set (hname'.symm ▸ hf) hts' (fun b => by rw [Focus.toList_visit])
      rw [hname'] at hset
      exact hset _
    · rw [Obarray.find?_set, if_pos hname'.symm, hfind]
      rfl
    · exact if_pos rfl

end AwesomeTab

end EmacsDir
