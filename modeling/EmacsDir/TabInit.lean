import Mathlib.Data.Bool.Count
import EmacsDir.TabCycle

/-!
# The groups of `init.el`

The configuration puts every buffer into one of two groups: one for the buffers of the user and one for those of Emacs
itself.  The keys that go to the next and to the previous group therefore do the same thing: they go to the other group
and back to the buffer where they have started (`toggle_groups`).
-/

namespace EmacsDir

namespace AwesomeTab

/-- What `derived-mode-p` and `major-mode` say in a buffer. -/
structure Mode where
  majorMode : String
  derived : String → Bool

/-- The modes of Magit that are listed. -/
def magitModes : List String :=
  ["magit-process-mode", "magit-status-mode", "magit-diff-mode", "magit-log-mode", "magit-file-mode", "magit-blob-mode",
    "magit-blame-mode"]

/-- `my-tabbar-buffer-groups` -/
def myTabbarBufferGroups (mode : Mode) (bufferName : List Char) : List (List Char) :=
  [if mode.derived "dired-mode" then ['u', 's', 'e', 'r']
    else if mode.derived "eshell-mode" then ['u', 's', 'e', 'r']
    else if mode.derived "shell-mode" then ['u', 's', 'e', 'r']
    else if mode.derived "term-mode" then ['u', 's', 'e', 'r']
    else if mode.derived "diff-mode" then ['u', 's', 'e', 'r']
    else if mode.derived "compilation-mode" then ['u', 's', 'e', 'r']
    else if bufferName.head? = some '*' || magitModes.contains mode.majorMode then ['E', 'm', 'a', 'c', 's']
    else ['u', 's', 'e', 'r']]

/-- The other one of the two groups. -/
def otherGroupOf (g : List Char) : List Char := if g = ['u', 's', 'e', 'r'] then ['E', 'm', 'a', 'c', 's'] else ['u', 's', 'e', 'r']

theorem mem_myTabbarBufferGroups {mode : Mode} {bufferName g : List Char} (h : g ∈ myTabbarBufferGroups mode bufferName) :
    g = ['u', 's', 'e', 'r'] ∨ g = ['E', 'm', 'a', 'c', 's'] := by
  unfold myTabbarBufferGroups at h
  rw [List.mem_singleton] at h
  grind

variable {B : Type} [DecidableEq B] {bucket : List Char → Nat} {tb tb' : TabBar B} {ed ed' : Editor B} {g : List Char}

omit [DecidableEq B] in
theorem mem_groupNames {bar : Bar B} (h : Consistent tb bar) : g ∈ groupNames tb ↔ ∃ b, b ∈ bar.shown g := by
  unfold groupNames
  rw [List.mem_map]
  constructor
  · rintro ⟨ts, hts, rfl⟩
    obtain ⟨f, hshows⟩ := shows_of_mem h (List.mem_reverse.1 hts)
    have hrow := (row_of_mem h (List.mem_reverse.1 hts)).1
    have hmem := here_mem_tabs hshows
    rw [← hrow] at hmem
    obtain ⟨b, hb, -⟩ := List.mem_map.1 hmem
    exact ⟨b, hb⟩
  · intro ⟨b, hb⟩
    obtain ⟨f, hf, -⟩ := Bar.mem_shown.1 hb
    obtain ⟨ts, hfind, hname, -⟩ := h.find? hf
    exact ⟨ts, List.mem_reverse.2 (Obarray.mem_of_find? hfind), hname⟩

theorem placesOf_mod_two (ws : List Bool) : placesOf ws % 2 = (ws.length : Int) % 2 := by
  have hlength := List.count_false_add_count_true ws
  unfold placesOf
  omega

/-- There are no other groups than the two on the tab bar.  With both on it, commands that go to the next or to the
previous group alternate between two buffers: the current one and the one that is selected in the other group. -/
theorem toggle_groups {mode : B → Mode} (hmode : ∀ b, ed.bufferGroups b = myTabbarBufferGroups (mode b) (ed.bufferName b))
    {flag : Bool} {u : List (Editor B × Action)} {a : Action} {ws : List Bool}
    (hstart : Runs (Step bucket) (start flag) (u ++ [(ed, a)]) tb) (ha : Updates ed tb a)
    (hcur : Belongs ed tb ed.currentBuffer g) (hord : Ordinary ed ed.currentBuffer)
    (hother : ∃ b, Belongs ed tb b (otherGroupOf g)) (h : Runs (CycleStep bucket .groups) (tb, ed) ws (tb', ed')) :
    (∀ k ∈ groupNames tb, k = ['u', 's', 'e', 'r'] ∨ k = ['E', 'm', 'a', 'c', 's']) ∧
      if ws.length % 2 = 0 then ed'.currentBuffer = ed.currentBuffer
      else selectedOf tb (otherGroupOf g) = some ed'.currentBuffer := by
  have hone : ∀ b, (ed.bufferGroups b).length ≤ 1 := by
    intro b
    rw [hmode]
    exact Nat.le_refl 1
  obtain ⟨hon, -⟩ := onRing_of_run hstart ha hcur hord hone .groups
  have hend := onRing_run hon h
  obtain ⟨bar, hcons⟩ := hon.consistent
  have hbuffers : tb.buffers = entries ed tb := hon.buffers
  have hbelongs : ∀ b k, b ∈ bar.shown k ↔ Belongs ed tb b k := by
    intro b k
    rw [hcons.shown, hbuffers, mem_members_entries]
  have htwo : ∀ {b k}, Belongs ed tb b k → k = ['u', 's', 'e', 'r'] ∨ k = ['E', 'm', 'a', 'c', 's'] := by
    intro b k hb
    have hmem := hb.2.2.2
    rw [hmode] at hmem
    exact mem_myTabbarBufferGroups hmem
  have hgroups : ∀ k ∈ groupNames tb, k = ['u', 's', 'e', 'r'] ∨ k = ['E', 'm', 'a', 'c', 's'] := by
    intro k hk
    obtain ⟨b, hb⟩ := (mem_groupNames hcons).1 hk
    exact htwo ((hbelongs b k).1 hb)
  have hg : otherGroupOf g ≠ g ∧ ∀ {b k}, Belongs ed tb b k → k = g ∨ k = otherGroupOf g := by
    unfold otherGroupOf
    rcases htwo hcur with rfl | rfl
    · exact ⟨by decide, htwo⟩
    · exact ⟨by decide, fun hb => (htwo hb).symm⟩
  have hnames : (groupNames tb).Perm [g, otherGroupOf g] := by
    have hnodup : (groupNames tb).Nodup := nodup_names tb
    rw [List.perm_ext_iff_of_nodup hnodup (by simpa using hg.1.symm)]
    intro k
    rw [mem_groupNames hcons, List.mem_cons, List.mem_singleton]
    constructor
    · intro ⟨b, hb⟩
      exact hg.2 ((hbelongs b k).1 hb)
    · rintro (rfl | rfl)
      · exact ⟨_, (hbelongs _ _).2 hcur⟩
      · obtain ⟨b, hb⟩ := hother
        exact ⟨b, (hbelongs _ _).2 hb⟩
  obtain ⟨f, hf, -⟩ := Bar.mem_shown.1 ((hbelongs _ _).2 hcur)
  obtain ⟨b, hb⟩ := hother
  obtain ⟨f', hf', -⟩ := Bar.mem_shown.1 ((hbelongs _ _).2 hb)
  have hring : (cycleRing .groups tb g).Perm [⟨f.here, g⟩, ⟨f'.here, otherGroupOf g⟩] := by
    have hmany : ¬ (groupNames tb).length ≤ 1 := by
      rw [hnames.length_eq, List.length_cons, List.length_singleton]
      decide
    have hselected := hnames.filterMap bar.selected
    rw [cycleRing_eq hcons hf]
    unfold Bar.ring
    rw [if_neg hmany]
    unfold Bar.selected at hselected ⊢
    simpa [hf, hf'] using hselected
  -- the current buffer is the one that is selected in its group
  have hhere : f.here = ed.currentBuffer := by
    have hmem := hring.mem_iff.1 hon.mem
    simp only [List.mem_cons, List.not_mem_nil, or_false, Tab.mk.injEq, hg.1.symm, and_false] at hmem
    exact hmem.1.symm
  rw [hhere] at hring
  rw [Ring.formPerm_zpow_pair hring (by simp [hg.1.symm]), placesOf_mod_two] at hend
  have hvalue := hend.value
  have hparity : (ws.length : Int) % 2 = 0 ↔ ws.length % 2 = 0 := by omega
  rw [if_congr hparity rfl rfl] at hvalue
  refine ⟨hgroups, ?_⟩
  split
  · rename_i heven
    rw [if_pos heven] at hvalue
    exact hvalue.symm
  · rename_i hodd
    rw [if_neg hodd] at hvalue
    rw [selectedOf_eq_here hcons, hf', Option.map_some]
    exact congrArg some hvalue

/-- Buffers with the groups of the configuration: every second one has a name that starts with a star. -/
def configured (bufferList : List Nat) (currentBuffer : Nat) (h : bufferList.Nodup) : Editor Nat where
  bufferList := bufferList
  currentBuffer := currentBuffer
  bufferName n := (if n % 2 = 0 then '*' else 'a') :: List.replicate n 'a'
  bufferFileName _ := none
  bufferGroups n := myTabbarBufferGroups ⟨"text-mode", fun _ => false⟩
    ((if n % 2 = 0 then '*' else 'a') :: List.replicate n 'a')
  hideTab _ := false
  overflows _ := false
  bufferList_nodup := h
  bufferName_inj b _ c _ h := by simpa using congrArg List.length h

/-- Three buffers have been shown, with the first one current. -/
def threeConfigured : TabBar Nat := (bufferTabs (fun _ => 0) (configured [3, 4, 5] 3 (by decide)) (start true)).1

theorem toggle_groups_three_configured : selectedOf threeConfigured ['E', 'm', 'a', 'c', 's'] = some 4 := by
  have hstep : Step (fun _ => 0) (start true) (configured [3, 4, 5] 3 (by decide), .selectBegTab false) threeConfigured :=
    ⟨0, .ok (), rfl⟩
  have hcycle : CycleStep (fun _ => 0) .groups (threeConfigured, configured [3, 4, 5] 3 (by decide)) true
      ((bufferTabs (fun _ => 0) (configured [3, 4, 5] 3 (by decide)) threeConfigured).1,
        configured [4, 3, 5] 4 (by decide)) := ⟨4, rfl, rfl, by decide, rfl, rfl, rfl, rfl⟩
  exact (toggle_groups (g := ['u', 's', 'e', 'r']) (fun _ => rfl) (.snoc .nil hstep) trivial (by decide) (by decide)
    ⟨4, by decide⟩ (.snoc .nil hcycle)).2

end AwesomeTab

end EmacsDir
