import EmacsDir.TabRuns

/-!
# Visits

A command that selects a tab switches to its buffer, and that puts the buffer in front of the list of buffers.  The tab
bar does not notice: the entries are sorted by name, so the order of the list does not matter (`entries_visited`).
-/

namespace EmacsDir

namespace AwesomeTab

/-! ### The order of the names -/

theorem stringLessp_cons (a b : Char) (s t : List Char) :
    stringLessp (b :: t) (a :: s) = false ↔ a.toNat < b.toNat ∨ (a = b ∧ stringLessp t s = false) := by
  have hinj : b = a ↔ b.toNat = a.toNat := Char.toNat_inj.symm
  rw [stringLessp, Bool.or_eq_false_iff, decide_eq_false_iff_not, Bool.and_eq_false_iff, decide_eq_false_iff_not,
    eq_comm (a := a), hinj]
  cases stringLessp t s <;> simp <;> omega

theorem stringLessp_total (s t : List Char) : stringLessp t s = false ∨ stringLessp s t = false := by
  induction s generalizing t with
  | nil => exact Or.inl (by cases t <;> rfl)
  | cons a s ih =>
    cases t with
    | nil => exact Or.inr rfl
    | cons b t =>
      rw [stringLessp_cons, stringLessp_cons]
      rcases Nat.lt_trichotomy a.toNat b.toNat with hlt | heq | hgt
      · exact Or.inl (Or.inl hlt)
      · have hab := Char.toNat_inj.1 heq
        exact (ih t).imp (fun h => Or.inr ⟨hab, h⟩) fun h => Or.inr ⟨hab.symm, h⟩
      · exact Or.inr (Or.inl hgt)

theorem stringLessp_trans {s t u : List Char} (hst : stringLessp t s = false) (htu : stringLessp u t = false) :
    stringLessp u s = false := by
  induction s generalizing t u with
  | nil => cases u <;> rfl
  | cons a s ih =>
    cases t with
    | nil => cases hst
    | cons b t =>
      cases u with
      | nil => cases htu
      | cons c u =>
        rw [stringLessp_cons] at hst htu ⊢
        rcases hst with hlt | ⟨rfl, hst⟩
        · rcases htu with hlt' | ⟨rfl, -⟩
          · exact Or.inl (Nat.lt_trans hlt hlt')
          · exact Or.inl hlt
        · rcases htu with hlt' | ⟨rfl, htu⟩
          · exact Or.inl hlt'
          · exact Or.inr ⟨rfl, ih hst htu⟩

theorem stringLessp_antisymm {s t : List Char} (hst : stringLessp t s = false) (hts : stringLessp s t = false) :
    s = t := by
  induction s generalizing t with
  | nil =>
    cases t with
    | nil => rfl
    | cons b t => cases hts
  | cons a s ih =>
    cases t with
    | nil => cases hst
    | cons b t =>
      rw [stringLessp_cons] at hst hts
      rcases hst with hlt | ⟨rfl, hst⟩
      · rcases hts with hlt' | ⟨rfl, -⟩
        · omega
        · omega
      · rcases hts with hlt' | ⟨-, hts⟩
        · omega
        · rw [ih hst hts]

variable {B : Type} [DecidableEq B]

/-- The order of the entries. -/
def entryLe (e1 e2 : Entry B) : Prop := stringLessp e2.name e1.name = false

instance : DecidableRel (entryLe (B := B)) := fun e1 e2 => inferInstanceAs (Decidable (stringLessp e2.name e1.name = false))

instance : Std.Total (entryLe (B := B)) := ⟨fun e1 e2 => stringLessp_total e1.name e2.name⟩

instance : IsTrans (Entry B) entryLe := ⟨fun _ _ _ => stringLessp_trans⟩

/-! ### The entries -/

variable {ed ed' : Editor B} {tb tb' : TabBar B}

theorem pairwise_entries (ed : Editor B) (tb : TabBar B) : (entries ed tb).Pairwise entryLe :=
  List.pairwise_insertionSort entryLe _

/-- The entries are known from what they are and that they are sorted. -/
theorem eq_entries {bl : List (Entry B)} (hsorted : bl.Pairwise entryLe) (hnodup : bl.Nodup)
    (hmem : ∀ e, e ∈ bl ↔ e ∈ entries ed tb) : bl = entries ed tb := by
  apply List.Perm.eq_of_pairwise _ hsorted (pairwise_entries ed tb)
  · exact (List.perm_ext_iff_of_nodup hnodup (nodup_entries ed tb).of_map).2 hmem
  · intro e e' he he' hle hle'
    obtain ⟨hb, hname, hgroups⟩ := mem_entries.1 ((hmem e).1 he)
    obtain ⟨hb', hname', hgroups'⟩ := mem_entries.1 he'
    have hnames := stringLessp_antisymm hle hle'
    rw [hname, hname'] at hnames
    have hbuffer := ed.bufferName_inj _ (mem_tabBufferList.1 hb).1 _ (mem_tabBufferList.1 hb').1 hnames
    cases e
    cases e'
    simp_all

omit [DecidableEq B] in
theorem head?_of_oneGroup {b : B} {g : List Char} (hone : (ed.bufferGroups b).length ≤ 1) (hmem : g ∈ ed.bufferGroups b) :
    (ed.bufferGroups b).head? = some g := by
  generalize ed.bufferGroups b = gs at hone hmem
  cases gs with
  | nil => cases hmem
  | cons k gs =>
    rw [List.length_cons] at hone
    obtain rfl : gs = [] := List.eq_nil_of_length_eq_zero (by omega)
    rw [List.mem_singleton.1 hmem]
    rfl

/-- After a visit of a buffer. -/
structure Visited (ed : Editor B) (b : B) (ed' : Editor B) : Prop where
  currentBuffer : ed'.currentBuffer = b
  bufferList : ed'.bufferList.Perm ed.bufferList
  bufferName : ed'.bufferName = ed.bufferName
  bufferFileName : ed'.bufferFileName = ed.bufferFileName
  bufferGroups : ed'.bufferGroups = ed.bufferGroups
  hideTab : ed'.hideTab = ed.hideTab

/-- A buffer that is listed also when it is not current. -/
def Ordinary (ed : Editor B) (b : B) : Prop := (ed.bufferFileName b).isSome ∨ (ed.bufferName b).head? ≠ some ' '

instance (b : B) : Decidable (Ordinary ed b) := inferInstanceAs (Decidable (_ ∨ _))

theorem listed_iff {b : B} : listed ed b = true ↔ b = ed.currentBuffer ∨ Ordinary ed b := by
  unfold listed Ordinary
  simp [or_assoc]

theorem listed_visited {b : B} (h : Visited ed b ed') (hcur : Ordinary ed ed.currentBuffer) (hb : Ordinary ed b) :
    listed ed' = listed ed := by
  funext c
  have hordinary : Ordinary ed' c ↔ Ordinary ed c := by
    unfold Ordinary
    rw [h.bufferFileName, h.bufferName]
  rw [Bool.eq_iff_iff, listed_iff, listed_iff, hordinary, h.currentBuffer]
  constructor
  · rintro (rfl | hc)
    · exact Or.inr hb
    · exact Or.inr hc
  · rintro (rfl | hc)
    · exact Or.inr hcur
    · exact Or.inr hc

/-- The entries do not depend on the buffer that is current, nor on the order of the buffers. -/
theorem entries_visited {b : B} (h : Visited ed b ed') (hcur : Ordinary ed ed.currentBuffer) (hb : Ordinary ed b)
    (hhidden : hidden ed' tb' = hidden ed tb) : entries ed' tb' = entries ed tb := by
  apply eq_entries (pairwise_entries ed' tb') (nodup_entries ed' tb').of_map
  intro e
  rw [mem_entries, mem_entries, mem_tabBufferList, mem_tabBufferList, listed_visited h hcur hb, hhidden, h.bufferName,
    h.bufferGroups, h.bufferList.mem_iff]

end AwesomeTab

end EmacsDir
