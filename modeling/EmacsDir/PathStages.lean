import EmacsDir.OpenFile
import Mathlib.Data.List.TakeWhile

/-!
# The stages of a path

What each stage of `xah-open-file-at-cursor` does with its text: the two skip loops find the token from any place in
it, the trailing colon and the `file:///` go, and the expression for a line number splits its text in only one way,
at the last colon.
-/

namespace EmacsDir

open Regexp

/-! ### The token around point -/

theorem takeWhile_append_of_stop {p : Char → Bool} {u v : List Char} (hu : ∀ c ∈ u, p c = true)
    (hv : ∀ c ∈ v.head?, p c = false) : (u ++ v).takeWhile p = u ∧ (u ++ v).dropWhile p = v := by
  rw [List.takeWhile_append_of_pos hu, List.dropWhile_append_of_pos hu]
  cases v with
  | nil => simp
  | cons c v => simp [hv c rfl]

theorem tokenAtPoint_eq {L t R : List Char} {b : Buffer} (htext : b.text = L ++ t ++ R)
    (ht : ∀ c ∈ t, isPathStop c = false) (hL : ∀ c ∈ L.getLast?, isPathStop c = true)
    (hR : ∀ c ∈ R.head?, isPathStop c = true) (hlo : L.length < b.point) (hhi : b.point ≤ (L ++ t).length + 1) :
    tokenAtPoint b = t := by
  obtain ⟨u, v⟩ := b
  simp only [Buffer.text, Buffer.point, List.length_append] at htext hlo hhi
  -- point divides the token
  obtain ⟨t₁, t₂, rfl, rfl, rfl⟩ : ∃ t₁ t₂, u = L ++ t₁ ∧ t = t₁ ++ t₂ ∧ v = t₂ ++ R := by
    rw [List.append_assoc] at htext
    rcases List.append_eq_append_iff.1 htext with ⟨x, rfl, hx⟩ | ⟨t₁, rfl, h⟩
    · rw [List.length_append] at hlo
      obtain rfl : x = [] := List.eq_nil_of_length_eq_zero (by omega)
      exact ⟨[], t, by simp, rfl, hx⟩
    · rcases List.append_eq_append_iff.1 h.symm with ⟨t₂, rfl, rfl⟩ | ⟨x, rfl, rfl⟩
      · exact ⟨t₁, t₂, rfl, rfl, rfl⟩
      · simp only [List.length_append] at hhi
        obtain rfl : x = [] := List.eq_nil_of_length_eq_zero (by omega)
        exact ⟨t, [], by simp, by simp, rfl⟩
  have hback := takeWhile_append_of_stop (p := fun c => !isPathStop c) (u := t₁.reverse) (v := L.reverse)
    (fun c hc => by simp [ht c (by simp [List.mem_reverse.1 hc])])
    (fun c hc => by simpa using hL c (by simpa using hc))
  have hforth := takeWhile_append_of_stop (p := fun c => !isPathStop c) (u := t₂) (v := R)
    (fun c hc => by simp [ht c (by simp [hc])]) (fun c hc => by simpa using hR c hc)
  have hb₁ : Buffer.skipCharsBackward (fun c => !isPathStop c) ⟨L ++ t₁, t₂ ++ R⟩ = ⟨L, t₁ ++ (t₂ ++ R)⟩ := by
    unfold Buffer.skipCharsBackward
    simp only [List.reverse_append, hback, List.reverse_reverse]
  have hb₂ : Buffer.skipCharsForward (fun c => !isPathStop c) ⟨L ++ t₁, t₂ ++ R⟩ = ⟨L ++ t₁ ++ t₂, R⟩ := by
    unfold Buffer.skipCharsForward
    simp only [hforth]
  have hgoto : Buffer.gotoChar ((L ++ t₁).length + 1) ⟨L, t₁ ++ (t₂ ++ R)⟩ = ⟨L ++ t₁, t₂ ++ R⟩ :=
    Buffer.gotoChar_append (by simp [Buffer.text])
  unfold tokenAtPoint
  simp only [hb₁, Buffer.point, hgoto, hb₂, Buffer.substring, Buffer.text_gotoChar]
  unfold Buffer.text
  rw [Nat.add_sub_cancel, Nat.add_sub_cancel, List.take_left, List.append_assoc, List.drop_left]

/-- The last place of a letter in a text is where it is. -/
theorem split_last_unique {α : Type} {a : α} {p p' d d' : List α} (hd : a ∉ d) (hd' : a ∉ d')
    (h : p ++ a :: d = p' ++ a :: d') : p = p' ∧ d = d' := by
  rcases List.append_eq_append_iff.1 h with ⟨x, rfl, hx⟩ | ⟨x, rfl, hx⟩ <;> cases x with
  | nil => exact ⟨by simp, by simpa [eq_comm] using hx⟩
  | cons c x =>
    obtain ⟨rfl, rfl⟩ := List.cons.inj hx
    simp at hd hd'

/-! ### The trailing colon -/

section Stages

variable (table : CaseTable)

theorem canon_colon {c : Char} : table.canon c = table.canon ':' ↔ c = ':' :=
  ⟨table.plain ':' c (by decide) (by decide), fun h => by rw [h]⟩

theorem matches_colonEnd {c d : Cursor Char} :
    Matches (colonEndRegexp table.canon) c d ↔ c.after = [':'] ∧ d = ⟨c.before ++ [':'], [], c.groups⟩ := by
  constructor
  · rintro ⟨e, hw, he, rfl⟩
    obtain ⟨u, v, hc, hu, rfl⟩ := matches_word.1 hw
    obtain rfl : v = [] := he
    obtain ⟨a, rfl⟩ : ∃ a, u = [a] := List.length_eq_one_iff.1 (by simpa using congrArg List.length hu)
    obtain rfl := (canon_colon table).1 (by simpa using hu)
    exact ⟨by simpa using hc, rfl⟩
  · rintro ⟨hc, rfl⟩
    exact ⟨_, matches_word.2 ⟨[':'], [], by simpa using hc, rfl, rfl⟩, rfl, rfl⟩

theorem stripColon_concat (s : List Char) : replaceAll (colonEndRegexp table.canon) [] (s ++ [':']) = s := by
  -- a colon before the last one is not at the end of the string
  have h := replaceFrom_match (r := colonEndRegexp table.canon) [] (b := []) (u := s) (x := [':']) (v := [])
    (by simp) ?_ ?_ ?_
  · simpa [replaceAll, replaceFrom] using h
  · intro u' w d _ hw hm
    have hlen := congrArg List.length ((matches_colonEnd table).1 hm).1
    have := List.length_pos_iff.2 hw
    simp only [List.length_append, List.length_cons] at hlen
    omega
  · intro d hd
    rw [((matches_colonEnd table).1 hd).2]
  · exact ⟨_, (matches_colonEnd table).2 ⟨rfl, rfl⟩⟩

theorem stripColon_self {s : List Char} (h : s.getLast? ≠ some ':') :
    replaceAll (colonEndRegexp table.canon) [] s = s := by
  apply replaceFrom_eq_self
  rintro u w d rfl hm
  obtain rfl : w = [':'] := ((matches_colonEnd table).1 hm).1
  exact h (by simp)

/-! ### The rewriting of file URLs -/

/-- `file:///` -/
def fileWord : List Char := ['f', 'i', 'l', 'e', ':', '/', '/', '/']

theorem matches_fileUrl {canon : Char → Char} {c d : Cursor Char} :
    Matches (fileUrlRegexp canon) c d ↔ (∀ a ∈ c.before.getLast?, a = '\n') ∧
      ∃ u v, c.after = u ++ v ∧ u.map canon = fileWord.map canon ∧ d = ⟨c.before ++ u, v, c.groups⟩ := by
  constructor
  · rintro ⟨e, ⟨hb, rfl⟩, hw⟩
    exact ⟨by simpa using hb, matches_word.1 hw⟩
  · rintro ⟨hb, hw⟩
    exact ⟨c, ⟨by simpa using hb, rfl⟩, matches_word.2 hw⟩

private theorem not_matches_fileUrl {canon : Char → Char} {u w : List Char} {d : Cursor Char} (hne : u ≠ [])
    (hu : '\n' ∉ u) : ¬ Matches (fileUrlRegexp canon) ⟨u, w, []⟩ d := by
  intro hm
  obtain ⟨x, c, rfl⟩ := (List.eq_nil_or_concat u).resolve_left hne
  rw [List.concat_eq_append] at hm hu
  have hc := (matches_fileUrl.1 hm).1 c (by simp)
  exact hu (by simp [hc])

theorem rewriteFileUrl_eq (canon : Char → Char) {u v : List Char} (hu : u.map canon = fileWord.map canon)
    (hn : '\n' ∉ u ++ v) : replaceAll (fileUrlRegexp canon) ['/'] (u ++ v) = '/' :: v := by
  have hlen : u.length = 8 := by simpa [fileWord] using congrArg List.length hu
  have hne : u ≠ [] := by rintro rfl; simp at hlen
  have h := replaceFrom_match (r := fileUrlRegexp canon) ['/'] (b := []) (u := []) (x := u) (v := v) hne ?_ ?_ ?_
  · -- behind the first match, `^` would need a newline
    have hrest : replaceFrom (fileUrlRegexp canon) ['/'] ([] ++ [] ++ u) v 0 = v := by
      apply replaceFrom_eq_self
      rintro x w d rfl
      refine not_matches_fileUrl (by simp [hne]) fun hx => hn ?_
      rw [← List.append_assoc]
      exact List.mem_append_left w (by simpa using hx)
    rw [hrest] at h
    exact h
  · intro u' w d he hw
    exact absurd (List.append_eq_nil_iff.1 he).2 hw
  · intro d hd
    obtain ⟨-, x, y, hxy, hx, rfl⟩ := matches_fileUrl.1 hd
    have hlx : x.length = 8 := by simpa [fileWord] using congrArg List.length hx
    obtain ⟨rfl, -⟩ := List.append_inj (show u ++ v = x ++ y from hxy) (by omega)
    rfl
  · exact ⟨_, matches_fileUrl.2 ⟨by simp, u, v, rfl, hu, rfl⟩⟩

theorem rewriteFileUrl_self {canon : Char → Char} {s : List Char} (h : ¬ Begins canon fileWord s) (hn : '\n' ∉ s) :
    replaceAll (fileUrlRegexp canon) ['/'] s = s := by
  apply replaceFrom_eq_self
  rintro u w d rfl hm
  cases u with
  | nil =>
    obtain ⟨-, x, y, hxy, hx, -⟩ := matches_fileUrl.1 hm
    exact h (begins_iff.2 ⟨x, y, hxy, hx⟩)
  | cons c u => exact not_matches_fileUrl (by simp) (fun hu => hn (List.mem_append_left w (by simpa using hu))) hm

/-! ### URLs -/

/-- `http://` -/
def httpWord : List Char := ['h', 't', 't', 'p', ':', '/', '/']

/-- `https://` -/
def httpsWord : List Char := ['h', 't', 't', 'p', 's', ':', '/', '/']

/-- The text is taken for a URL. -/
def IsUrl (canon : Char → Char) (s : List Char) : Prop := Begins canon httpWord s ∨ Begins canon httpsWord s

theorem search_url {canon : Char → Char} {s : List Char} :
    (search (urlRegexp canon) s).isSome = true ↔ IsUrl canon s := by
  unfold IsUrl
  rw [search_isSome, begins_iff, begins_iff]
  constructor
  · rintro ⟨u, v, d, rfl, -, ⟨rfl, rfl⟩, e, h₁, f, h₂, h₃⟩
    obtain ⟨x, y, hxy, hx, rfl⟩ := matches_word.1 h₁
    obtain ⟨z, w, hzw, hz, -⟩ := matches_word.1 h₃
    rcases h₂ with h₂ | rfl
    · obtain ⟨s, t, hst, hs, rfl⟩ := matches_word.1 h₂
      have hv : v = x ++ (s ++ (z ++ w)) := by rw [← show t = z ++ w from hzw, ← show y = s ++ t from hst]; exact hxy
      exact Or.inr ⟨x ++ (s ++ z), w, by simp [hv], by rw [List.map_append, List.map_append, hx, hs, hz]; rfl⟩
    · have hv : v = x ++ (z ++ w) := by rw [← show y = z ++ w from hzw]; exact hxy
      exact Or.inl ⟨x ++ z, w, by simp [hv], by rw [List.map_append, hx, hz]; rfl⟩
  · rintro (⟨u, t, rfl, hu⟩ | ⟨u, t, rfl, hu⟩)
    · have hlen : u.length = 7 := by simpa [httpWord] using congrArg List.length hu
      have h₁ : (u.take 4).map canon = ['h', 't', 't', 'p'].map canon := by rw [List.map_take, hu]; rfl
      have h₂ : (u.drop 4).map canon = [':', '/', '/'].map canon := by rw [List.map_drop, hu]; rfl
      have hsplit : u ++ t = u.take 4 ++ (u.drop 4 ++ t) := by rw [← List.append_assoc, List.take_append_drop]
      exact ⟨[], u ++ t, _, rfl, _, ⟨rfl, rfl⟩, _, matches_word.2 ⟨_, _, hsplit, h₁, rfl⟩, _, Or.inr rfl,
        matches_word.2 ⟨_, _, rfl, h₂, rfl⟩⟩
    · have hlen : u.length = 8 := by simpa [httpsWord] using congrArg List.length hu
      have h₁ : (u.take 4).map canon = ['h', 't', 't', 'p'].map canon := by rw [List.map_take, hu]; rfl
      have h₂ : ((u.drop 4).take 1).map canon = ['s'].map canon := by rw [List.map_take, List.map_drop, hu]; rfl
      have h₃ : ((u.drop 4).drop 1).map canon = [':', '/', '/'].map canon := by
        rw [List.map_drop, List.map_drop, hu]; rfl
      have hsplit : u ++ t = u.take 4 ++ ((u.drop 4).take 1 ++ ((u.drop 4).drop 1 ++ t)) := by
        rw [← List.append_assoc ((u.drop 4).take 1), List.take_append_drop, ← List.append_assoc, List.take_append_drop]
      exact ⟨[], u ++ t, _, rfl, _, ⟨rfl, rfl⟩, _, matches_word.2 ⟨_, _, hsplit, h₁, rfl⟩, _,
        Or.inl (matches_word.2 ⟨_, _, rfl, h₂, rfl⟩), matches_word.2 ⟨_, _, rfl, h₃, rfl⟩⟩

/-! ### The line number -/

theorem matches_line {c e : Cursor Char} :
    Matches (lineRegexp table.canon) c e ↔ c.before = [] ∧ ∃ p d, c.after = p ++ ':' :: d ∧ p ≠ [] ∧ '\n' ∉ p ∧
      d ≠ [] ∧ (∀ a ∈ d, a.isDigit = true) ∧ e = ⟨p ++ ':' :: d, [], (2, d) :: (1, p) :: c.groups⟩ := by
  constructor
  · rintro ⟨c, ⟨-, rfl⟩, c, ⟨hb, rfl⟩, _, ⟨e₁, u₁, h₁, hu₁, rfl⟩, e₂, h₂, _, ⟨e₃, u₃, h₃, hu₃, rfl⟩, he, rfl⟩
    obtain ⟨p, v, hp, hpne, hpn, rfl⟩ := matches_plus.1 h₁
    obtain ⟨x, w, hx, hxc, rfl⟩ := matches_word.1 h₂
    obtain ⟨d, t, hd, hdne, hdd, rfl⟩ := matches_plus.1 h₃
    obtain ⟨a, rfl⟩ : ∃ a, x = [a] := List.length_eq_one_iff.1 (by simpa using congrArg List.length hxc)
    obtain rfl := (canon_colon table).1 (by simpa using hxc)
    obtain rfl : t = [] := he
    obtain rfl : p = u₁ := List.append_cancel_left hu₁
    obtain rfl : d = u₃ := List.append_cancel_left hu₃
    have hafter : c.after = p ++ ':' :: d := by
      rw [hp, show v = [':'] ++ w from hx, show w = d ++ [] from hd]
      simp
    have hnl : '\n' ∉ p := fun hn => by simpa using hpn _ hn
    exact ⟨hb, p, d, hafter, hpne, hnl, hdne, hdd, by simp [hb]⟩
  · rintro ⟨hb, p, d, hc, hp, hnl, hd, hdd, rfl⟩
    have hpn : ∀ a ∈ p, (a != '\n') = true := by
      intro a ha
      rw [bne_iff_ne]
      rintro rfl
      exact hnl ha
    refine ⟨c, ⟨by simp [hb], rfl⟩, c, ⟨hb, rfl⟩, _,
      ⟨_, p, matches_plus.2 ⟨p, ':' :: d, hc, hp, hpn, rfl⟩, rfl, rfl⟩, _,
      matches_word.2 ⟨[':'], d, rfl, rfl, rfl⟩, _,
      ⟨_, d, matches_plus.2 ⟨d, [], by simp, hd, hdd, rfl⟩, rfl, rfl⟩, rfl, ?_⟩
    simp [hb]

/-- The text splits in one way only. -/
theorem search_line {p d : List Char} (hp : p ≠ []) (hpn : '\n' ∉ p) (hd : d ≠ []) (hdd : ∀ a ∈ d, a.isDigit = true) :
    ∃ m, search (lineRegexp table.canon) (p ++ ':' :: d) = some m ∧ m.group 1 = some p ∧ m.group 2 = some d := by
  have hcolon : ∀ {u : List Char}, (∀ a ∈ u, a.isDigit = true) → ':' ∉ u := fun hu h => by simpa using hu _ h
  have hm : Matches (lineRegexp table.canon) ⟨[], p ++ ':' :: d, []⟩ ⟨p ++ ':' :: d, [], [(2, d), (1, p)]⟩ :=
    (matches_line table).2 ⟨rfl, p, d, rfl, hp, hpn, hd, hdd, rfl⟩
  obtain ⟨m, hsearch⟩ := Option.isSome_iff_exists.1 (search_isSome.2 ⟨[], _, _, rfl, hm⟩)
  -- whichever match is preferred, its groups are these: the digits contain no colon
  obtain ⟨htext, hmatch⟩ := matches_of_search hsearch
  obtain ⟨hb, p', d', hafter, -, -, -, hdd', he⟩ := (matches_line table).1 hmatch
  have hb' : m.before = [] := hb
  have hsplit : p ++ ':' :: d = p' ++ ':' :: d' := by
    rw [hb', List.nil_append] at htext
    exact htext.trans hafter
  obtain ⟨rfl, rfl⟩ := split_last_unique (hcolon hdd) (hcolon hdd') hsplit
  have hgroups : m.groups = [(2, d), (1, p)] := (Cursor.mk.inj he).2.2
  exact ⟨m, hsearch, by rw [Match.group, hgroups]; rfl, by rw [Match.group, hgroups]; rfl⟩

/-- The text is a path with a line number. -/
def HasLine (s : List Char) : Prop :=
  ∃ p d, s = p ++ ':' :: d ∧ p ≠ [] ∧ d ≠ [] ∧ ∀ a ∈ d, a.isDigit = true

theorem search_line_none {s : List Char} (h : ¬ HasLine s) : search (lineRegexp table.canon) s = none := by
  rw [search_eq_none]
  rintro u v e rfl hm
  obtain ⟨hu, p, d, hafter, hp, -, hd, hdd, -⟩ := (matches_line table).1 hm
  obtain rfl : u = [] := hu
  exact h ⟨p, d, hafter, hp, hd, hdd⟩

end Stages

end EmacsDir
