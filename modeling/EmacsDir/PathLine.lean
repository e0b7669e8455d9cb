import EmacsDir.PathStages
import Mathlib.Data.List.Basic

/-!
# A path with a line number

The token `p:n` around point, possibly with `file://` before it and a colon behind it, comes through the stages as `p`
and `n`, for every path that is not taken for a URL.  The search ignores letter case, so what is taken for a URL or
for a file URL is so up to the case table.
-/

namespace EmacsDir

open Command Regexp

/-- The files that were looked up. -/
def lookups (log : List Event) : List (List Char) :=
  log.filterMap fun
    | .lookup file => some file
    | _ => none

/-- `file://` -/
def fileHost : List Char := ['f', 'i', 'l', 'e', ':', '/', '/']

section Line

variable (table : CaseTable)

/-- A word with a single colon, which a slash follows, does not end in `:d` for a digit `d`. -/
private theorem begins_of_begins_line {w x y p r : List Char} {a : Char} (hw : w = x ++ ':' :: '/' :: y) (hx : ':' ∉ x)
    (hy : ':' ∉ y) (ha : a.isDigit = true) (h : Begins table.canon w (p ++ ':' :: a :: r)) : Begins table.canon w p := by
  subst hw
  rw [begins_iff] at h ⊢
  obtain ⟨u, t, htext, hu⟩ := h
  rcases List.append_eq_append_iff.1 htext with ⟨z, rfl, hz⟩ | ⟨z, rfl, -⟩
  · cases z with
    | nil => exact ⟨p, [], by simp, by simpa using hu⟩
    | cons c z =>
      -- the word would go on over the colon and the digit
      obtain ⟨rfl, hz₁⟩ := List.cons.inj hz
      have hcolon : ∀ {v : List Char}, ':' ∉ v → table.canon ':' ∉ v.map table.canon := by
        intro v hv hm
        obtain ⟨c, hc, he⟩ := List.mem_map.1 hm
        obtain rfl := (canon_colon table).1 he
        exact hv hc
      simp only [List.map_append, List.map_cons] at hu
      have hslash : ':' ∉ '/' :: y := by simpa using hy
      obtain ⟨-, -, hzy⟩ :=
        (List.append_cons_inj_of_notMem (hcolon hx) (hcolon hslash)).1 (by simpa using hu.symm)
      cases z with
      | nil => simp at hzy
      | cons c z =>
        obtain ⟨rfl, -⟩ := List.cons.inj hz₁
        rw [List.map_cons, List.map_cons] at hzy
        obtain rfl := table.plain '/' a (by decide) (by decide) (List.cons.inj hzy).1.symm
        simp at ha
  · exact ⟨u, z, rfl, hu⟩

/-- The stages leave `p` and the number. -/
theorem decodePath_line {p d : List Char} (pre suf : List Char) (hp : p ≠ []) (hpn : '\n' ∉ p) (hd : d ≠ [])
    (hdd : ∀ a ∈ d, a.isDigit = true) (hfile : ¬ Begins table.canon fileWord p)
    (hpre : pre = [] ∨ pre = fileHost ∧ p.head? = some '/') (hsuf : suf = [] ∨ suf = [':']) :
    decodePath table.canon (pre ++ p ++ ':' :: d ++ suf) = p ++ ':' :: d := by
  have hdn : '\n' ∉ p ++ ':' :: d := by
    simp only [List.mem_append, List.mem_cons, not_or]
    exact ⟨hpn, by decide, fun h => by simpa using hdd _ h⟩
  have hlast : (pre ++ p ++ ':' :: d).getLast? ≠ some ':' := by
    obtain ⟨d, a, rfl⟩ := (List.eq_nil_or_concat d).resolve_left hd
    have ha := hdd a (by simp)
    rw [List.concat_eq_append, ← List.cons_append, ← List.append_assoc, List.getLast?_concat]
    rintro h
    cases h
    simp at ha
  have hstrip : replaceAll (colonEndRegexp table.canon) [] (pre ++ p ++ ':' :: d ++ suf) = pre ++ p ++ ':' :: d := by
    rcases hsuf with rfl | rfl
    · rw [List.append_nil, stripColon_self table hlast]
    · exact stripColon_concat table _
  unfold decodePath
  rw [hstrip]
  rcases hpre with rfl | ⟨rfl, hslash⟩
  · -- the colon before the number completes no `file:///`
    rw [List.nil_append]
    refine rewriteFileUrl_self ?_ hdn
    obtain ⟨a, r, rfl⟩ := List.exists_cons_of_ne_nil hd
    intro h
    have hword : fileWord = ['f', 'i', 'l', 'e'] ++ ':' :: '/' :: ['/', '/'] := rfl
    exact hfile (begins_of_begins_line table hword (by decide) (by decide) (hdd a (by simp)) h)
  · cases p with
    | nil => exact absurd rfl hp
    | cons c p =>
      -- the slash of the path is the third slash of `file:///`, and is put back
      obtain rfl : c = '/' := by simpa using hslash
      have h := rewriteFileUrl_eq table.canon (u := fileWord) (v := p ++ ':' :: d) rfl ?_
      · exact h
      · intro hn
        rcases List.mem_append.1 hn with hn | hn
        · revert hn; decide
        · exact hdn (List.mem_cons_of_mem _ hn)

theorem not_isUrl_line {p d : List Char} (hd : d ≠ []) (hdd : ∀ a ∈ d, a.isDigit = true)
    (h : ¬ IsUrl table.canon p) : ¬ IsUrl table.canon (p ++ ':' :: d) := by
  obtain ⟨a, r, rfl⟩ := List.exists_cons_of_ne_nil hd
  have ha := hdd a (by simp)
  have hhttp : httpWord = ['h', 't', 't', 'p'] ++ ':' :: '/' :: ['/'] := rfl
  have hhttps : httpsWord = ['h', 't', 't', 'p', 's'] ++ ':' :: '/' :: ['/'] := rfl
  rintro (hu | hu)
  · exact h (Or.inl (begins_of_begins_line table hhttp (by decide) (by decide) ha hu))
  · exact h (Or.inr (begins_of_begins_line table hhttps (by decide) (by decide) ha hu))

end Line

section Run

variable {e : Surroundings} {s : Session}

theorem isDigit_toDigits (n : Nat) : ∀ a ∈ Nat.toDigits 10 n, a.isDigit = true :=
  fun _ ha => Nat.isDigit_of_mem_toDigits (by decide) (by decide) ha

theorem xahOpenFileAtCursor_apply (mark : Option Nat) :
    xahOpenFileAtCursor e mark s = openPath e (decodePath e.caseTable.canon (inputStr mark s.buffer)) s := by
  have h : (gets fun s => inputStr mark s.buffer : Command Signal Session _) s =
      some (.ok (inputStr mark s.buffer), s) := rfl
  unfold xahOpenFileAtCursor
  rw [bind_ok h]

theorem openPath_line {p : List Char} {n : Nat} (hp : p ≠ []) (hpn : '\n' ∉ p)
    (hurl : ¬ IsUrl e.caseTable.canon p) : openPath e (p ++ ':' :: Nat.toDigits 10 n) = openLine e p n := by
  have hd : Nat.toDigits 10 n ≠ [] := Nat.toDigits_ne_nil
  have hdd := isDigit_toDigits n
  have hsearch : ¬ (search (urlRegexp e.caseTable.canon) (p ++ ':' :: Nat.toDigits 10 n)).isSome = true := by
    rw [search_url]
    exact not_isUrl_line _ hd hdd hurl
  obtain ⟨m, hm, h₁, h₂⟩ := search_line e.caseTable hp hpn hd hdd
  unfold openPath
  rw [if_neg hsearch, hm]
  simp only [h₁, h₂, Option.getD_some, stringToNumber, Nat.ofDigitChars_ten_toDigits]

/-- The branch for a path with a line number. -/
theorem openLine_apply (p : List Char) (n : Nat) :
    openLine e p n s = some (.ok (),
      if e.fileExists p then ⟨((e.fileBuffer p).gotoChar 1).forwardLines (n - 1), s.log ++ [.lookup p, .visit p]⟩
      else if e.answer (createPrompt p) then
        ⟨e.fileBuffer p, s.log ++ [.lookup p, .ask (createPrompt p), .visit p]⟩
      else ⟨s.buffer, s.log ++ [.lookup p, .ask (createPrompt p)]⟩) := by
  unfold openLine
  cases he : e.fileExists p
  · cases ha : e.answer (createPrompt p) <;> simp [bind_apply, pure_apply, he, ha]
  · simp [bind_apply, update, he]

/-- The command decodes a token `p:n` around point: it looks up `p` and nothing else, and if `p` exists it visits `p`
and leaves point at the beginning of line `n`. -/
theorem xahOpenFileAtCursor_line (e : Surroundings) (s : Session) (L t R p pre suf : List Char) (n : Nat)
    (htext : s.buffer.text = L ++ t ++ R) (ht : ∀ c ∈ t, isPathStop c = false)
    (hL : ∀ c ∈ L.getLast?, isPathStop c = true) (hR : ∀ c ∈ R.head?, isPathStop c = true)
    (hlo : L.length < s.buffer.point) (hhi : s.buffer.point ≤ (L ++ t).length + 1) (hn : 1 ≤ n)
    (hsplit : t = pre ++ p ++ ':' :: Nat.toDigits 10 n ++ suf) (hp : p ≠ [])
    (hurl : ¬ IsUrl e.caseTable.canon p) (hfile : ¬ Begins e.caseTable.canon fileWord p)
    (hpre : pre = [] ∨ pre = fileHost ∧ p.head? = some '/') (hsuf : suf = [] ∨ suf = [':']) :
    ∃ s', xahOpenFileAtCursor e none s = some (.ok (), s') ∧ lookups s'.log = lookups s.log ++ [p] ∧
      (e.fileExists p = true → s'.log = s.log ++ [.lookup p, .visit p] ∧
        ∀ a c, (e.fileBuffer p).text = a ++ c → Buffer.BeginsLine a → a.count '\n' + 1 = n → s'.buffer = ⟨a, c⟩) := by
  have hpn : '\n' ∉ p := by
    intro h
    have := ht '\n' (by rw [hsplit]; simp [h])
    revert this
    decide
  have hinput : inputStr none s.buffer = t := tokenAtPoint_eq htext ht hL hR hlo hhi
  have hpath : decodePath e.caseTable.canon t = p ++ ':' :: Nat.toDigits 10 n := by
    rw [hsplit]
    exact decodePath_line e.caseTable pre suf hp hpn Nat.toDigits_ne_nil (isDigit_toDigits n) hfile hpre hsuf
  rw [xahOpenFileAtCursor_apply, hinput, hpath, openPath_line hp hpn hurl, openLine_apply]
  refine ⟨_, rfl, ?_, ?_⟩
  · split
    · simp [lookups]
    · split <;> simp [lookups]
  · intro he
    rw [if_pos he]
    refine ⟨rfl, ?_⟩
    intro a c hac ha hcount
    have hgoto : (e.fileBuffer p).gotoChar 1 = ⟨[], a ++ c⟩ := Buffer.gotoChar_append (u := []) hac
    rw [hgoto]
    exact Buffer.forwardLines_eq ha (by omega)

/-- Surroundings with some existing files, all of them empty, and a user who answers no. -/
def someFiles (files : List (List Char)) : Surroundings where
  caseTable := asciiTable
  alnum := Char.isAlphanum
  fileExists := files.contains
  fileBuffer _ := ⟨[], []⟩
  answer _ := false
  urlToFilepath := none

/-- The token `a:1:2` in the middle of a line. -/
theorem xahOpenFileAtCursor_line_colon :
    ∃ s', xahOpenFileAtCursor (someFiles [['a', ':', '1']]) none ⟨⟨['x', ' ', 'a', ':'], ['1', ':', '2', ' ', 'y']⟩, []⟩ =
        some (.ok (), s') ∧ lookups s'.log = lookups [] ++ [['a', ':', '1']] ∧
      ((someFiles [['a', ':', '1']]).fileExists ['a', ':', '1'] = true →
        s'.log = [] ++ [.lookup ['a', ':', '1'], .visit ['a', ':', '1']] ∧
        ∀ a c, ((someFiles [['a', ':', '1']]).fileBuffer ['a', ':', '1']).text = a ++ c → Buffer.BeginsLine a →
          a.count '\n' + 1 = 2 → s'.buffer = ⟨a, c⟩) :=
  xahOpenFileAtCursor_line (someFiles [['a', ':', '1']]) ⟨⟨['x', ' ', 'a', ':'], ['1', ':', '2', ' ', 'y']⟩, []⟩
    ['x', ' '] ['a', ':', '1', ':', '2'] [' ', 'y'] ['a', ':', '1'] [] [] 2 rfl (by simp [isPathStop, pathStops])
    (by simp [isPathStop, pathStops]) (by simp [isPathStop, pathStops]) (by decide) (by decide) (by decide) rfl (by decide)
    (by unfold IsUrl; decide) (by decide) (Or.inl rfl) (Or.inl rfl)

/-- A path that begins with an upper-case scheme is taken for a URL. -/
theorem xahOpenFileAtCursor_line_upper :
    (¬ httpWord <+: ['H', 'T', 'T', 'P', ':', '/', '/', 'a'] ∧ ¬ httpsWord <+: ['H', 'T', 'T', 'P', ':', '/', '/', 'a'] ∧
      ¬ fileWord <+: ['H', 'T', 'T', 'P', ':', '/', '/', 'a']) ∧
    ¬ ∃ s', xahOpenFileAtCursor (someFiles []) none ⟨⟨[], ['H', 'T', 'T', 'P', ':', '/', '/', 'a', ':', '1']⟩, []⟩ =
        some (.ok (), s') ∧ lookups s'.log = lookups [] ++ [['H', 'T', 'T', 'P', ':', '/', '/', 'a']] := by
  refine ⟨by decide, ?_⟩
  have hrun : xahOpenFileAtCursor (someFiles []) none ⟨⟨[], ['H', 'T', 'T', 'P', ':', '/', '/', 'a', ':', '1']⟩, []⟩ =
      some (.ok (), ⟨⟨[], ['H', 'T', 'T', 'P', ':', '/', '/', 'a', ':', '1']⟩,
        [.browse ['H', 'T', 'T', 'P', ':', '/', '/', 'a', ':', '1']]⟩) := by rfl
  rw [hrun]
  rintro ⟨s', he, hl⟩
  cases he
  revert hl
  decide

end Run

end EmacsDir
