import EmacsDir.Tabset
import EmacsDir.Words

/-!
# Jumping to a tab by its keys

`awesome-tab-ace-jump` puts one or two keys on each visible tab and reads keys until they name a tab.  It keeps the keys
that are left of each tab, in the order of the tabs, and takes out those outside of the first and the last tab that fits.
This is as good as comparing each tab with all that has been typed (`aceJump_eq_typed`), because the keys are given out in
the order in which they are.
-/

namespace EmacsDir

namespace AwesomeTab

variable {K α : Type} [DecidableEq K]

/-- How a jump ends: with an error, at a key that quits, at a tab, or not with this input.  What has not been read
remains. -/
inductive AceResult (K α : Type)
  | tooManyTabs
  | reading
  | quit (input : List K)
  | select (tab : Option α) (input : List K)

/-- The number of keys for each of `n` visible tabs. -/
def keyNumber (aceKeys : List K) (n : Nat) : Option Nat :=
  if n ≤ aceKeys.length then some 1 else if n ≤ aceKeys.length * aceKeys.length then some 2 else none

/-- `awesome-tab-ace-1-key-seqs` and `awesome-tab-ace-2-key-seqs`, as the option `awesome-tab-ace-keys` sets them. -/
def aceKeySeqs (aceKeys : List K) : Nat → List (List K)
  | 1 => aceKeys.map fun a => [a]
  | _ => aceKeys.flatMap fun a => aceKeys.map fun b => [a, b]

/-- The default of `awesome-tab-ace-keys`. -/
def defaultAceKeys : List Char := ['j', 'k', 'l', 's', 'd', 'f']

/-- The default of `awesome-tab-ace-quit-keys`. -/
def defaultAceQuitKeys : List Char := [Char.ofNat 7, 'q', ' ']

/-- The default keys do not quit. -/
theorem defaultAceKeys_notMem {c : Char} (h : c ∈ defaultAceKeys) : c ∉ defaultAceQuitKeys := by
  have hall : (defaultAceKeys.all fun c => !defaultAceQuitKeys.contains c) = true := rfl
  simpa using List.all_eq_true.1 hall c h

/-- The loops that take out what does not fit the key, and the first tab that fits. -/
def narrow (char : K) (visibleSeqs : List (List K)) : Option (Nat × List (List K)) :=
  let currentChars := visibleSeqs.map List.head?
  match currentChars.findIdx? (· = some char) with
  | none => none
  | some lowerBound =>
    let upperBound := visibleSeqs.length - currentChars.reverse.findIdx (· = some char) - 1
    some (lowerBound, visibleSeqs.mapIdx fun i seq => if i < lowerBound ∨ upperBound < i then [] else seq)

/-- The rounds that are left, one for each key. -/
def aceRounds (quitKeys : List K) (visibleTabs : List α) : Nat → Nat → List (List K) → List K → AceResult K α
  | 0, lowerBound, _, input => .select visibleTabs[lowerBound]? input
  | _ + 1, _, _, [] => .reading
  | k + 1, lowerBound, visibleSeqs, char :: input =>
    if char ∈ quitKeys then .quit input
    else
      match narrow char visibleSeqs with
      | none => aceRounds quitKeys visibleTabs (k + 1) lowerBound visibleSeqs input
      | some (lowerBound, visibleSeqs) => aceRounds quitKeys visibleTabs k lowerBound (visibleSeqs.map List.tail) input

/-- `awesome-tab-ace-jump` -/
def aceJump (aceKeys quitKeys : List K) (visibleTabs : List α) (input : List K) : AceResult K α :=
  match keyNumber aceKeys visibleTabs.length with
  | none => .tooManyTabs
  | some k => aceRounds quitKeys visibleTabs k 0 ((aceKeySeqs aceKeys k).take visibleTabs.length) input

/-! ### Typing a word -/

/-- How the typing of one of some words ends. -/
inductive Typed (K : Type)
  | reading
  | quit (input : List K)
  | word (l : List K) (input : List K)

/-- What is typed grows by a letter if that is the beginning of a word; other letters are ignored. -/
def typed (labels : List (List K)) (quitKeys : List K) : List K → List K → Typed K
  | p, [] => if p ∈ labels then .word p [] else .reading
  | p, c :: input =>
    if p ∈ labels then .word p (c :: input)
    else if c ∈ quitKeys then .quit input
    else if ∃ l ∈ labels, p ++ [c] <+: l then typed labels quitKeys (p ++ [c]) input
    else typed labels quitKeys p input

/-- The tab with a label. -/
def Typed.jump (labels : List (List K)) (visibleTabs : List α) : Typed K → AceResult K α
  | .reading => .reading
  | .quit input => .quit input
  | .word l input => .select visibleTabs[labels.idxOf l]? input

/-! ### The bounds -/

section Bounds

variable {β : Type}

theorem findIdx_congr {q q' : β → Bool} {l : List β} (h : ∀ y ∈ l, q y = q' y) : l.findIdx q = l.findIdx q' := by
  induction l with
  | nil => rfl
  | cons y l ih =>
    rw [List.findIdx_cons, List.findIdx_cons, h y List.mem_cons_self, ih fun z hz => h z (List.mem_cons_of_mem y hz)]

theorem findIdx_block {q : β → Bool} {u v w : List β} (hu : ∀ y ∈ u, q y = false) (hv : ∀ y ∈ v, q y = true)
    (hne : v ≠ []) : (u ++ v ++ w).findIdx q = u.length := by
  obtain ⟨y, v, rfl⟩ := List.exists_cons_of_ne_nil hne
  have hall : u.findIdx q = u.length := List.findIdx_eq_length.2 hu
  rw [List.append_assoc, List.findIdx_append, hall, if_neg (Nat.lt_irrefl _), List.cons_append, List.findIdx_cons,
    hv y List.mem_cons_self]
  exact Nat.zero_add _

theorem findIdx?_block {q : β → Bool} {u v w : List β} (hu : ∀ y ∈ u, q y = false) (hv : ∀ y ∈ v, q y = true)
    (hw : ∀ y ∈ w, q y = false) : (u ++ v ++ w).findIdx? q = if v = [] then none else some u.length := by
  rcases eq_or_ne v [] with rfl | hne
  · rw [if_pos rfl, List.findIdx?_eq_none_iff]
    intro y hy
    rw [List.append_nil] at hy
    exact (List.mem_append.1 hy).elim (hu y) (hw y)
  · rw [if_neg hne, ← findIdx_block (w := w) hu hv hne, List.findIdx?_eq_some_iff_findIdx_eq]
    refine ⟨?_, rfl⟩
    rw [List.findIdx_lt_length]
    obtain ⟨y, hy⟩ := List.exists_mem_of_ne_nil v hne
    exact ⟨y, by simp [hy], hv y hy⟩

/-- The last one of the block, from behind. -/
theorem findIdx_reverse_block {q : β → Bool} {u v w : List β} (hv : ∀ y ∈ v, q y = true) (hw : ∀ y ∈ w, q y = false)
    (hne : v ≠ []) : (u ++ v ++ w).reverse.findIdx q = w.length := by
  have hreverse : (u ++ v ++ w).reverse = w.reverse ++ v.reverse ++ u.reverse := by simp
  rw [hreverse, findIdx_block, List.length_reverse]
  · exact fun y hy => hw y (List.mem_reverse.1 hy)
  · exact fun y hy => hv y (List.mem_reverse.1 hy)
  · exact fun h => hne (List.reverse_eq_nil_iff.1 h)

theorem mapIdx_block {u v w : List β} (d : β) (hne : v ≠ []) :
    ((u ++ v ++ w).mapIdx fun i s => if i < u.length ∨ u.length + v.length - 1 < i then d else s) =
      (u.map fun _ => d) ++ v ++ w.map fun _ => d := by
  have hpos : 0 < v.length := List.length_pos_of_ne_nil hne
  apply List.ext_getElem (by simp)
  intro i h₁ h₂
  simp only [List.getElem_mapIdx, List.getElem_append, List.length_append, List.length_map, List.getElem_map]
  by_cases hu : i < u.length
  · simp [hu, Nat.lt_add_right _ hu]
  · by_cases hv : i < u.length + v.length
    · have hnot : ¬ u.length + v.length - 1 < i := by omega
      simp [hu, hv, hnot]
    · have hlast : u.length + v.length - 1 < i := by omega
      simp [hv, hlast]

end Bounds

section Narrow

open Words

variable {L : List (List K)} {p : List K} {c : K}

/-- The bounds take out just the words that do not go on with the key. -/
theorem narrow_after (hblocks : Blocks L) (p : List K) (c : K) :
    narrow c (L.map (after p)) =
      if ∃ l ∈ L, p ++ [c] <+: l then
        some (L.findIdx (fun l => p ++ [c] <+: l), L.map fun l => if p ++ [c] <+: l then after p l else [])
      else none := by
  obtain ⟨u, v, w, rfl, hv, huw⟩ := hblocks (p ++ [c])
  have hhead : ∀ l, (after p l).head? = some c ↔ p ++ [c] <+: l := fun l => head?_after
  have hblock : ∀ y ∈ v.map fun l => (after p l).head?, decide (y = some c) = true := by
    intro y hy
    obtain ⟨l, hl, rfl⟩ := List.mem_map.1 hy
    exact decide_eq_true ((hhead l).2 (hv l hl))
  have hout : ∀ t : List (List K), (∀ l ∈ t, ¬ p ++ [c] <+: l) →
      ∀ y ∈ t.map fun l => (after p l).head?, decide (y = some c) = false := by
    intro t ht y hy
    obtain ⟨l, hl, rfl⟩ := List.mem_map.1 hy
    exact decide_eq_false fun he => ht l hl ((hhead l).1 he)
  have hu := hout u fun l hl => huw l (List.mem_append_left w hl)
  have hw := hout w fun l hl => huw l (List.mem_append_right u hl)
  have hchars : ((u ++ v ++ w).map (after p)).map List.head? =
      (u.map fun l => (after p l).head?) ++ (v.map fun l => (after p l).head?) ++ w.map fun l => (after p l).head? := by
    simp [List.map_map, Function.comp_def]
  unfold narrow
  dsimp only
  rw [hchars, findIdx?_block hu hblock hw]
  rcases eq_or_ne v [] with rfl | hne
  · have hnone : ¬ ∃ l ∈ u ++ [] ++ w, p ++ [c] <+: l := by
      rintro ⟨l, hl, hbegins⟩
      rw [List.append_nil] at hl
      exact huw l hl hbegins
    rw [if_neg hnone, List.map_nil, if_pos rfl]
  · have hsome : ∃ l ∈ u ++ v ++ w, p ++ [c] <+: l := by
      obtain ⟨l, hl⟩ := List.exists_mem_of_ne_nil v hne
      exact ⟨l, by simp [hl], hv l hl⟩
    have hne' : ∀ {β : Type} (f : List K → β), v.map f ≠ [] := fun f h => hne (List.map_eq_nil_iff.1 h)
    have hupper : (u ++ v ++ w).length - w.length - 1 = u.length + v.length - 1 := by
      rw [List.length_append, List.length_append]
      omega
    have hmask := mapIdx_block (u := u.map (after p)) (w := w.map (after p)) [] (hne' (after p))
    have hfirst : (u ++ v ++ w).findIdx (fun l => p ++ [c] <+: l) = u.length :=
      findIdx_block (fun l hl => decide_eq_false (huw l (List.mem_append_left w hl)))
        (fun l hl => decide_eq_true (hv l hl)) hne
    simp only [List.length_map] at hmask
    have hmask' : ∀ t : List (List K), (∀ l ∈ t, ¬ p ++ [c] <+: l) →
        (t.map (after p)).map (fun _ => []) = t.map fun l => if p ++ [c] <+: l then after p l else [] := by
      intro t ht
      rw [List.map_map]
      exact List.map_congr_left fun l hl => (if_neg (ht l hl)).symm
    have hkeep : v.map (after p) = v.map fun l => if p ++ [c] <+: l then after p l else [] :=
      List.map_congr_left fun l hl => (if_pos (hv l hl)).symm
    rw [if_pos hsome, if_neg (hne' _), findIdx_reverse_block hblock hw (hne' _), hfirst]
    simp only [List.length_map, hupper]
    rw [List.map_append, List.map_append, hmask, List.map_append, List.map_append,
      hmask' u fun l hl => huw l (List.mem_append_left w hl), hkeep,
      hmask' w fun l hl => huw l (List.mem_append_right u hl)]

variable {quitKeys : List K} {visibleTabs : List α}

theorem typed_of_mem (h : p ∈ L) (input : List K) : typed L quitKeys p input = .word p input := by
  cases input with
  | nil => rw [typed, if_pos h]
  | cons c input => rw [typed, if_pos h]

/-- After the last round the first tab that fits is the only one. -/
theorem aceRounds_zero (hlength : ∀ l ∈ L, l.length = p.length) (h : p ∈ L) (seqs : List (List K)) (input : List K) :
    aceRounds quitKeys visibleTabs 0 (L.findIdx fun l => p <+: l) seqs input =
      (typed L quitKeys p input).jump L visibleTabs := by
  have hindex : (L.findIdx fun l => p <+: l) = L.idxOf p := by
    unfold List.idxOf
    apply findIdx_congr
    intro l hl
    rw [Bool.eq_iff_iff, decide_eq_true_eq, beq_iff_eq]
    constructor
    · exact fun hbegins => (hbegins.eq_of_length (hlength l hl).symm).symm
    · rintro rfl
      exact List.prefix_rfl
  rw [typed_of_mem h, aceRounds, hindex]
  rfl

/-- The rounds that are left type the rest of a label. -/
theorem aceRounds_eq (quitKeys : List K) (visibleTabs : List α) (hblocks : Blocks L) (input : List K) {k : Nat} {p : List K}
    (hlength : ∀ l ∈ L, l.length = p.length + k) (hp : k = 0 → p ∈ L) :
    aceRounds quitKeys visibleTabs k (L.findIdx fun l => p <+: l) (L.map (after p)) input =
      (typed L quitKeys p input).jump L visibleTabs := by
  induction input generalizing k p with
  | nil =>
    cases k with
    | zero => exact aceRounds_zero hlength (hp rfl) _ _
    | succ k =>
      have hnot : p ∉ L := fun h => by
        have := hlength p h
        omega
      rw [typed, if_neg hnot]
      rfl
  | cons c input ih =>
    cases k with
    | zero => exact aceRounds_zero hlength (hp rfl) _ _
    | succ k =>
      have hnot : p ∉ L := fun h => by
        have := hlength p h
        omega
      rw [typed, if_neg hnot, aceRounds]
      by_cases hquit : c ∈ quitKeys
      · rw [if_pos hquit, if_pos hquit]
        rfl
      · rw [if_neg hquit, if_neg hquit, narrow_after hblocks p c]
        by_cases hsome : ∃ l ∈ L, p ++ [c] <+: l
        · rw [if_pos hsome, if_pos hsome]
          have hnext : ∀ l ∈ L, l.length = (p ++ [c]).length + k := by
            intro l hl
            rw [hlength l hl, List.length_append, List.length_singleton]
            omega
          dsimp only
          rw [List.map_map]
          have htail : (List.tail ∘ fun l => if p ++ [c] <+: l then after p l else []) = after (p ++ [c]) :=
            funext fun l => tail_after
          rw [htail]
          apply ih hnext
          rintro rfl
          obtain ⟨l, hl, hbegins⟩ := hsome
          rwa [hbegins.eq_of_length (hnext l hl).symm]
        · rw [if_neg hsome, if_neg hsome]
          exact ih hlength nofun

/-- The keys on the visible tabs. -/
def aceLabels (aceKeys : List K) (n : Nat) : List (List K) :=
  match keyNumber aceKeys n with
  | none => []
  | some k => (aceKeySeqs aceKeys k).take n

omit [DecidableEq K] in
theorem keyNumber_spec {aceKeys : List K} {n : Nat} (h : n ≤ aceKeys.length * aceKeys.length) :
    ∃ k, keyNumber aceKeys n = some k ∧ (k = 1 ∨ k = 2) ∧ aceKeySeqs aceKeys k = words aceKeys k ∧
      n ≤ (words aceKeys k).length := by
  unfold keyNumber
  by_cases hone : n ≤ aceKeys.length
  · refine ⟨1, if_pos hone, Or.inl rfl, (words_one aceKeys).symm, ?_⟩
    rwa [length_words_succ, words, List.length_singleton, Nat.mul_one]
  · refine ⟨2, by rw [if_neg hone, if_pos h], Or.inr rfl, (words_two aceKeys).symm, ?_⟩
    rwa [length_words_succ, length_words_succ, words, List.length_singleton, Nat.mul_one]

omit [DecidableEq K] in
theorem aceLabels_spec {aceKeys : List K} {n : Nat} (hkeys : aceKeys.Nodup) (h : n ≤ aceKeys.length * aceKeys.length) :
    ∃ k, keyNumber aceKeys n = some k ∧ (k = 1 ∨ k = 2) ∧ (aceKeySeqs aceKeys k).take n = aceLabels aceKeys n ∧
      Blocks (aceLabels aceKeys n) ∧ (aceLabels aceKeys n).Nodup ∧ (aceLabels aceKeys n).length = n ∧
      ∀ l ∈ aceLabels aceKeys n, l.length = k ∧ ∀ c ∈ l, c ∈ aceKeys := by
  obtain ⟨k, hk, hone, hseqs, hle⟩ := keyNumber_spec h
  have hlabels : aceLabels aceKeys n = (words aceKeys k).take n := by
    unfold aceLabels
    rw [hk, ← hseqs]
  rw [hlabels]
  refine ⟨k, hk, hone, by rw [hseqs], blocks_take (blocks_words hkeys k) n, (nodup_words hkeys k).take, ?_, ?_⟩
  · rw [List.length_take, Nat.min_eq_left hle]
  · intro l hl
    exact ⟨length_of_mem_words (List.mem_of_mem_take hl), fun c hc => mem_of_mem_words (List.mem_of_mem_take hl) hc⟩

/-- A jump compares what has been typed with the keys on the visible tabs, whatever keys come in between. -/
theorem aceJump_eq_typed {aceKeys : List K} (hkeys : aceKeys.Nodup)
    (h : visibleTabs.length ≤ aceKeys.length * aceKeys.length) (quitKeys input : List K) :
    aceJump aceKeys quitKeys visibleTabs input =
      (typed (aceLabels aceKeys visibleTabs.length) quitKeys [] input).jump (aceLabels aceKeys visibleTabs.length)
        visibleTabs := by
  obtain ⟨k, hk, hone, hseqs, hblocks, -, -, hlabels⟩ := aceLabels_spec hkeys h
  have hpos : k ≠ 0 := by omega
  have hrounds := aceRounds_eq quitKeys visibleTabs hblocks input (p := [])
    (fun l hl => by rw [(hlabels l hl).1, List.length_nil, Nat.zero_add]) fun hzero => absurd hzero hpos
  have hall : (aceLabels aceKeys visibleTabs.length).map (after []) = aceLabels aceKeys visibleTabs.length := by
    conv_rhs => rw [← List.map_id (aceLabels aceKeys visibleTabs.length)]
    exact List.map_congr_left fun l _ => after_append [] l
  have hfirst : ((aceLabels aceKeys visibleTabs.length).findIdx fun l => ([] : List K) <+: l) = 0 := by
    cases aceLabels aceKeys visibleTabs.length with
    | nil => rfl
    | cons l L => rw [List.findIdx_cons, decide_eq_true List.nil_prefix, cond_true]
  rw [hall, hfirst] at hrounds
  unfold aceJump
  rw [hk]
  dsimp only
  rw [hseqs]
  exact hrounds

/-- The third of three tabs for two keys, with a key in between that does not belong to it. -/
theorem aceJump_eq_typed_three_tabs :
    aceJump ['j', 'k'] defaultAceQuitKeys [1, 2, 3] ['k', 'x', 'j'] = .select (some 3) [] :=
  (aceJump_eq_typed (by decide) (by decide) _ _).trans rfl

/-- Typing the rest of a label. -/
theorem typed_append {t : List K} (hmem : p ++ t ∈ L) (hlength : ∀ l ∈ L, l.length = (p ++ t).length)
    (hquit : ∀ c ∈ t, c ∉ quitKeys) (rest : List K) : typed L quitKeys p (t ++ rest) = .word (p ++ t) rest := by
  induction t generalizing p with
  | nil =>
    rw [List.append_nil] at hmem ⊢
    exact typed_of_mem hmem rest
  | cons c t ih =>
    have hnot : p ∉ L := by
      intro hp
      have := hlength p hp
      rw [List.length_append, List.length_cons] at this
      omega
    have happend : p ++ c :: t = (p ++ [c]) ++ t := by simp
    rw [List.cons_append, typed, if_neg hnot, if_neg (hquit c List.mem_cons_self),
      if_pos ⟨p ++ c :: t, hmem, happend ▸ List.prefix_append (p ++ [c]) t⟩]
    rw [happend] at hmem hlength ⊢
    exact ih hmem hlength fun d hd => hquit d (List.mem_cons_of_mem c hd)

/-- A visible tab carries one or two keys, and they lead to that tab. -/
theorem aceJump_label (aceKeys quitKeys : List K) (visibleTabs : List α) (hkeys : aceKeys.Nodup)
    (h : visibleTabs.length ≤ aceKeys.length * aceKeys.length) (hquit : ∀ c ∈ aceKeys, c ∉ quitKeys) {i : Nat} {tab : α}
    (htab : visibleTabs[i]? = some tab) :
    ∃ w, (aceLabels aceKeys visibleTabs.length)[i]? = some w ∧ (w.length = 1 ∨ w.length = 2) ∧
      ∀ rest, aceJump aceKeys quitKeys visibleTabs (w ++ rest) = .select (some tab) rest := by
  obtain ⟨k, -, hone, -, -, hnodup, hlength, hlabels⟩ := aceLabels_spec hkeys h
  have hi : i < (aceLabels aceKeys visibleTabs.length).length := by
    rw [hlength]
    exact (List.getElem?_eq_some_iff.1 htab).1
  obtain ⟨w, hw⟩ : ∃ w, (aceLabels aceKeys visibleTabs.length)[i]? = some w := ⟨_, List.getElem?_eq_getElem hi⟩
  have hmem := List.mem_of_getElem? hw
  have hindex : (aceLabels aceKeys visibleTabs.length).idxOf w = i := by
    obtain ⟨_, rfl⟩ := List.getElem?_eq_some_iff.1 hw
    exact hnodup.idxOf_getElem i hi
  refine ⟨w, hw, (hlabels w hmem).1 ▸ hone, ?_⟩
  intro rest
  have htyped : typed (aceLabels aceKeys visibleTabs.length) quitKeys [] (w ++ rest) = .word w rest := by
    apply typed_append (p := []) hmem
    · intro l hl
      rw [List.nil_append, (hlabels l hl).1, (hlabels w hmem).1]
    · exact fun c hc => hquit c ((hlabels w hmem).2 c hc)
  rw [aceJump_eq_typed hkeys h, htyped]
  show AceResult.select visibleTabs[_]? rest = _
  rw [hindex, htab]

theorem aceJump_label_seven_tabs :
    ∃ w, (aceLabels defaultAceKeys 7)[6]? = some w ∧ (w.length = 1 ∨ w.length = 2) ∧ ∀ rest,
      aceJump defaultAceKeys defaultAceQuitKeys [1, 2, 3, 4, 5, 6, 7] (w ++ rest) = .select (some 7) rest :=
  aceJump_label defaultAceKeys defaultAceQuitKeys [1, 2, 3, 4, 5, 6, 7] (by decide) (by decide)
    (fun _ => defaultAceKeys_notMem) rfl

end Narrow

end AwesomeTab

end EmacsDir
