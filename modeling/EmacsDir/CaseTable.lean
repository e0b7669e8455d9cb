/-!
# Case tables

Searches ignore letter case when `case-fold-search` says so, which it does by default: two characters match when they
have the same canonical character.  The identity is the table of a search that heeds letter case.
-/

namespace EmacsDir

/-- A case table: among the ASCII characters only letters have variants. -/
structure CaseTable where
  canon : Char → Char
  plain : ∀ c d, c.toNat < 128 → c.isAlpha = false → canon d = canon c → d = c

private theorem toNat_toLower (c : Char) :
    c.toLower.toNat = if 65 ≤ c.toNat ∧ c.toNat ≤ 90 then c.toNat + 32 else c.toNat := by
  have hA : 'A'.val.toNat = 65 := rfl
  have hZ : 'Z'.val.toNat = 90 := rfl
  have hc : c.toNat = c.val.toNat := rfl
  unfold Char.toLower
  split
  · rename_i h
    simp only [ge_iff_le, UInt32.le_iff_toNat_le, hA, hZ] at h
    rw [if_pos (by omega)]
    show (c.val + 32).toNat = _
    rw [UInt32.toNat_add, show (32 : UInt32).toNat = 32 from rfl, hc]
    omega
  · rename_i h
    simp only [ge_iff_le, UInt32.le_iff_toNat_le, hA, hZ] at h
    rw [if_neg (by omega)]

/-- The case table of the ASCII letters. -/
def asciiTable : CaseTable where
  canon := Char.toLower
  plain c d _ ha h := by
    have hn := congrArg Char.toNat h
    have hc : c.toNat = c.val.toNat := rfl
    have hletter : (decide (c.val ≥ 'A'.val ∧ c.val ≤ 'Z'.val) ||
        (decide (c.val ≥ 'a'.val) && decide (c.val ≤ 'z'.val))) = false := ha
    simp [UInt32.le_iff_toNat_le] at hletter
    rw [toNat_toLower, toNat_toLower] at hn
    apply Char.toNat_inj.1
    split at hn <;> split at hn <;> omega

end EmacsDir
