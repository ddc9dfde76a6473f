/-!
Words compared without regard to the case of ASCII letters. All other characters must agree exactly.
-/

namespace CacheServer.Text

/-- The characters of a word with `A` to `Z` made small; no other character changes. -/
def foldCase (s : String) : List Char :=
  s.toList.map Char.toLower

/-- Equality up to the case of ASCII letters. -/
def sameWord (a b : String) : Bool :=
  foldCase a == foldCase b

theorem sameWord_iff {a b : String} : sameWord a b = true ↔ foldCase a = foldCase b := by
  simp [sameWord]

@[simp] theorem sameWord_refl (a : String) : sameWord a a = true := by
  simp [sameWord]

theorem sameWord_comm (a b : String) : sameWord a b = sameWord b a := by
  rw [Bool.eq_iff_iff, sameWord_iff, sameWord_iff, eq_comm]

theorem sameWord_trans {a b c : String} (hab : sameWord a b = true) (hbc : sameWord b c = true) :
    sameWord a c = true := by
  rw [sameWord_iff] at *
  exact hab.trans hbc

end CacheServer.Text
