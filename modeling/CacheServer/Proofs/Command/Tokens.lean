import CacheServer.Proofs.Command.Grammar
import CacheServer.Proofs.Line.Size

/-!
What a command takes from its line. The key and the value of a `SET` are tokens of the line, so the line is
longer than the value.
-/

namespace CacheServer.Command

open Text

variable {line key value : String} {one two : Option String}

theorem ne_empty_of_sameWord_name {word : String} (verb : Verb) (h : sameWord word verb.name = true) :
    word ≠ "" := by
  have hnone : Verb.ofWord? "" = none := by decide
  rintro rfl
  rw [Verb.ofWord?_eq_some_iff.mpr h] at hnone
  cases hnone

/-- Beside the value, a `SET` holds a character and two blanks at least. -/
theorem utf8ByteSize_value_of_set (h : ofLine line = .ok (.set key value one two)) :
    value.utf8ByteSize + 3 ≤ line.utf8ByteSize := by
  obtain ⟨ts, hts, hspells⟩ := ofLine_eq_ok_iff.mp h
  cases hspells with
  | @set name _ _ rest _ _ hname =>
    have hsize := Line.tokensSize_le hts
    have hne : name ≠ "" := ne_empty_of_sameWord_name .set hname
    have hpos : name.utf8ByteSize ≠ 0 := by rwa [Ne, String.utf8ByteSize_eq_zero_iff]
    simp only [Line.tokensSize_cons] at hsize
    omega

end CacheServer.Command
