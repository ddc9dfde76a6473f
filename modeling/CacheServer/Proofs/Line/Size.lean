import CacheServer.Line
import CacheServer.Proofs.Text.Size

/-!
The tokens of a line take no more bytes than the line, with a byte between any two of them.
-/

namespace CacheServer.Line

open Text

/-- The bytes of tokens, with one more for the end of each. -/
def tokensSize : List String → Nat
  | [] => 0
  | t :: ts => t.utf8ByteSize + 1 + tokensSize ts

@[simp] theorem tokensSize_nil : tokensSize [] = 0 := rfl

@[simp] theorem tokensSize_cons (t : String) (ts : List String) :
    tokensSize (t :: ts) = t.utf8ByteSize + 1 + tokensSize ts := rfl

@[simp] theorem tokensSize_append (ts ts' : List String) :
    tokensSize (ts ++ ts') = tokensSize ts + tokensSize ts' := by
  induction ts with
  | nil => simp
  | cons t ts ih =>
    rw [List.cons_append, tokensSize_cons, tokensSize_cons, ih]
    omega

@[simp] theorem tokensSize_reverse (ts : List String) : tokensSize ts.reverse = tokensSize ts := by
  induction ts with
  | nil => rfl
  | cons t ts ih =>
    rw [List.reverse_cons, tokensSize_append, ih, tokensSize_cons, tokensSize_cons, tokensSize_nil]
    omega

namespace Scan

/-- The bytes of the tokens that have ended, and of the one being read. -/
def size (s : Scan) : Nat :=
  tokensSize s.tokens + charsSize (s.current.getD [])

theorem size_push (s : Scan) (c : Char) : (s.push c).size = s.size + c.utf8Size := by
  simp only [size, push, Option.getD_some, charsSize_cons]
  omega

theorem size_toggle (s : Scan) : s.toggle.size = s.size := rfl

theorem size_close_le (s : Scan) : s.close.size ≤ s.size + 1 := by
  obtain ⟨tokens, current, quoted⟩ := s
  cases current with
  | none => exact Nat.le_add_right _ _
  | some cs =>
    simp only [size, close, tokensSize_cons, utf8ByteSize_ofList, charsSize_reverse,
      Option.getD_some, Option.getD_none, charsSize_nil]
    omega

/-- A character adds no more than its bytes; a blank pays for the end of a token. -/
theorem size_step_le (s : Scan) (c : Char) : (s.step c).size ≤ s.size + c.utf8Size := by
  have hpos := c.utf8Size_pos
  rw [step]
  split
  · rw [size_toggle]
    omega
  · split
    · rw [size_push]
    · split
      · exact Nat.le_trans s.size_close_le (by omega)
      · rw [size_push]

theorem size_foldl_step_le (s : Scan) (cs : List Char) :
    (cs.foldl step s).size ≤ s.size + charsSize cs := by
  induction cs generalizing s with
  | nil => exact Nat.le_refl _
  | cons c cs ih =>
    have hstep := s.size_step_le c
    have hrest := ih (s.step c)
    rw [List.foldl_cons, charsSize_cons]
    omega

end Scan

theorem tokensSize_le {line : String} {ts : List String} (h : tokens line = .ok ts) :
    tokensSize ts ≤ line.utf8ByteSize + 1 := by
  rw [tokens, Scan.finish] at h
  split at h
  · cases h
  · have hscan := Scan.size_foldl_step_le .start line.toList
    have hclose := (scan line.toList).size_close_le
    have hstart : Scan.start.size = 0 := rfl
    have htokens : tokensSize ts = tokensSize (scan line.toList).close.tokens := by
      cases h
      rw [tokensSize_reverse]
    rw [Scan.size] at hclose
    rw [utf8ByteSize_eq, htokens]
    rw [scan] at *
    omega

end CacheServer.Line
