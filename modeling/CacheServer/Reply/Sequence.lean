import CacheServer.Reply.Reader

/-!
Reading replies one after another. A reply that has been read took at least one byte, so the reading
ends.
-/

namespace CacheServer.Reply

theorem Outcome.length_next_le {α β : Type} {o : Outcome α} {f : α → List UInt8 → Outcome β}
    {n : Nat} (ho : o.2.length ≤ n) (hf : ∀ a rest, (f a rest).2.length ≤ rest.length) :
    (o.next f).2.length ≤ n := by
  obtain ⟨result, rest⟩ := o
  cases result with
  | ok a => exact Nat.le_trans (hf a rest) ho
  | error e => exact ho

theorem length_cutLine {line bytes cut rest : List UInt8}
    (h : cutLine line bytes = some (cut, rest)) : rest.length < bytes.length := by
  fun_induction cutLine line bytes with
  | case1 line a b tail hab =>
    obtain ⟨rfl, rfl⟩ : line.reverse = cut ∧ tail = rest := by simpa using h
    simp only [List.length_cons]
    omega
  | case2 line a b tail hab ih =>
    exact Nat.lt_succ_of_lt (ih h)
  | case3 => cases h

theorem length_readLine_le (bytes : List UInt8) : (readLine bytes).2.length ≤ bytes.length := by
  unfold readLine
  cases h : cutLine [] bytes with
  | none => exact Nat.le_refl _
  | some cut =>
    have := length_cutLine h
    dsimp only
    split <;> exact Nat.le_of_lt this

theorem length_readSigil_le (bytes : List UInt8) : (readSigil bytes).2.length ≤ bytes.length := by
  unfold readSigil
  repeat' split
  all_goals simp

theorem length_readLineOf_le (sigil : Sigil) (bytes : List UInt8) :
    (readLineOf sigil bytes).2.length ≤ bytes.length := by
  refine Outcome.length_next_le (length_readSigil_le bytes) fun s rest => ?_
  split
  · exact length_readLine_le rest
  · exact Nat.le_refl _

theorem length_readElements_le (n : Nat) (elements : List String) (bytes : List UInt8) :
    (readElements n elements bytes).2.length ≤ bytes.length := by
  fun_induction readElements n elements bytes with
  | case1 => exact Nat.le_refl _
  | case2 n elements bytes s rest h ih =>
    have := length_readLineOf_le .element bytes
    rw [h] at this
    exact Nat.le_trans ih this
  | case3 n elements bytes e rest h =>
    have := length_readLineOf_le .element bytes
    rwa [h] at this

theorem length_readInteger_le (bytes : List UInt8) :
    (readInteger bytes).2.length ≤ bytes.length := by
  refine Outcome.length_next_le (length_readLine_le bytes) fun s rest => ?_
  split <;> exact Nat.le_refl _

theorem length_readArray_le (bytes : List UInt8) : (readArray bytes).2.length ≤ bytes.length := by
  refine Outcome.length_next_le ?_ fun n rest => ?_
  · refine Outcome.length_next_le (length_readLine_le bytes) fun s rest => ?_
    repeat' split
    all_goals exact Nat.le_refl _
  · refine Outcome.length_next_le (length_readElements_le n [] rest) fun elements rest => ?_
    exact Outcome.length_next_le (length_readLineOf_le .arrayEnd rest) fun _ _ => Nat.le_refl _

/-- A reply that has been read took at least its sigil. -/
theorem length_read_lt {bytes rest : List UInt8} {r : Reply} (h : read bytes = (.ok r, rest)) :
    rest.length < bytes.length := by
  cases bytes with
  | nil => simp [read, readSigil, Outcome.next] at h
  | cons b tail =>
    suffices hle : (read (b :: tail)).2.length ≤ tail.length by
      rw [h] at hle
      exact Nat.lt_succ_of_le hle
    refine Outcome.length_next_le ?_ fun sigil rest => ?_
    · simp only [readSigil]
      split <;> exact Nat.le_refl _
    · cases sigil with
      | text => exact Outcome.length_next_le (length_readLine_le rest) fun _ _ => Nat.le_refl _
      | error => exact Outcome.length_next_le (length_readLine_le rest) fun _ _ => Nat.le_refl _
      | integer =>
        exact Outcome.length_next_le (length_readInteger_le rest) fun _ _ => Nat.le_refl _
      | arrayStart => exact length_readArray_le rest
      | element => exact Nat.le_refl _
      | arrayEnd => exact Nat.le_refl _

/-- Reads replies one after another until one fails or nothing is left, at least one. Beside each
outcome stand the bytes that were left after it. -/
def readAll (bytes : List UInt8) : List (Outcome Reply) :=
  match _h : read bytes with
  | (.ok r, rest) => (.ok r, rest) :: if rest.isEmpty then [] else readAll rest
  | (.error e, rest) => [(.error e, rest)]
termination_by bytes.length
decreasing_by exact length_read_lt _h

end CacheServer.Reply
