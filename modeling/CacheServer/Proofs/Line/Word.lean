import CacheServer.Line

/-!
Words: characters that are a token as they stand. Two words with a blank between them are two tokens,
and nothing is trimmed from them.
-/

namespace CacheServer.Line

open Text

variable {cs a b : List Char}

theorem ne_quote_of_isBlank {c : Char} (hc : isBlank c = true) : c ≠ '"' := by
  rintro rfl
  rw [isBlank_quote] at hc
  cases hc

/-- Characters without blanks and quotes, at least one. -/
structure IsWord (cs : List Char) : Prop where
  ne_nil : cs ≠ []
  plain : ∀ c ∈ cs, c ≠ '"' ∧ isBlank c = false

theorem isWord_iff : IsWord cs ↔ cs ≠ [] ∧ cs.all (fun c => c != '"' && !isBlank c) = true := by
  simp only [List.all_eq_true, Bool.and_eq_true, bne_iff_ne, Bool.not_eq_true']
  exact ⟨fun h => ⟨h.ne_nil, h.plain⟩, fun h => ⟨h.1, h.2⟩⟩

instance (cs : List Char) : Decidable (IsWord cs) :=
  decidable_of_iff _ isWord_iff.symm

theorem IsWord.reverse (h : IsWord cs) : IsWord cs.reverse where
  ne_nil := by simpa using h.ne_nil
  plain c hc := h.plain c (List.mem_reverse.mp hc)

theorem foldl_step_of_plain (hcs : ∀ c ∈ cs, c ≠ '"' ∧ isBlank c = false) (ts : List String)
    (before : List Char) :
    cs.foldl Scan.step ⟨ts, some before, false⟩ = ⟨ts, some (cs.reverse ++ before), false⟩ := by
  induction cs generalizing before with
  | nil => rfl
  | cons c cs ih =>
    obtain ⟨⟨hquote, hblank⟩, hcs⟩ := List.forall_mem_cons.mp hcs
    have hstep : Scan.step ⟨ts, some before, false⟩ c = ⟨ts, some (c :: before), false⟩ := by
      simp [Scan.step, Scan.push, hquote, hblank]
    rw [List.foldl_cons, hstep, ih hcs]
    simp

/-- A word starts a token and is all of it. -/
theorem IsWord.foldl_step (h : IsWord cs) (ts : List String) :
    cs.foldl Scan.step ⟨ts, none, false⟩ = ⟨ts, some cs.reverse, false⟩ := by
  cases cs with
  | nil => exact absurd rfl h.ne_nil
  | cons c cs =>
    obtain ⟨⟨hquote, hblank⟩, hcs⟩ := List.forall_mem_cons.mp h.plain
    have hstep : Scan.step ⟨ts, none, false⟩ c = ⟨ts, some [c], false⟩ := by
      simp [Scan.step, Scan.push, hquote, hblank]
    rw [List.foldl_cons, hstep, foldl_step_of_plain hcs]
    simp

theorem tokens_of_words (ha : IsWord a) (hb : IsWord b) :
    tokens (String.ofList (a ++ ' ' :: b)) = .ok [String.ofList a, String.ofList b] := by
  have hblank : Scan.step ⟨[], some a.reverse, false⟩ ' ' = ⟨[String.ofList a], none, false⟩ := by
    have hspace : isBlank ' ' = true := by decide
    simp [Scan.step, Scan.close, hspace]
  rw [tokens, scan, String.toList_ofList, List.foldl_append, Scan.start, ha.foldl_step,
    List.foldl_cons, hblank, hb.foldl_step]
  simp [Scan.finish, Scan.close]

theorem IsWord.dropWhile_append (h : IsWord a) (rest : List Char) :
    (a ++ rest).dropWhile isBlank = a ++ rest := by
  cases a with
  | nil => exact absurd rfl h.ne_nil
  | cons c cs =>
    have hblank := (h.plain c List.mem_cons_self).2
    simp [hblank]

theorem trim_of_words (ha : IsWord a) (hb : IsWord b) :
    trim (String.ofList (a ++ ' ' :: b)) = String.ofList (a ++ ' ' :: b) := by
  have hback : (a ++ ' ' :: b).reverse = b.reverse ++ (' ' :: a.reverse) := by simp
  rw [trim, trimBlanks, String.toList_ofList, ha.dropWhile_append, hback, hb.reverse.dropWhile_append,
    ← hback, List.reverse_reverse]

end CacheServer.Line
