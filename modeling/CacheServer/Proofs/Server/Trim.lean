import CacheServer.Proofs.Line.Quoted
import CacheServer.Proofs.Server.Answer
import Mathlib.Data.List.TakeWhile

/-!
Blanks around a line. A reading from left to right passes over those in front. Those behind end a token, which the
end of the line does as well, or they stand in a quotation that never ends. So a line may be trimmed before it is
carried out.
-/

namespace CacheServer

open Text

namespace Text

/-- What is trimmed from either end is blank. -/
theorem exists_eq_trimBlanks (cs : List Char) : ∃ before behind,
    cs = before ++ trimBlanks cs ++ behind ∧ (∀ c ∈ before, isBlank c = true) ∧
      ∀ c ∈ behind, isBlank c = true := by
  have hback := List.takeWhile_append_dropWhile (p := isBlank) (l := (cs.dropWhile isBlank).reverse)
  refine ⟨cs.takeWhile isBlank, ((cs.dropWhile isBlank).reverse.takeWhile isBlank).reverse, ?_,
    fun c hc => List.mem_takeWhile_imp hc, fun c hc => List.mem_takeWhile_imp (List.mem_reverse.mp hc)⟩
  rw [trimBlanks, List.append_assoc, ← List.reverse_append, hback, List.reverse_reverse,
    List.takeWhile_append_dropWhile]

end Text

namespace Line

variable {cs : List Char}

/-- A blank between tokens is passed over. -/
theorem Scan.step_start_of_blank {c : Char} (hc : isBlank c = true) : start.step c = start := by
  simp [step, start, close, ne_quote_of_isBlank hc, hc]

theorem foldl_step_of_blanks (hcs : ∀ c ∈ cs, isBlank c = true) : cs.foldl Scan.step .start = .start := by
  induction cs with
  | nil => rfl
  | cons c cs ih =>
    obtain ⟨hc, hcs⟩ := List.forall_mem_cons.mp hcs
    rw [List.foldl_cons, Scan.step_start_of_blank hc, ih hcs]

theorem Scan.close_close (s : Scan) : s.close.close = s.close := by
  obtain ⟨tokens, current, quoted⟩ := s
  cases current <;> rfl

/-- Whether a token is ended by a blank or by the end of the line makes no difference. Within a quotation a blank
ends nothing, and then nothing can be read. -/
theorem Scan.finish_step_of_blank (s : Scan) {c : Char} (hc : isBlank c = true) :
    (s.step c).finish = s.finish := by
  rw [step, if_neg (ne_quote_of_isBlank hc)]
  by_cases hquoted : s.quoted = true
  · simp [finish, push, hquoted]
  · rw [if_neg hquoted, if_pos hc, finish, finish, s.quoted_close, s.close_close]

theorem Scan.finish_foldl_of_blanks (s : Scan) (hcs : ∀ c ∈ cs, isBlank c = true) :
    (cs.foldl step s).finish = s.finish := by
  induction cs generalizing s with
  | nil => rfl
  | cons c cs ih =>
    obtain ⟨hc, hcs⟩ := List.forall_mem_cons.mp hcs
    rw [List.foldl_cons, ih _ hcs, s.finish_step_of_blank hc]

/-- Blanks at either end change neither the tokens nor the error. -/
theorem tokens_of_blanks_around {before behind : List Char} (hbefore : ∀ c ∈ before, isBlank c = true)
    (hbehind : ∀ c ∈ behind, isBlank c = true) :
    tokens (String.ofList (before ++ cs ++ behind)) = tokens (String.ofList cs) := by
  simp only [tokens, scan, String.toList_ofList, List.foldl_append]
  rw [Scan.finish_foldl_of_blanks _ hbehind, foldl_step_of_blanks hbefore]

theorem tokens_trim (line : String) : tokens (trim line) = tokens line := by
  obtain ⟨before, behind, hline, hbefore, hbehind⟩ := exists_eq_trimBlanks line.toList
  have haround : tokens (String.ofList (before ++ trimBlanks line.toList ++ behind)) = tokens (trim line) :=
    tokens_of_blanks_around hbefore hbehind
  rw [← haround, ← hline, String.ofList_toList]

end Line

theorem Command.ofLine_trim (line : String) : ofLine (trim line) = ofLine line := by
  rw [ofLine, ofLine, Line.tokens_trim]

theorem Store.execute_trim (s : Store) (draw : Nat) (line : String) :
    s.execute draw (trim line) = s.execute draw line := by
  rw [execute, execute, Command.ofLine_trim]

/-- A line has the same tokens, or the same error, with and without the blanks around it. So every store gives the
same answer and comes to the same state, and a server that trims each line it gets does what the line says. -/
theorem Server.answers_line_as_it_stands (line : String) :
    Line.tokens (trim line) = Line.tokens line ∧
    (∀ (s : Store) (draw : Nat), s.execute draw (trim line) = s.execute draw line) ∧
    ∀ s : Server, s.answer line.toUTF8 =
      ((s.store.execute (s.draws s.answered) line).1,
        { s with
          store := (s.store.execute (s.draws s.answered) line).2
          answered := s.answered + 1 }) := by
  refine ⟨Line.tokens_trim line, fun s draw => s.execute_trim draw line, fun s => ?_⟩
  rw [answer_of_line (Utf8.decode_toUTF8 line), Store.execute_trim]

end CacheServer
