import CacheServer.Proofs.Line.Word
import Mathlib.Data.List.Forall2

/-!
Lines that are written for a list of tokens. A text without a double quote can be put between double quotes
and is read back as it is, whatever else it holds; a word can be written as it stands.
-/

namespace CacheServer.Line

open Text

variable {cs : List Char} {ts : List String}

/-- A text between double quotes. -/
def quoted (s : String) : String :=
  "\"" ++ s ++ "\""

/-- A part of a line, and the token that it is read as. -/
inductive Shows : String → String → Prop
  | word {s : String} (h : IsWord s.toList) : Shows s s
  | quoted {s : String} (h : '"' ∉ s.toList) : Shows (quoted s) s

/-- Between double quotes blanks are like other characters. -/
theorem foldl_step_inside (hcs : '"' ∉ cs) (ts : List String) (before : List Char) :
    cs.foldl Scan.step ⟨ts, some before, true⟩ = ⟨ts, some (cs.reverse ++ before), true⟩ := by
  induction cs generalizing before with
  | nil => rfl
  | cons c cs ih =>
    obtain ⟨hc, hcs⟩ := not_or.mp (mt List.mem_cons.mpr hcs)
    have hstep : Scan.step ⟨ts, some before, true⟩ c = ⟨ts, some (c :: before), true⟩ := by
      simp [Scan.step, Scan.push, Ne.symm hc]
    rw [List.foldl_cons, hstep, ih hcs]
    simp

/-- A part of a line starts a token and is all of it. -/
theorem Shows.foldl_step {part token : String} (h : Shows part token) (ts : List String) :
    part.toList.foldl Scan.step ⟨ts, none, false⟩ = ⟨ts, some token.toList.reverse, false⟩ := by
  cases h with
  | word h => exact h.foldl_step ts
  | quoted h =>
    have hopen : Scan.step ⟨ts, none, false⟩ '"' = ⟨ts, some [], true⟩ := rfl
    have hclose (cs : List Char) : Scan.step ⟨ts, some cs, true⟩ '"' = ⟨ts, some cs, false⟩ := rfl
    have hchars : (Line.quoted token).toList = '"' :: (token.toList ++ ['"']) := by
      simp [Line.quoted]
    rw [hchars, List.foldl_cons, hopen, List.foldl_append, foldl_step_inside h, List.append_nil,
      List.foldl_cons, hclose, List.foldl_nil]

theorem step_blank (ts : List String) (token : String) :
    Scan.step ⟨ts, some token.toList.reverse, false⟩ ' ' = ⟨token :: ts, none, false⟩ := by
  have hblank : isBlank ' ' = true := by decide
  simp [Scan.step, Scan.close, hblank]

/-- The parts are read one after another. The last of them is still open at the end of the line. -/
theorem close_foldl_step {parts : List String} (h : List.Forall₂ Shows parts ts) (before : List String) :
    (([' '].intercalate (parts.map String.toList)).foldl Scan.step ⟨before, none, false⟩).close =
      ⟨ts.reverse ++ before, none, false⟩ := by
  induction h generalizing before with
  | nil => rfl
  | @cons part token parts ts hpart hparts ih =>
    cases hparts with
    | nil =>
      rw [List.map_singleton, List.intercalate_singleton, hpart.foldl_step]
      simp [Scan.close]
    | cons =>
      rw [List.map_cons, List.map_cons, List.intercalate_cons_cons, List.foldl_append,
        List.foldl_append, hpart.foldl_step, List.foldl_cons, step_blank, List.foldl_nil,
        ← List.map_cons, ih]
      simp

theorem Scan.quoted_close (s : Scan) : s.close.quoted = s.quoted := by
  rw [close]
  split <;> rfl

/-- A line of words and quoted texts with a blank between any two of them is read as their list. -/
theorem tokens_intercalate {parts : List String} (h : List.Forall₂ Shows parts ts) :
    tokens (" ".intercalate parts) = .ok ts := by
  have hblank : " ".toList = [' '] := by decide
  have hclose := close_foldl_step h []
  rw [tokens, scan, String.toList_intercalate, hblank, Scan.start, Scan.finish, ← Scan.quoted_close, hclose]
  simp

end CacheServer.Line
