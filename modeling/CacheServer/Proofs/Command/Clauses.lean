import CacheServer.Command

/-!
How tokens fall into groups, said token by token. A token that opens no clause is a value of the group that is
open, and a name that has opened a clause opens no other.
-/

namespace CacheServer

open Text

namespace Arguments

/-- The tokens are values of the group that is open, as far as the next clause, and from there on the
clauses. -/
inductive FallsInto (names : List String) : List String → List String → List String → List Clause → Prop
  | nil {opened} : FallsInto names opened [] [] []
  | value {opened t ts values clauses} (ht : opens names opened t = false)
      (h : FallsInto names opened ts values clauses) :
      FallsInto names opened (t :: ts) (t :: values) clauses
  | clause {opened t ts values clauses} (ht : opens names opened t = true)
      (h : FallsInto names (t :: opened) ts values clauses) :
      FallsInto names opened (t :: ts) [] (⟨t, values⟩ :: clauses)

variable {names opened ts values : List String} {clauses : List Clause} {t : String}

theorem opens_iff :
    opens names opened t = true ↔
      (∃ n ∈ names, sameWord t n = true) ∧ ∀ n ∈ opened, sameWord t n = false := by
  simp [opens]

theorem exists_fallsInto (names opened ts : List String) :
    ∃ values clauses, FallsInto names opened ts values clauses := by
  induction ts generalizing opened with
  | nil => exact ⟨[], [], .nil⟩
  | cons t ts ih =>
    cases ht : opens names opened t with
    | false =>
      obtain ⟨values, clauses, h⟩ := ih opened
      exact ⟨t :: values, clauses, .value ht h⟩
    | true =>
      obtain ⟨values, clauses, h⟩ := ih (t :: opened)
      exact ⟨[], ⟨t, values⟩ :: clauses, .clause ht h⟩

theorem FallsInto.group_eq (h : FallsInto names opened ts values clauses) (current : Clause)
    (closed : List Clause) :
    group names opened current closed ts =
      closed.reverse ++ ⟨current.name, current.values.reverse ++ values⟩ :: clauses := by
  induction h generalizing current closed with
  | nil => simp [group]
  | value ht _ ih =>
    rw [group, ht, if_neg Bool.false_ne_true, ih]
    simp
  | clause ht _ ih =>
    rw [group, ht, if_pos rfl, ih]
    simp

theorem FallsInto.ofTokens_eq (h : FallsInto names [] ts values clauses) (name : String) :
    ofTokens names (name :: ts) = .ok ⟨⟨name, values⟩, clauses⟩ := by
  rw [ofTokens, h.group_eq]
  rfl

/-- A line with a first token is always grouped. -/
theorem exists_ofTokens_eq (names : List String) (name : String) (ts : List String) :
    ∃ values clauses, FallsInto names [] ts values clauses ∧
      ofTokens names (name :: ts) = .ok ⟨⟨name, values⟩, clauses⟩ := by
  obtain ⟨values, clauses, h⟩ := exists_fallsInto names [] ts
  exact ⟨values, clauses, h, h.ofTokens_eq name⟩

/-- No token is lost, and the tokens keep their order. -/
theorem FallsInto.flatMap_tokens (h : FallsInto names opened ts values clauses) :
    values ++ clauses.flatMap Clause.tokens = ts := by
  induction h with
  | nil => rfl
  | value _ _ ih => rw [List.cons_append, ih]
  | clause _ _ ih => rw [List.nil_append, List.flatMap_cons, Clause.tokens, List.cons_append, ih]

/-- The groups of a line, one after another, are the line. -/
theorem flatMap_tokens_of_ofTokens {a : Arguments} (h : ofTokens names ts = .ok a) :
    a.groups.flatMap Clause.tokens = ts := by
  cases ts with
  | nil => cases h
  | cons name rest =>
    obtain ⟨values, clauses, hfalls, hgroups⟩ := exists_ofTokens_eq names name rest
    obtain rfl := Except.ok.inj (hgroups.symm.trans h)
    rw [groups, List.flatMap_cons, Clause.tokens, List.cons_append, hfalls.flatMap_tokens]

/-- Where there are no names to open a clause, all tokens are values. -/
theorem fallsInto_nil_iff : FallsInto [] opened ts values clauses ↔ values = ts ∧ clauses = [] := by
  constructor
  · intro h
    induction h with
    | nil => exact ⟨rfl, rfl⟩
    | value _ _ ih => exact ⟨by rw [ih.1], ih.2⟩
    | clause ht => cases ht
  · rintro ⟨rfl, rfl⟩
    induction values with
    | nil => exact .nil
    | cons t ts ih => exact .value rfl ih

end Arguments

end CacheServer
