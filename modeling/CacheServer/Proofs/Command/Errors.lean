import CacheServer.Command

/-!
Which errors a line can have.
-/

namespace CacheServer.Command

theorem argument_of_clauseValue? {verb verb' : Verb} {a : Arguments} {name argument : String}
    (h : clauseValue? verb' a name = .error (.invalidArgument verb argument)) :
    argument = name ++ " expects exactly one value" := by
  rw [clauseValue?] at h
  split at h
  · cases h
  · cases h
  · obtain ⟨-, hargument⟩ := CommandError.invalidArgument.inj (Except.error.inj h)
    exact hargument.symm

/-- A clause of the wrong shape is reported by its name; other arguments only by `RESET`. -/
theorem eq_reset_of_ofArguments {a : Arguments} {verb verb' : Verb} {argument : String}
    (h : ofArguments verb' a = .error (.invalidArgument verb argument)) :
    verb = .reset ∨ ∃ name ∈ ["IDX1", "IDX2"], argument = name ++ " expects exactly one value" := by
  unfold ofArguments at h
  split at h
  case h_5 key value =>
    right
    cases hone : clauseValue? .set a "IDX1" with
    | error e =>
      rw [hone] at h
      obtain rfl := Except.error.inj h
      exact ⟨"IDX1", by simp, argument_of_clauseValue? hone⟩
    | ok one =>
      cases htwo : clauseValue? .set a "IDX2" with
      | error e =>
        rw [hone, htwo] at h
        obtain rfl := Except.error.inj h
        exact ⟨"IDX2", by simp, argument_of_clauseValue? htwo⟩
      | ok two =>
        rw [hone, htwo] at h
        cases h
  case h_8 word =>
    split at h
    · cases h
    · obtain ⟨rfl, -⟩ := CommandError.invalidArgument.inj (Except.error.inj h)
      exact .inl rfl
  all_goals cases h

theorem eq_reset_of_invalidArgument {line argument : String} {verb : Verb}
    (h : Command.ofLine line = .error (.invalidArgument verb argument)) :
    verb = .reset ∨ ∃ name ∈ ["IDX1", "IDX2"], argument = name ++ " expects exactly one value" := by
  rw [ofLine] at h
  split at h
  · cases h
  · rw [ofTokens] at h
    split at h
    · cases h
    · split at h
      · cases h
      · exact eq_reset_of_ofArguments h

end CacheServer.Command
