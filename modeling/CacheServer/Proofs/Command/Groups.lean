import CacheServer.Proofs.Command.Clauses

/-!
Where the groups of a line begin, and which of them is found by a name. A clause begins at the first token behind
the command's own name that is the name of the clause, in any spelling, and at no other.
-/

namespace CacheServer.Arguments

open Text

variable {names opened ts values : List String} {clauses before : List Clause} {a : Arguments} {c : Clause}
  {t n : String} {j : Nat}

/-- A group begins at the position, if the values stand in front of the groups. -/
def BeginsAt (values : List String) (groups : List Clause) (j : Nat) : Prop :=
  ∃ before c after, groups = before ++ c :: after ∧
    values.length + (before.flatMap Clause.tokens).length = j

theorem not_beginsAt_value_zero : ¬ BeginsAt (t :: values) clauses 0 := by
  rintro ⟨before, c, after, -, hlength⟩
  rw [List.length_cons] at hlength
  omega

theorem beginsAt_value_succ : BeginsAt (t :: values) clauses (j + 1) ↔ BeginsAt values clauses j := by
  simp only [BeginsAt, List.length_cons, Nat.add_right_comm _ 1, Nat.add_right_cancel_iff]

theorem beginsAt_zero : BeginsAt [] (c :: clauses) 0 :=
  ⟨[], c, clauses, rfl, rfl⟩

/-- Behind the name of a group the next one begins where its values end. -/
theorem beginsAt_succ : BeginsAt [] (c :: clauses) (j + 1) ↔ BeginsAt c.values clauses j := by
  constructor
  · rintro ⟨before, d, after, heq, hlength⟩
    cases before with
    | nil => simp at hlength
    | cons first before =>
      obtain ⟨rfl, rfl⟩ := List.cons.inj heq
      refine ⟨before, d, after, rfl, ?_⟩
      simp only [List.length_nil, List.flatMap_cons, List.length_append, Clause.tokens, List.length_cons]
        at hlength
      omega
  · rintro ⟨before, d, after, rfl, hlength⟩
    refine ⟨c :: before, d, after, rfl, ?_⟩
    simp only [List.length_nil, List.flatMap_cons, List.length_append, Clause.tokens, List.length_cons]
    omega

/-- In what spelling a name stands makes no difference. -/
theorem opens_congr (h : sameWord t n = true) : opens names opened t = opens names opened n := by
  have hsame : sameWord t = sameWord n := by
    funext u
    rw [sameWord, sameWord, sameWord_iff.mp h]
  rw [opens, opens, hsame]

theorem opens_cons_iff :
    opens names (n :: opened) t = true ↔ opens names opened t = true ∧ sameWord n t = false := by
  rw [opens_iff, opens_iff, List.forall_mem_cons, sameWord_comm t n, and_assoc]
  exact and_congr_right fun _ => and_comm

/-- A token opens a clause if it may where the reading begins and none before it has the same name. -/
theorem FallsInto.beginsAt_iff (h : FallsInto names opened ts values clauses) (ht : ts[j]? = some t) :
    BeginsAt values clauses j ↔
      opens names opened t = true ∧ ∀ u ∈ ts.take j, sameWord u t = false := by
  induction h generalizing j with
  | nil => simp at ht
  | @value opened u ts values clauses hu _ ih =>
    cases j with
    | zero =>
      obtain rfl : u = t := by simpa using ht
      refine iff_of_false not_beginsAt_value_zero fun hopens => ?_
      rw [hu] at hopens
      cases hopens.1
    | succ j =>
      rw [beginsAt_value_succ, ih ht, List.take_succ_cons, List.forall_mem_cons]
      refine and_congr_right fun hopens => (and_iff_right ?_).symm
      -- A token of the same name would have opened the clause.
      rw [Bool.eq_false_iff]
      intro hsame
      rw [opens_congr hsame, hopens] at hu
      cases hu
  | @clause opened u ts values clauses hu _ ih =>
    cases j with
    | zero =>
      obtain rfl : u = t := by simpa using ht
      exact iff_of_true beginsAt_zero ⟨hu, List.forall_mem_nil _⟩
    | succ j =>
      rw [beginsAt_succ, ih ht, List.take_succ_cons, List.forall_mem_cons, opens_cons_iff, and_assoc]

/-- The names of the clauses may open one where the reading begins, and no two of them are the same. -/
theorem FallsInto.opens_name (h : FallsInto names opened ts values clauses) :
    (∀ c ∈ clauses, opens names opened c.name = true) ∧
      clauses.Pairwise fun c c' => sameWord c.name c'.name = false := by
  induction h with
  | nil => exact ⟨List.forall_mem_nil _, .nil⟩
  | value _ _ ih => exact ih
  | @clause opened t ts values clauses ht _ ih =>
    obtain ⟨hopens, hapart⟩ := ih
    refine ⟨List.forall_mem_cons.mpr ⟨ht, fun c hc => ?_⟩, List.pairwise_cons.mpr ⟨fun c hc => ?_, hapart⟩⟩
    · exact (opens_cons_iff.mp (hopens c hc)).1
    · exact (opens_cons_iff.mp (hopens c hc)).2

/-- A name that may open a clause has one if it is among the tokens. -/
theorem FallsInto.exists_clause_iff (h : FallsInto names opened ts values clauses) :
    (∃ c ∈ clauses, sameWord c.name n = true) ↔
      opens names opened n = true ∧ ∃ t ∈ ts, sameWord t n = true := by
  induction h with
  | nil => simp
  | @value opened t ts values clauses ht _ ih =>
    simp only [ih, List.mem_cons, exists_eq_or_imp]
    refine and_congr_right fun hopens => (or_iff_right fun hsame => ?_).symm
    rw [opens_congr hsame, hopens] at ht
    cases ht
  | @clause opened t ts values clauses ht _ ih =>
    simp only [List.mem_cons, exists_eq_or_imp, ih, opens_cons_iff]
    cases hsame : sameWord t n with
    | true =>
      rw [opens_congr hsame] at ht
      simp [ht]
    | false => simp

theorem clause?_eq_some_iff (hapart : a.clauses.Pairwise fun c c' => sameWord c.name c'.name = false) :
    a.clause? n = some c ↔ c ∈ a.clauses ∧ sameWord c.name n = true := by
  rw [clause?]
  constructor
  · intro hfound
    exact ⟨List.mem_of_find?_eq_some hfound, List.find?_some (p := fun c : Clause => sameWord c.name n) hfound⟩
  · rintro ⟨hc, hname⟩
    rw [List.find?_eq_some_iff_append]
    obtain ⟨before, after, hclauses⟩ := List.append_of_mem hc
    refine ⟨hname, before, after, hclauses, fun d hd => ?_⟩
    rw [hclauses, List.pairwise_append] at hapart
    have hne := hapart.2.2 d hd c List.mem_cons_self
    rw [Bool.not_eq_true', Bool.eq_false_iff]
    intro hsame
    rw [sameWord_comm] at hname
    rw [sameWord_trans hsame hname] at hne
    cases hne

/-- The tokens of a line, the first of them apart, are grouped under any registered names. The groups one after
another are the line, and the first token is the name of the first group. Another token begins a clause exactly if
it is a registered name and no token between the first and it is the same name, in whatever spelling. So no two
clauses have the same name; by a name, in any spelling, the one clause of that name is found, and none if the name
is not registered or not among the tokens behind the first. -/
theorem groups_of_tokens (names : List String) (name : String) (rest : List String) :
    ∃ a, ofTokens names (name :: rest) = .ok a ∧
      a.groups.flatMap Clause.tokens = name :: rest ∧ a.primary.name = name ∧
      (∀ j t, rest[j]? = some t → (BeginsAt [] a.groups (j + 1) ↔
        (∃ n ∈ names, sameWord t n = true) ∧ ∀ u ∈ rest.take j, sameWord u t = false)) ∧
      a.clauses.Pairwise (fun c c' => sameWord c.name c'.name = false) ∧
      (∀ n c, a.clause? n = some c ↔ c ∈ a.clauses ∧ sameWord c.name n = true) ∧
      ∀ n, a.clause? n = none ↔
        (∀ registered ∈ names, sameWord n registered = false) ∨ ∀ t ∈ rest, sameWord t n = false := by
  obtain ⟨values, clauses, h, hgroups⟩ := exists_ofTokens_eq names name rest
  obtain ⟨-, hapart⟩ := h.opens_name
  have hopens (t : String) : opens names [] t = true ↔ ∃ n ∈ names, sameWord t n = true := by
    rw [opens_iff, and_iff_left (List.forall_mem_nil _)]
  refine ⟨_, hgroups, flatMap_tokens_of_ofTokens hgroups, rfl, ?_, hapart, ?_, ?_⟩
  · intro j t ht
    rw [groups, beginsAt_succ, h.beginsAt_iff ht, hopens]
  · intro n c
    exact clause?_eq_some_iff hapart
  · intro n
    have hnone := not_congr (h.exists_clause_iff (n := n))
    rw [hopens, Classical.not_and_iff_not_or_not] at hnone
    rw [clause?, List.find?_eq_none]
    simpa only [not_exists, not_and, Bool.not_eq_true] using hnone

theorem groups_of_tokens_repeated :
    let names := ["IDX1", "idx1", "B"]
    let rest := ["v", "Idx1", "b", "iDX1", "B"]
    ∃ a, ofTokens names ("IDX1" :: rest) = .ok a ∧
      rest[3]? = some "iDX1" ∧ ¬ BeginsAt [] a.groups 4 ∧
      a.clause? "idX1" = some ⟨"Idx1", []⟩ ∧ a.clause? "B" = some ⟨"b", ["iDX1", "B"]⟩ := by
  intro names rest
  obtain ⟨a, hgroups, -, -, hbegins, -⟩ := groups_of_tokens names "IDX1" rest
  have hfourth : rest[3]? = some "iDX1" := rfl
  have ha : a = ⟨⟨"IDX1", ["v"]⟩, [⟨"Idx1", []⟩, ⟨"b", ["iDX1", "B"]⟩]⟩ :=
    Except.ok.inj (hgroups.symm.trans rfl)
  refine ⟨a, hgroups, hfourth, ?_, ?_, ?_⟩
  · rw [hbegins 3 "iDX1" hfourth]
    decide
  · rw [ha]
    decide
  · rw [ha]
    decide

end CacheServer.Arguments
