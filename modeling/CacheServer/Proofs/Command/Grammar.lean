import CacheServer.Proofs.Command.Clauses

/-!
The grammar of commands: which lists of tokens are a command, and which command they are. The language of
`SET` depends on what stands before: the name of a clause opens it only once and is a value from then on.
-/

namespace CacheServer

open Text

namespace Verb

theorem ofWord?_name (verb : Verb) : ofWord? verb.name = some verb := by
  cases verb <;> decide

/-- A verb is spelled in any case, and no word spells two of them. -/
theorem ofWord?_eq_some_iff {word : String} {verb : Verb} :
    ofWord? word = some verb ↔ sameWord word verb.name = true := by
  constructor
  · intro h
    rw [sameWord_comm]
    exact List.find?_some (p := fun v : Verb => sameWord v.name word) h
  · intro h
    rw [← ofWord?_name verb, ofWord?, ofWord?]
    simp only [sameWord, sameWord_iff.mp h]

end Verb

namespace Index

/-- The clause of `SET` that gives the secondary key for an index. -/
def clauseName : Index → String
  | one => "IDX1"
  | two => "IDX2"

def other : Index → Index
  | one => two
  | two => one

/-- No text is the name of both clauses. -/
theorem sameWord_other {i : Index} {t : String} (h : sameWord t i.clauseName = true) :
    sameWord t i.other.clauseName = false := by
  have hname : sameWord i.clauseName i.other.clauseName = false := by cases i <;> decide
  rw [Bool.eq_false_iff, Ne, sameWord_iff] at hname ⊢
  rwa [sameWord_iff.mp h]

theorem eq_or_eq_other (i j : Index) : j = i ∨ j = i.other := by
  cases i <;> cases j <;> simp [other]

theorem forall_iff {P : Index → Prop} (i : Index) : (∀ j, P j) ↔ P i ∧ P i.other := by
  constructor
  · intro h
    exact ⟨h i, h i.other⟩
  · rintro ⟨hi, hother⟩ j
    obtain rfl | rfl := i.eq_or_eq_other j
    · exact hi
    · exact hother

end Index

namespace Command

/-- Whether a text is the name of a clause of `SET`. -/
def namesClause (t : String) : Bool :=
  sameWord t "IDX1" || sameWord t "IDX2"

/-- The clauses of a `SET`, in either order and each with one value. The value of the first of two clauses is
not the name of the second one, which it would open. -/
inductive SpellsClauses : List String → Option String → Option String → Prop
  | none : SpellsClauses [] none none
  | one {i a} (hi : sameWord i "IDX1" = true) (ha : sameWord a "IDX2" = false) :
      SpellsClauses [i, a] (some a) none
  | two {j b} (hj : sameWord j "IDX2" = true) (hb : sameWord b "IDX1" = false) :
      SpellsClauses [j, b] none (some b)
  | oneTwo {i a j b} (hi : sameWord i "IDX1" = true) (ha : sameWord a "IDX2" = false)
      (hj : sameWord j "IDX2" = true) : SpellsClauses [i, a, j, b] (some a) (some b)
  | twoOne {j b i a} (hj : sameWord j "IDX2" = true) (hb : sameWord b "IDX1" = false)
      (hi : sameWord i "IDX1" = true) : SpellsClauses [j, b, i, a] (some a) (some b)

/-- The tokens of a command. -/
inductive Spells : List String → Command → Prop
  | ping {t} (ht : sameWord t "PING" = true) : Spells [t] .ping
  | get {t key} (ht : sameWord t "GET" = true) : Spells [t, key] (.get key)
  | getIdx1 {t key} (ht : sameWord t "GETIDX1" = true) : Spells [t, key] (.getBy .one key)
  | getIdx2 {t key} (ht : sameWord t "GETIDX2" = true) : Spells [t, key] (.getBy .two key)
  | del {t key} (ht : sameWord t "DEL" = true) : Spells [t, key] (.del key)
  | purge {t stem} (ht : sameWord t "PURGE" = true) : Spells [t, stem] (.purge stem)
  | reset {t word} (ht : sameWord t "RESET" = true) (hword : sameWord word "CONFIRM" = true) :
      Spells [t, word] .reset
  | set {t key value rest one two} (ht : sameWord t "SET" = true) (hkey : namesClause key = false)
      (hvalue : namesClause value = false) (hrest : SpellsClauses rest one two) :
      Spells (t :: key :: value :: rest) (.set key value one two)

open Arguments

variable {i : Index} {t t' u : String} {ts rest values : List String} {clauses : List Clause}
  {one two : Option String} {command : Command} {a : Arguments}

theorem opens_clause_iff {opened : List String} :
    opens Verb.set.clauseNames opened u = true ↔
      ∃ j : Index, sameWord u j.clauseName = true ∧ ∀ t ∈ opened, sameWord u t = false := by
  rw [opens_iff, exists_and_right]
  refine and_congr_left fun _ => ?_
  constructor
  · rintro ⟨name, hname, hu⟩
    obtain rfl | rfl : name = "IDX1" ∨ name = "IDX2" := by simpa [Verb.clauseNames] using hname
    · exact ⟨.one, hu⟩
    · exact ⟨.two, hu⟩
  · rintro ⟨j, hu⟩
    exact ⟨j.clauseName, by cases j <;> simp [Verb.clauseNames, Index.clauseName], hu⟩

theorem opens_first (ht : sameWord t i.clauseName = true) : opens Verb.set.clauseNames [] t = true :=
  opens_clause_iff.mpr ⟨i, ht, List.forall_mem_nil _⟩

theorem opens_first_eq_false_iff : opens Verb.set.clauseNames [] t = false ↔ namesClause t = false := by
  simp [opens, Verb.clauseNames, namesClause]

/-- Behind a clause only the name of the other one opens a clause. -/
theorem opens_second (ht : sameWord t i.clauseName = true) :
    opens Verb.set.clauseNames [t] u = sameWord u i.other.clauseName := by
  rw [Bool.eq_iff_iff, opens_clause_iff]
  constructor
  · rintro ⟨j, hu, hne⟩
    obtain rfl | rfl := i.eq_or_eq_other j
    · -- The name of the same clause is the token that opened it.
      rw [sameWord_comm] at ht
      have hsame := sameWord_trans hu ht
      rw [hne t List.mem_cons_self] at hsame
      cases hsame
    · exact hu
  · intro hu
    refine ⟨i.other, hu, List.forall_mem_singleton.mpr (Bool.eq_false_iff.mpr fun hsame => ?_)⟩
    rw [Index.sameWord_other (sameWord_trans hsame ht)] at hu
    cases hu

/-- Behind both clauses none is opened. -/
theorem opens_third (ht : sameWord t i.clauseName = true) (ht' : sameWord t' i.other.clauseName = true) :
    opens Verb.set.clauseNames [t', t] u = false := by
  rw [Bool.eq_false_iff, Ne, opens_clause_iff]
  rintro ⟨j, hu, hne⟩
  obtain ⟨hne', hne⟩ := List.forall_mem_cons.mp hne
  rw [sameWord_comm] at ht ht'
  obtain rfl | rfl := i.eq_or_eq_other j
  · have hsame := sameWord_trans hu ht
    rw [hne t List.mem_cons_self] at hsame
    cases hsame
  · have hsame := sameWord_trans hu ht'
    rw [hne'] at hsame
    cases hsame

/-- A clause is there with one value, or it is not there. -/
theorem clauseValue?_eq_ok_iff {verb : Verb} {name : String} {value : Option String} :
    clauseValue? verb a name = .ok value ↔
      (a.clause? name).map Clause.values = value.map fun v => [v] := by
  rw [clauseValue?]
  split
  case h_1 hnone =>
    rw [hnone]
    cases value <;> simp
  case h_2 v hsome =>
    rw [hsome]
    cases value <;> simp
  case h_3 c hmany hsome =>
    obtain ⟨clause, values⟩ := c
    rw [hsome]
    cases value with
    | none => simp
    | some v =>
      simp only [reduceCtorEq, Option.map_some, Option.some.injEq, false_iff]
      rintro rfl
      exact hmany clause v rfl

theorem ofArguments_set {key value : String} (hvalues : a.primary.values = [key, value]) :
    ofArguments .set a = (do
      let one ← clauseValue? .set a "IDX1"
      let two ← clauseValue? .set a "IDX2"
      return .set key value one two) := by
  unfold ofArguments
  rw [hvalues]

/-- The values of the clause for an index. -/
def clauseValues? (clauses : List Clause) (i : Index) : Option (List String) :=
  (clauses.find? fun c => sameWord c.name i.clauseName).map Clause.values

theorem clauseValues?_cons_self (ht : sameWord t i.clauseName = true) :
    clauseValues? (⟨t, values⟩ :: clauses) i = some values := by
  rw [clauseValues?, List.find?_cons_of_pos (by exact ht), Option.map_some]

theorem clauseValues?_cons_other (ht : sameWord t i.clauseName = true) :
    clauseValues? (⟨t, values⟩ :: clauses) i.other = clauseValues? clauses i.other := by
  rw [clauseValues?, clauseValues?, List.find?_cons_of_neg (by simp [Index.sameWord_other ht])]

/-- Whether clauses give what is said for each index: one value, or nothing. -/
def Gives (clauses : List Clause) (given : Index → Option String) : Prop :=
  ∀ i, ((given i).map fun v => [v]) = clauseValues? clauses i

variable {given : Index → Option String}

theorem gives_nil_iff : Gives [] given ↔ ∀ i, given i = none := by
  simp [Gives, clauseValues?]

theorem gives_one_iff (ht : sameWord t i.clauseName = true) :
    Gives [⟨t, values⟩] given ↔ (∃ v, given i = some v ∧ [v] = values) ∧ given i.other = none := by
  rw [Gives, i.forall_iff, clauseValues?_cons_self ht, clauseValues?_cons_other ht]
  simp [clauseValues?]

/-- A clause of the one name says nothing for the other index, so the next clause may. -/
theorem gives_two_iff (ht : sameWord t i.clauseName = true) (ht' : sameWord t' i.other.clauseName = true)
    {values' : List String} :
    Gives (⟨t, values⟩ :: ⟨t', values'⟩ :: clauses) given ↔
      (∃ v, given i = some v ∧ [v] = values) ∧ ∃ v, given i.other = some v ∧ [v] = values' := by
  rw [Gives, i.forall_iff, clauseValues?_cons_self ht, clauseValues?_cons_other ht, clauseValues?_cons_self ht']
  simp

theorem gives_iff :
    Gives a.clauses given ↔
      clauseValue? .set a "IDX1" = .ok (given .one) ∧ clauseValue? .set a "IDX2" = .ok (given .two) := by
  have hclause (i : Index) : clauseValue? .set a i.clauseName = .ok (given i) ↔
      ((given i).map fun v => [v]) = clauseValues? a.clauses i := by
    rw [clauseValue?_eq_ok_iff, eq_comm]
    rfl
  exact (Index.forall_iff .one).trans (and_congr (hclause .one).symm (hclause .two).symm)

/-- A `SET` has a key and a value, and its clauses give the secondary keys. -/
theorem ofArguments_set_eq_ok_iff :
    ofArguments .set a = .ok command ↔
      ∃ key value given, command = .set key value (given .one) (given .two) ∧
        a.primary.values = [key, value] ∧ Gives a.clauses given := by
  constructor
  · intro h
    obtain ⟨key, value, hvalues⟩ : ∃ key value, a.primary.values = [key, value] := by
      unfold ofArguments at h
      split at h
      case h_5 key value _ hvalues => exact ⟨key, value, hvalues⟩
      all_goals contradiction
    rw [ofArguments_set hvalues] at h
    cases hone : clauseValue? .set a "IDX1" with
    | error e =>
      rw [hone] at h
      cases h
    | ok one =>
      cases htwo : clauseValue? .set a "IDX2" with
      | error e =>
        rw [hone, htwo] at h
        cases h
      | ok two =>
        rw [hone, htwo] at h
        let given : Index → Option String := fun | .one => one | .two => two
        have hgives : Gives a.clauses given := gives_iff.mpr ⟨hone, htwo⟩
        exact ⟨key, value, given, (Except.ok.inj h).symm, hvalues, hgives⟩
  · rintro ⟨key, value, given, rfl, hvalues, hgives⟩
    obtain ⟨hone, htwo⟩ := gives_iff.mp hgives
    rw [ofArguments_set hvalues, hone, htwo]
    rfl

/-- What clauses spell, without telling the indexes apart: nothing, the clause for one index, or the clause
for one index and then that for the other. -/
theorem spellsClauses_iff :
    SpellsClauses rest (given .one) (given .two) ↔
      (rest = [] ∧ ∀ i, given i = none) ∨
        ∃ i t v, sameWord t i.clauseName = true ∧ sameWord v i.other.clauseName = false ∧
          given i = some v ∧
            ((rest = [t, v] ∧ given i.other = none) ∨
              ∃ t' w, sameWord t' i.other.clauseName = true ∧ given i.other = some w ∧
                rest = [t, v, t', w]) := by
  constructor
  · intro h
    generalize hone : given .one = one at h
    generalize htwo : given .two = two at h
    cases h with
    | none => exact .inl ⟨rfl, (Index.forall_iff .one).mpr ⟨hone, htwo⟩⟩
    | one hi ha => exact .inr ⟨.one, _, _, hi, ha, hone, .inl ⟨rfl, htwo⟩⟩
    | two hj hb => exact .inr ⟨.two, _, _, hj, hb, htwo, .inl ⟨rfl, hone⟩⟩
    | oneTwo hi ha hj => exact .inr ⟨.one, _, _, hi, ha, hone, .inr ⟨_, _, hj, htwo, rfl⟩⟩
    | twoOne hj hb hi => exact .inr ⟨.two, _, _, hj, hb, htwo, .inr ⟨_, _, hi, hone, rfl⟩⟩
  · rintro (⟨rfl, hnone⟩ | ⟨i, t, v, ht, hplain, hv, ⟨rfl, hother⟩ | ⟨t', w, ht', hw, rfl⟩⟩)
    · rw [hnone, hnone]
      exact .none
    · cases i with
      | one =>
        have htwo : given .two = none := hother
        rw [hv, htwo]
        exact .one ht hplain
      | two =>
        have hone : given .one = none := hother
        rw [hv, hone]
        exact .two ht hplain
    · cases i with
      | one =>
        have htwo : given .two = some w := hw
        rw [hv, htwo]
        exact .oneTwo ht hplain ht'
      | two =>
        have hone : given .one = some w := hw
        rw [hv, hone]
        exact .twoOne ht hplain ht'

/-- Behind the key and the value of a `SET` the tokens fall into clauses that give one value each, if they
spell clauses at all. -/
theorem spellsClauses_iff_fallsInto :
    SpellsClauses rest (given .one) (given .two) ↔
      ∃ clauses, FallsInto Verb.set.clauseNames [] rest [] clauses ∧ Gives clauses given := by
  rw [spellsClauses_iff]
  constructor
  · rintro (⟨rfl, hnone⟩ | ⟨i, t, v, ht, hplain, hv, ⟨rfl, hother⟩ | ⟨t', w, ht', hw, rfl⟩⟩)
    · exact ⟨[], .nil, gives_nil_iff.mpr hnone⟩
    · refine ⟨[⟨t, [v]⟩], .clause (opens_first ht) (.value ?_ .nil), ?_⟩
      · rwa [opens_second ht]
      · exact (gives_one_iff ht).mpr ⟨⟨v, hv, rfl⟩, hother⟩
    · refine ⟨[⟨t, [v]⟩, ⟨t', [w]⟩], .clause (opens_first ht) (.value ?_ (.clause ?_ (.value ?_ .nil))), ?_⟩
      · rwa [opens_second ht]
      · rwa [opens_second ht]
      · exact opens_third ht ht'
      · exact (gives_two_iff ht ht').mpr ⟨⟨v, hv, rfl⟩, w, hw, rfl⟩
  · rintro ⟨clauses, h, hgives⟩
    cases h with
    | nil => exact .inl ⟨rfl, gives_nil_iff.mp hgives⟩
    | @clause _ t _ _ _ ht h =>
      obtain ⟨i, hi, -⟩ := opens_clause_iff.mp ht
      have hfirst := hgives i
      rw [clauseValues?_cons_self hi, Option.map_eq_some_iff] at hfirst
      obtain ⟨v, hv, rfl⟩ := hfirst
      cases h with
      | value hplain h =>
        rw [opens_second hi] at hplain
        refine .inr ⟨i, t, v, hi, hplain, hv, ?_⟩
        cases h with
        | nil => exact .inl ⟨rfl, ((gives_one_iff hi).mp hgives).2⟩
        | @clause _ t' _ _ _ ht' h =>
          rw [opens_second hi] at ht'
          obtain ⟨-, w, hw, rfl⟩ := (gives_two_iff hi ht').mp hgives
          refine .inr ⟨t', w, ht', hw, ?_⟩
          cases h with
          | value _ h =>
            cases h with
            | nil => rfl
            | clause ht'' =>
              rw [opens_third hi ht'] at ht''
              cases ht''

/-- A line is read by the verb that its first token spells. -/
theorem ofTokens_cons_eq_ok_iff :
    ofTokens (t :: ts) = .ok command ↔
      ∃ verb values clauses, sameWord t verb.name = true ∧
        FallsInto verb.clauseNames [] ts values clauses ∧
          ofArguments verb ⟨⟨t, values⟩, clauses⟩ = .ok command := by
  rw [ofTokens, List.head?_cons, Option.bind_some]
  simp only [← Verb.ofWord?_eq_some_iff]
  cases Verb.ofWord? t with
  | none => simp
  | some verb =>
    dsimp only
    constructor
    · intro h
      obtain ⟨values, clauses, hfalls, hgroups⟩ := exists_ofTokens_eq verb.clauseNames t ts
      rw [hgroups] at h
      exact ⟨verb, values, clauses, rfl, hfalls, h⟩
    · rintro ⟨verb', values, clauses, hverb, hfalls, h⟩
      obtain rfl := Option.some.inj hverb
      rw [hfalls.ofTokens_eq]
      exact h

/-- Without clauses all tokens behind the verb are its values. -/
theorem ofTokens_cons_of_plain (verb : Verb) (hverb : verb ≠ .set) (ht : sameWord t verb.name = true) :
    ofTokens (t :: ts) = ofArguments verb ⟨⟨t, ts⟩, []⟩ := by
  have hnames : verb.clauseNames = [] := by
    cases verb with
    | set => exact absurd rfl hverb
    | _ => rfl
  rw [ofTokens, List.head?_cons, Option.bind_some, Verb.ofWord?_eq_some_iff.mpr ht]
  dsimp only
  rw [hnames, (fallsInto_nil_iff.mpr ⟨rfl, rfl⟩).ofTokens_eq]

/-- The commands without clauses. -/
theorem spells_of_ofArguments {verb : Verb} (hverb : verb ≠ .set) (ht : sameWord t verb.name = true)
    (h : ofArguments verb ⟨⟨t, ts⟩, clauses⟩ = .ok command) : Spells (t :: ts) command := by
  unfold ofArguments at h
  split at h
  case h_5 => exact absurd rfl hverb
  case h_8 word hvalues =>
    obtain rfl : ts = [word] := hvalues
    split at h
    case isTrue hword =>
      cases h
      exact .reset ht hword
    case isFalse => cases h
  case h_9 => cases h
  all_goals
    -- Each other verb makes its command of the values that it wants.
    rename_i hvalues
    obtain rfl : ts = _ := hvalues
    cases h
    constructor
    exact ht

theorem ofTokens_eq_ok_iff : ofTokens ts = .ok command ↔ Spells ts command := by
  constructor
  · intro h
    cases ts with
    | nil => cases h
    | cons t ts =>
      obtain ⟨verb, values, clauses, ht, hfalls, hset⟩ := ofTokens_cons_eq_ok_iff.mp h
      by_cases hverb : verb = .set
      · subst verb
        obtain ⟨key, value, given, rfl, hvalues, hgives⟩ := ofArguments_set_eq_ok_iff.mp hset
        obtain rfl : values = [key, value] := hvalues
        cases hfalls with
        | value hkey hfalls =>
          cases hfalls with
          | value hvalue hfalls =>
            rw [opens_first_eq_false_iff] at hkey hvalue
            exact .set ht hkey hvalue (spellsClauses_iff_fallsInto.mpr ⟨clauses, hfalls, hgives⟩)
      · rw [ofTokens_cons_of_plain verb hverb ht] at h
        exact spells_of_ofArguments hverb ht h
  · intro h
    cases h with
    | @set t key value rest one two ht hkey hvalue hrest =>
      let given : Index → Option String := fun | .one => one | .two => two
      have hrest' : SpellsClauses rest (given .one) (given .two) := hrest
      obtain ⟨clauses, hfalls, hgives⟩ := spellsClauses_iff_fallsInto.mp hrest'
      rw [← opens_first_eq_false_iff] at hkey hvalue
      have hfalls' := FallsInto.value hkey (FallsInto.value hvalue hfalls)
      refine ofTokens_cons_eq_ok_iff.mpr ⟨.set, [key, value], clauses, ht, hfalls', ?_⟩
      exact ofArguments_set_eq_ok_iff.mpr ⟨key, value, given, rfl, rfl, hgives⟩
    | ping ht => exact ofTokens_cons_of_plain .ping (by decide) ht
    | get ht => exact ofTokens_cons_of_plain .get (by decide) ht
    | getIdx1 ht => exact ofTokens_cons_of_plain .getIdx1 (by decide) ht
    | getIdx2 ht => exact ofTokens_cons_of_plain .getIdx2 (by decide) ht
    | del ht => exact ofTokens_cons_of_plain .del (by decide) ht
    | purge ht => exact ofTokens_cons_of_plain .purge (by decide) ht
    | reset ht hword =>
      rw [ofTokens_cons_of_plain .reset (by decide) ht]
      exact if_pos hword

theorem ofLine_eq_ok_iff {line : String} :
    ofLine line = .ok command ↔ ∃ ts, Line.tokens line = .ok ts ∧ Spells ts command := by
  rw [ofLine]
  cases Line.tokens line with
  | error e => simp
  | ok ts => simp [ofTokens_eq_ok_iff]

/-- A line is a command if and only if it is read as tokens that have one of the shapes of the grammar, and
it is the command of that shape, with the tokens that stand in it. Every other line is an error. -/
theorem ofLine_iff_spells (line : String) :
    (∀ command, ofLine line = .ok command ↔ ∃ ts, Line.tokens line = .ok ts ∧ Spells ts command) ∧
      ((∃ e, ofLine line = .error e) ↔
        ∀ ts, Line.tokens line = .ok ts → ∀ command, ¬ Spells ts command) := by
  refine ⟨fun command => ofLine_eq_ok_iff, ?_⟩
  constructor
  · rintro ⟨e, he⟩ ts hts command hspells
    rw [ofLine_eq_ok_iff.mpr ⟨ts, hts, hspells⟩] at he
    cases he
  · intro hnone
    cases hline : ofLine line with
    | error e => exact ⟨e, rfl⟩
    | ok command =>
      obtain ⟨ts, hts, hspells⟩ := ofLine_eq_ok_iff.mp hline
      exact absurd hspells (hnone ts hts command)

/-- The name of a clause that is there already is a value. -/
example : ofLine "set k v Idx2 x idx1 idx2" = .ok (.set "k" "v" (some "idx2") (some "x")) :=
  rfl

end Command

end CacheServer
