import CacheServer.Proofs.Line.Quoted
import Mathlib.Algebra.Ring.Parity
import Mathlib.Data.List.Induction

/-!
The tokens of a line, said without a reading from left to right. A blank outside quotation separates tokens, and
it stands outside if the number of double quotes before it is even. The tokens are the runs between separators,
each without its double quotes.
-/

namespace CacheServer.Line

open Text

variable {cs : List Char} {c : Char} {i j n : Nat} {runs : List (Nat × Nat)}

/-- A blank with an even number of double quotes before it separates tokens. -/
def IsSeparator (cs : List Char) (n : Nat) : Prop :=
  cs[n]?.any isBlank = true ∧ Even ((cs.take n).count '"')

instance (cs : List Char) (n : Nat) : Decidable (IsSeparator cs n) :=
  inferInstanceAs (Decidable (_ ∧ _))

/-- The positions from `i` on and before `j`: there is one at least, no separator is among them, and none can be
added in front. -/
structure Reaches (cs : List Char) (i j : Nat) : Prop where
  lt : i < j
  inside : ∀ n, i ≤ n → n < j → ¬ IsSeparator cs n
  before : i = 0 ∨ IsSeparator cs (i - 1)

/-- A run between separators. None can be added behind it either. -/
structure IsRun (cs : List Char) (i j : Nat) : Prop extends Reaches cs i j where
  le_length : j ≤ cs.length
  behind : j = cs.length ∨ IsSeparator cs j

/-- The list holds every run, each once, in the order of the line. -/
structure IsRuns (cs : List Char) (runs : List (Nat × Nat)) : Prop where
  mem_iff : ∀ i j, (i, j) ∈ runs ↔ IsRun cs i j
  inOrder : runs.Pairwise fun r r' => r.2 < r'.1

/-- The characters of a run without its double quotes. -/
def charsOf (cs : List Char) (r : Nat × Nat) : List Char :=
  ((cs.take r.2).drop r.1).filter (· != '"')

/-- The characters of a line that are neither separators nor double quotes. -/
def kept (cs : List Char) : List Char :=
  (cs.zipIdx.filter fun e => e.1 != '"' && !IsSeparator cs e.2).map Prod.fst

/-- Whether a character separates does not depend on those behind it. -/
theorem isSeparator_snoc_of_lt (hn : n < cs.length) :
    IsSeparator (cs ++ [c]) n ↔ IsSeparator cs n := by
  rw [IsSeparator, IsSeparator, List.getElem?_append_left hn, List.take_append_of_le_length (by omega)]

theorem isSeparator_snoc_length :
    IsSeparator (cs ++ [c]) cs.length ↔ isBlank c = true ∧ Even (cs.count '"') := by
  simp [IsSeparator]

/-- There is a separator before the end of the characters, or nothing at all. -/
def EndsApart (cs : List Char) : Prop :=
  cs.length = 0 ∨ IsSeparator cs (cs.length - 1)

theorem before_snoc_iff (hi : i ≤ cs.length) :
    i = 0 ∨ IsSeparator (cs ++ [c]) (i - 1) ↔ i = 0 ∨ IsSeparator cs (i - 1) := by
  refine or_congr_right' fun hne => ?_
  rw [isSeparator_snoc_of_lt (by omega)]

theorem reaches_snoc_of_le (hj : j ≤ cs.length) : Reaches (cs ++ [c]) i j ↔ Reaches cs i j := by
  constructor
  · rintro ⟨hlt, hinside, hbefore⟩
    refine ⟨hlt, fun n hi hn => ?_, (before_snoc_iff (by omega)).mp hbefore⟩
    rw [← isSeparator_snoc_of_lt (c := c) (by omega)]
    exact hinside n hi hn
  · rintro ⟨hlt, hinside, hbefore⟩
    refine ⟨hlt, fun n hi hn => ?_, (before_snoc_iff (by omega)).mpr hbefore⟩
    rw [isSeparator_snoc_of_lt (by omega)]
    exact hinside n hi hn

/-- What reaches beyond a character reached as far as the character before, or begins with it. -/
theorem reaches_snoc_succ (hc : ¬ IsSeparator (cs ++ [c]) cs.length) :
    Reaches (cs ++ [c]) i (cs.length + 1) ↔ Reaches cs i cs.length ∨ i = cs.length ∧ EndsApart cs := by
  have hlast : ∀ n, n < cs.length + 1 → (n < cs.length → ¬ IsSeparator cs n) →
      ¬ IsSeparator (cs ++ [c]) n := by
    intro n hn hfree
    obtain rfl | hlt : n = cs.length ∨ n < cs.length := by omega
    · exact hc
    · rw [isSeparator_snoc_of_lt hlt]
      exact hfree hlt
  constructor
  · rintro ⟨hlt, hinside, hbefore⟩
    rw [before_snoc_iff (by omega)] at hbefore
    obtain rfl | hi : i = cs.length ∨ i < cs.length := by omega
    · exact .inr ⟨rfl, hbefore⟩
    · refine .inl ⟨hi, fun n hn hn' => ?_, hbefore⟩
      rw [← isSeparator_snoc_of_lt (c := c) hn']
      exact hinside n hn (by omega)
  · rintro (⟨hlt, hinside, hbefore⟩ | ⟨rfl, hapart⟩)
    · exact ⟨by omega, fun n hi hn => hlast n hn (hinside n hi), (before_snoc_iff (by omega)).mpr hbefore⟩
    · exact ⟨by omega, fun n hi hn => hlast n hn (by omega), (before_snoc_iff (Nat.le_refl _)).mpr hapart⟩

theorem isRun_snoc_of_lt (hj : j < cs.length) : IsRun (cs ++ [c]) i j ↔ IsRun cs i j := by
  have hlength : (cs ++ [c]).length = cs.length + 1 := by simp
  constructor
  · rintro ⟨hreaches, -, hbehind⟩
    rw [isSeparator_snoc_of_lt hj] at hbehind
    exact ⟨(reaches_snoc_of_le (by omega)).mp hreaches, by omega, .inr (hbehind.resolve_left (by omega))⟩
  · rintro ⟨hreaches, -, hbehind⟩
    rw [← isSeparator_snoc_of_lt (c := c) hj] at hbehind
    exact ⟨(reaches_snoc_of_le (by omega)).mpr hreaches, by omega, .inr (hbehind.resolve_left (by omega))⟩

/-- A separator ends the run that it stands behind, and no other changes. -/
theorem isRun_snoc_of_separator (hc : IsSeparator (cs ++ [c]) cs.length) :
    IsRun (cs ++ [c]) i j ↔ IsRun cs i j := by
  have hlength : (cs ++ [c]).length = cs.length + 1 := by simp
  obtain hlt | rfl | hgt := Nat.lt_trichotomy j cs.length
  · exact isRun_snoc_of_lt hlt
  · constructor
    · rintro ⟨hreaches, -, -⟩
      exact ⟨(reaches_snoc_of_le (Nat.le_refl _)).mp hreaches, Nat.le_refl _, .inl rfl⟩
    · rintro ⟨hreaches, -, -⟩
      exact ⟨(reaches_snoc_of_le (Nat.le_refl _)).mpr hreaches, by omega, .inr hc⟩
  · refine iff_of_false (fun hrun => ?_) fun hrun => absurd hrun.le_length (by omega)
    have hlt := hrun.lt
    have hle := hrun.le_length
    exact hrun.inside cs.length (by omega) hgt hc

/-- Any other character makes the run longer that it stands behind, or it is a run of its own. -/
theorem isRun_snoc (hc : ¬ IsSeparator (cs ++ [c]) cs.length) :
    IsRun (cs ++ [c]) i j ↔ IsRun cs i j ∧ j < cs.length ∨
      j = cs.length + 1 ∧ (IsRun cs i cs.length ∨ i = cs.length ∧ EndsApart cs) := by
  have hlength : (cs ++ [c]).length = cs.length + 1 := by simp
  have hend : IsRun cs i cs.length ↔ Reaches cs i cs.length :=
    ⟨IsRun.toReaches, fun hreaches => ⟨hreaches, Nat.le_refl _, .inl rfl⟩⟩
  rw [hend, ← reaches_snoc_succ hc]
  constructor
  · intro hrun
    obtain hlt | hge := Nat.lt_or_ge j cs.length
    · exact .inl ⟨(isRun_snoc_of_lt hlt).mp hrun, hlt⟩
    · have hne : j ≠ cs.length := by
        rintro rfl
        exact hc (hrun.behind.resolve_left (by omega))
      have hle := hrun.le_length
      obtain rfl : j = cs.length + 1 := by omega
      exact .inr ⟨rfl, hrun.toReaches⟩
  · rintro (⟨hrun, hlt⟩ | ⟨rfl, hreaches⟩)
    · exact (isRun_snoc_of_lt hlt).mpr hrun
    · exact ⟨hreaches, by omega, .inl hlength.symm⟩

theorem EndsApart.lt_length (h : EndsApart cs) (hrun : IsRun cs i j) : j < cs.length := by
  have hlt := hrun.lt
  have hle := hrun.le_length
  obtain hzero | hsep := h
  · omega
  · have hne : j ≠ cs.length := by
      rintro rfl
      exact hrun.inside _ (by omega) (by omega) hsep
    omega

namespace IsRuns

theorem nil : IsRuns [] [] := by
  refine ⟨fun i j => iff_of_false List.not_mem_nil fun hrun => ?_, .nil⟩
  have hlt := hrun.lt
  have hle := hrun.le_length
  rw [List.length_nil] at hle
  omega

theorem snoc_of_separator (h : IsRuns cs runs) (hc : IsSeparator (cs ++ [c]) cs.length) :
    IsRuns (cs ++ [c]) runs :=
  ⟨fun i j => (h.mem_iff i j).trans (isRun_snoc_of_separator hc).symm, h.inOrder⟩

/-- Behind a separator a new run begins. -/
theorem snoc_of_apart (h : IsRuns cs runs) (hapart : EndsApart cs)
    (hc : ¬ IsSeparator (cs ++ [c]) cs.length) :
    IsRuns (cs ++ [c]) (runs ++ [(cs.length, cs.length + 1)]) := by
  refine ⟨fun i j => ?_, ?_⟩
  · rw [isRun_snoc hc, List.mem_append, h.mem_iff, List.mem_singleton, Prod.mk.injEq]
    have hopen : ¬ IsRun cs i cs.length := fun hrun => absurd (hapart.lt_length hrun) (by omega)
    have hclosed : IsRun cs i j → j < cs.length := hapart.lt_length
    tauto
  · rw [List.pairwise_append]
    refine ⟨h.inOrder, List.pairwise_singleton _ _, fun r hr r' hr' => ?_⟩
    obtain rfl := List.mem_singleton.mp hr'
    exact hapart.lt_length ((h.mem_iff r.1 r.2).mp hr)

/-- Behind the last run that run goes on. -/
theorem snoc_of_open (h : IsRuns cs (runs ++ [(i, cs.length)]))
    (hc : ¬ IsSeparator (cs ++ [c]) cs.length) :
    IsRuns (cs ++ [c]) (runs ++ [(i, cs.length + 1)]) := by
  obtain ⟨hmem, horder⟩ := h
  simp only [List.mem_append, List.mem_singleton, Prod.mk.injEq] at hmem
  obtain ⟨hbefore, -, hlast⟩ := List.pairwise_append.mp horder
  simp only [List.mem_singleton, forall_eq] at hlast
  have hrun : IsRun cs i cs.length := (hmem i cs.length).mp (.inr ⟨rfl, rfl⟩)
  have hlt := hrun.lt
  refine ⟨fun i' j => ?_, ?_⟩
  · rw [isRun_snoc hc, List.mem_append, List.mem_singleton, Prod.mk.injEq, ← hmem, ← hmem]
    have hclosed : (i', j) ∈ runs → j < i := hlast (i', j)
    have hopen : (i', cs.length) ∈ runs → cs.length < i := hlast (i', cs.length)
    have hapart : EndsApart cs → cs.length < cs.length := fun h => h.lt_length hrun
    grind
  · rw [List.pairwise_append]
    refine ⟨hbefore, List.pairwise_singleton _ _, fun r hr r' hr' => ?_⟩
    obtain rfl := List.mem_singleton.mp hr'
    exact hlast r hr

end IsRuns

theorem charsOf_snoc_of_le {r : Nat × Nat} (hr : r.2 ≤ cs.length) :
    charsOf (cs ++ [c]) r = charsOf cs r := by
  rw [charsOf, charsOf, List.take_append_of_le_length hr]

theorem charsOf_snoc_length (hi : i ≤ cs.length) :
    charsOf (cs ++ [c]) (i, cs.length + 1) = charsOf cs (i, cs.length) ++ [c].filter (· != '"') := by
  have hall : (cs ++ [c]).take (cs.length + 1) = cs ++ [c] := List.take_of_length_le (by simp)
  rw [charsOf, charsOf, hall, List.take_length, List.drop_append_of_le_length hi, List.filter_append]

theorem IsRuns.map_charsOf_snoc (h : IsRuns cs runs) (c : Char) :
    runs.map (charsOf (cs ++ [c])) = runs.map (charsOf cs) :=
  List.map_congr_left fun r hr => charsOf_snoc_of_le ((h.mem_iff r.1 r.2).mp hr).le_length

theorem scan_snoc (cs : List Char) (c : Char) : scan (cs ++ [c]) = (scan cs).step c :=
  List.foldl_concat ..

theorem Scan.quoted_step_of_ne (s : Scan) (hc : c ≠ '"') : (s.step c).quoted = s.quoted := by
  rw [step, if_neg hc]
  split
  · rfl
  · split
    · exact s.quoted_close
    · rfl

/-- The reading is within quotation if it has passed an odd number of double quotes. -/
theorem quoted_scan (cs : List Char) : (scan cs).quoted = true ↔ Odd (cs.count '"') := by
  induction cs using List.reverseRecOn with
  | nil => simp [scan, Scan.start]
  | append_singleton cs c ih =>
    rw [scan_snoc, List.count_append]
    by_cases hc : c = '"'
    · subst hc
      have htoggle : ((scan cs).step '"').quoted = !(scan cs).quoted := rfl
      rw [htoggle, List.count_singleton_self, Nat.odd_add_one, ← ih]
      simp
    · rw [Scan.quoted_step_of_ne _ hc, ih, List.count_singleton, if_neg (by simpa using hc), Nat.add_zero]

theorem isSeparator_iff_scan :
    IsSeparator (cs ++ [c]) cs.length ↔ isBlank c = true ∧ (scan cs).quoted = false := by
  rw [isSeparator_snoc_length, ← Nat.not_odd_iff_even, ← quoted_scan, Bool.not_eq_true]

/-- At a separator the token ends that is being read. -/
theorem scan_snoc_of_separator (hc : IsSeparator (cs ++ [c]) cs.length) :
    scan (cs ++ [c]) = (scan cs).close := by
  obtain ⟨hblank, hquoted⟩ := isSeparator_iff_scan.mp hc
  simp [scan_snoc, Scan.step, ne_quote_of_isBlank hblank, hquoted, hblank]

/-- Any other character belongs to the token that is being read, or starts one. -/
theorem scan_snoc_of_not_separator (hc : ¬ IsSeparator (cs ++ [c]) cs.length) :
    (scan (cs ++ [c])).tokens = (scan cs).tokens ∧
      (scan (cs ++ [c])).current = some ([c].filter (· != '"') ++ (scan cs).current.getD []) := by
  rw [isSeparator_iff_scan] at hc
  rw [scan_snoc, Scan.step]
  by_cases hquote : c = '"'
  · simp [hquote, Scan.toggle]
  · by_cases hquoted : (scan cs).quoted = true
    · simp [hquote, hquoted, Scan.push]
    · have hblank : isBlank c = false := by
        simpa [hquoted] using hc
      simp [hquote, hquoted, hblank, Scan.push]

/-- What has been read: the runs that have ended are tokens, and a run that has not is the token being read. -/
inductive Reads (cs : List Char) (s : Scan) : Prop
  | apart {runs : List (Nat × Nat)} (hruns : IsRuns cs runs) (hapart : EndsApart cs)
      (htokens : s.tokens.reverse = (runs.map (charsOf cs)).map String.ofList) (hcurrent : s.current = none)
  | within {runs : List (Nat × Nat)} {i : Nat} (hruns : IsRuns cs (runs ++ [(i, cs.length)]))
      (htokens : s.tokens.reverse = (runs.map (charsOf cs)).map String.ofList)
      (hcurrent : s.current = some (charsOf cs (i, cs.length)).reverse)

theorem Reads.close {s : Scan} (h : Reads cs s) : ∃ runs, IsRuns cs runs ∧
    s.close.tokens.reverse = (runs.map (charsOf cs)).map String.ofList ∧ s.close.current = none := by
  cases h with
  | @apart runs hruns hapart htokens hcurrent =>
    rw [Scan.close, hcurrent]
    exact ⟨runs, hruns, htokens, hcurrent⟩
  | @within runs i hruns htokens hcurrent =>
    rw [Scan.close, hcurrent]
    exact ⟨runs ++ [(i, cs.length)], hruns, by simp [htokens], rfl⟩

theorem reads_scan (cs : List Char) : Reads cs (scan cs) := by
  induction cs using List.reverseRecOn with
  | nil => exact .apart .nil (.inl rfl) rfl rfl
  | append_singleton cs c ih =>
    have hlength : (cs ++ [c]).length = cs.length + 1 := by simp
    by_cases hc : IsSeparator (cs ++ [c]) cs.length
    · obtain ⟨runs, hruns, htokens, hcurrent⟩ := ih.close
      have hapart : EndsApart (cs ++ [c]) := by
        rw [EndsApart, hlength]
        exact .inr hc
      rw [← scan_snoc_of_separator hc] at htokens hcurrent
      rw [← hruns.map_charsOf_snoc c] at htokens
      exact .apart (hruns.snoc_of_separator hc) hapart htokens hcurrent
    · obtain ⟨hsame, hnext⟩ := scan_snoc_of_not_separator hc
      cases ih with
      | @apart runs hruns hapart htokens hcurrent =>
        rw [← hsame, ← hruns.map_charsOf_snoc c] at htokens
        refine .within (i := cs.length) ?_ htokens ?_
        · rw [hlength]
          exact hruns.snoc_of_apart hapart hc
        · rw [hnext, hcurrent, hlength, charsOf_snoc_length (Nat.le_refl _)]
          by_cases hquote : c = '"' <;> simp [charsOf, hquote]
      | @within runs i hruns htokens hcurrent =>
        have hmap := hruns.map_charsOf_snoc c
        rw [List.map_append, List.map_append] at hmap
        rw [← hsame, ← List.append_inj_left' hmap rfl] at htokens
        have hrun : IsRun cs i cs.length := (hruns.mem_iff i cs.length).mp (by simp)
        refine .within (i := i) ?_ htokens ?_
        · rw [hlength]
          exact hruns.snoc_of_open hc
        · rw [hnext, hcurrent, hlength, charsOf_snoc_length (Nat.le_of_lt hrun.lt)]
          by_cases hquote : c = '"' <;> simp [hquote]

theorem kept_snoc (cs : List Char) (c : Char) :
    kept (cs ++ [c]) =
      kept cs ++ if IsSeparator (cs ++ [c]) cs.length then [] else [c].filter (· != '"') := by
  have hbefore : (cs.zipIdx.filter fun e => e.1 != '"' && !IsSeparator (cs ++ [c]) e.2) =
      cs.zipIdx.filter fun e => e.1 != '"' && !IsSeparator cs e.2 := by
    refine List.filter_congr fun e he => ?_
    simp only [isSeparator_snoc_of_lt (List.snd_lt_of_mem_zipIdx he)]
  rw [kept, kept, List.zipIdx_append, List.filter_append, List.map_append, hbefore]
  by_cases hc : IsSeparator (cs ++ [c]) cs.length
  · simp [hc]
  · by_cases hquote : c = '"' <;> simp [hc, hquote]

/-- Nothing but separators and double quotes is passed over. -/
theorem kept_eq_scan (cs : List Char) :
    (scan cs).tokens.reverse.flatMap String.toList ++ ((scan cs).current.getD []).reverse = kept cs := by
  induction cs using List.reverseRecOn with
  | nil => rfl
  | append_singleton cs c ih =>
    rw [kept_snoc, ← ih]
    split
    case isTrue hc =>
      rw [scan_snoc_of_separator hc, Scan.close]
      cases hcurrent : (scan cs).current <;> simp [hcurrent]
    case isFalse hc =>
      obtain ⟨hsame, hnext⟩ := scan_snoc_of_not_separator hc
      rw [hsame, hnext]
      by_cases hquote : c = '"' <;> simp [hquote]

theorem not_mem_kept (cs : List Char) : '"' ∉ kept cs := by
  intro hmem
  obtain ⟨e, he, hquote⟩ := List.mem_map.mp hmem
  have hne := (List.mem_filter.mp he).2
  simp [hquote] at hne

theorem tokens_of_even {line : String} (heven : Even (line.toList.count '"')) :
    tokens line = .ok (scan line.toList).close.tokens.reverse := by
  rw [← Nat.not_odd_iff_even, ← quoted_scan] at heven
  rw [tokens, Scan.finish, if_neg heven]

theorem tokens_eq_error_iff {line : String} :
    tokens line = .error .unterminatedQuote ↔ Odd (line.toList.count '"') := by
  rw [tokens, Scan.finish, ← quoted_scan]
  split <;> simp_all

/-- A line whose last double quote opens a quotation is refused, and only such a line is: one with an odd number
of double quotes. The tokens of any other line are its runs, in their order and without their double quotes, where
a run is a longest stretch without a separator. No token has a double quote, and the characters of all tokens are
those of the line that are neither separators nor double quotes, in the order of the line. -/
theorem tokens_are_runs (line : String) :
    (tokens line = .error .unterminatedQuote ↔ Odd (line.toList.count '"')) ∧
    (Even (line.toList.count '"') → ∃ runs, IsRuns line.toList runs ∧
      tokens line = .ok ((runs.map (charsOf line.toList)).map String.ofList)) ∧
    ∀ ts, tokens line = .ok ts →
      (∀ t ∈ ts, '"' ∉ t.toList) ∧ ts.flatMap String.toList = kept line.toList := by
  refine ⟨tokens_eq_error_iff, fun heven => ?_, fun ts hts => ?_⟩
  · obtain ⟨runs, hruns, htokens, -⟩ := (reads_scan line.toList).close
    refine ⟨runs, hruns, ?_⟩
    rw [tokens_of_even heven, htokens]
  · have heven : Even (line.toList.count '"') := by
      rw [← Nat.not_odd_iff_even, ← tokens_eq_error_iff, hts]
      simp
    have hkept : ts.flatMap String.toList = kept line.toList := by
      rw [tokens_of_even heven, Except.ok.injEq] at hts
      rw [← hts, ← kept_eq_scan, Scan.close]
      cases (scan line.toList).current <;> simp
    refine ⟨fun t ht hquote => not_mem_kept line.toList ?_, hkept⟩
    rw [← hkept]
    exact List.mem_flatMap.mpr ⟨t, ht, hquote⟩

theorem tokens_are_runs_joined :
    let line := "a \"\"\tb\"c  d\"e\"\" "
    Even (line.toList.count '"') ∧
      ∃ runs, IsRuns line.toList runs ∧
        tokens line = .ok ((runs.map (charsOf line.toList)).map String.ofList) ∧
        (runs.map (charsOf line.toList)).map String.ofList = ["a", "", "bc  de"] := by
  intro line
  have heven : Even (line.toList.count '"') := by decide
  have htokens : tokens line = .ok ["a", "", "bc  de"] := by decide
  obtain ⟨runs, hruns, hrun⟩ := (tokens_are_runs line).2.1 heven
  exact ⟨heven, runs, hruns, hrun, Except.ok.inj (hrun.symm.trans htokens)⟩

end CacheServer.Line
