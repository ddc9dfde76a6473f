import CacheServer.Proofs.Text.LineBreak
import Mathlib.Data.Nat.Digits.Defs

/-!
Decimal numbers. What is read as a number is a run of digits, with or without a sign in front, whose value is in
the range of the reader. A number that is written is such a run, so that it reads back.
-/

namespace CacheServer.Text.Decimal

variable {n limit : Nat} {i low high : Int} {cs : List Char} {s : String}

/-- Digits that write a number, the most significant first. -/
structure Numeral (cs : List Char) (n : Nat) : Prop where
  ne_nil : cs ≠ []
  isDigit : ∀ c ∈ cs, c.isDigit = true
  value : Nat.ofDigits 10 (cs.map fun c => c.toNat - '0'.toNat).reverse = n

/-- The text of a natural number. A plus sign may stand in front of its digits. -/
inductive Unsigned (s : String) (n : Nat) : Prop
  | bare (hs : Numeral s.toList n)
  | plus {cs : List Char} (hs : s.toList = '+' :: cs) (hcs : Numeral cs n)

/-- The text of an integer. Either sign may stand in front of its digits. -/
inductive Signed (s : String) : Int → Prop
  | ofNat {n : Nat} (hs : Unsigned s n) : Signed s n
  | minus {cs : List Char} {n : Nat} (hs : s.toList = '-' :: cs) (hcs : Numeral cs n) : Signed s (-n)

/-- Digits read from the front have the value of their places. -/
theorem foldl_eq_ofDigits (cs : List Char) :
    cs.foldl (fun n c => 10 * n + (c.toNat - '0'.toNat)) 0 =
      Nat.ofDigits 10 (cs.map fun c => c.toNat - '0'.toNat).reverse := by
  rw [Nat.ofDigits_eq_foldr, List.foldr_reverse, List.foldl_map]
  simp only [Nat.cast_id, Nat.add_comm]

theorem value?_eq_some_iff : value? cs = some n ↔ Numeral cs n := by
  rw [value?, foldl_eq_ofDigits]
  constructor
  · intro hvalue
    split at hvalue
    case isTrue => cases hvalue
    case isFalse hcs =>
      obtain ⟨hne, hdigits⟩ : cs ≠ [] ∧ ∀ c ∈ cs, c.isDigit = true := by simpa using hcs
      exact ⟨hne, hdigits, Option.some.inj hvalue⟩
  · rintro ⟨hne, hdigits, rfl⟩
    rw [if_neg (by simpa using ⟨hne, hdigits⟩)]

theorem Numeral.not_mem {c : Char} (hcs : Numeral cs n) (hc : c.isDigit = false) : c ∉ cs := by
  intro hmem
  rw [hcs.isDigit c hmem] at hc
  cases hc

/-- Digits start with no sign. -/
theorem Numeral.ne_cons {sign : Char} (hcs : Numeral cs n) (hsign : sign.isDigit = false)
    (rest : List Char) : cs ≠ sign :: rest := by
  rintro rfl
  exact hcs.not_mem hsign List.mem_cons_self

theorem nat?_eq_some_iff : nat? limit s = some n ↔ Unsigned s n ∧ n ≤ limit := by
  rw [nat?, Option.filter_eq_some_iff, decide_eq_true_iff, value?_eq_some_iff]
  refine and_congr_left fun _ => ?_
  constructor
  · intro hs
    split at hs
    case h_1 cs hplus => exact .plus hplus hs
    case h_2 => exact .bare hs
  · rintro (hs | ⟨hs, hcs⟩)
    · split
      case h_1 cs hplus => exact absurd hplus (hs.ne_cons rfl cs)
      case h_2 => exact hs
    · rwa [hs]

theorem int?_eq_some_iff : int? low high s = some i ↔ Signed s i ∧ low ≤ i ∧ i ≤ high := by
  rw [int?, Option.filter_eq_some_iff, Bool.and_eq_true, decide_eq_true_iff, decide_eq_true_iff]
  refine and_congr_left fun hrange => ?_
  constructor
  · intro hs
    split at hs
    all_goals
      obtain ⟨n, hn, rfl⟩ := Option.map_eq_some_iff.mp hs
      rw [value?_eq_some_iff] at hn
    case h_1 cs hplus => exact .ofNat (.plus hplus hn)
    case h_2 cs hminus => exact .minus hminus hn
    case h_3 => exact .ofNat (.bare hn)
  · rintro (⟨hs | ⟨hs, hcs⟩⟩ | ⟨hs, hcs⟩)
    · have hvalue := value?_eq_some_iff.mpr hs
      split
      case h_1 cs hplus => exact absurd hplus (hs.ne_cons rfl cs)
      case h_2 cs hminus => exact absurd hminus (hs.ne_cons rfl cs)
      case h_3 => rw [hvalue]; rfl
    · rw [hs]
      exact Option.map_eq_some_iff.mpr ⟨_, value?_eq_some_iff.mpr hcs, rfl⟩
    · rw [hs]
      exact Option.map_eq_some_iff.mpr ⟨_, value?_eq_some_iff.mpr hcs, rfl⟩

theorem numeral_digits (n : Nat) : Numeral (digits n) n where
  ne_nil := by
    rw [digits]
    split <;> simp
  isDigit c hc := isDigit_of_mem_digits hc
  value := by
    have hdigit : ∀ d < 10, (digitChar d).toNat - '0'.toNat = d := by decide
    fun_induction digits n with
    | case1 n hn =>
      rw [List.map_singleton, hdigit n hn, List.reverse_singleton, Nat.ofDigits_singleton]
    | case2 n hn ih =>
      rw [List.map_append, List.reverse_append, List.map_singleton, List.reverse_singleton,
        List.singleton_append, Nat.ofDigits_cons, ih, hdigit _ (Nat.mod_lt n (by decide))]
      exact Nat.mod_add_div n 10

theorem unsigned_ofNat (n : Nat) : Unsigned (ofNat n) n := by
  refine .bare ?_
  rw [ofNat, String.toList_ofList]
  exact numeral_digits n

theorem signed_ofInt (i : Int) : Signed (ofInt i) i := by
  cases i with
  | ofNat n => exact .ofNat (unsigned_ofNat n)
  | negSucc n =>
    have hs : (ofInt (.negSucc n)).toList = '-' :: digits (n + 1) := by rw [ofInt, String.toList_ofList]
    exact .minus hs (numeral_digits (n + 1))

theorem Unsigned.not_hasLineBreak (hs : Unsigned s n) : ¬ HasLineBreak s := by
  apply CacheServer.Text.not_hasLineBreak
  rcases hs with hs | ⟨hs, hcs⟩
  · exact hs.not_mem rfl
  · simpa [hs] using hcs.not_mem rfl

theorem Signed.not_hasLineBreak (hs : Signed s i) : ¬ HasLineBreak s := by
  rcases hs with hs | ⟨hs, hcs⟩
  · exact hs.not_hasLineBreak
  · apply CacheServer.Text.not_hasLineBreak
    simpa [hs] using hcs.not_mem rfl

end CacheServer.Text.Decimal
