import CacheServer.Text.Decimal
import Mathlib.Data.List.Infix

/-!
Line breaks: CR LF inside a text, and inside the bytes that encode it. Only ASCII characters encode to
bytes below 0x80, so that the bytes break where the text does.
-/

namespace CacheServer.Text

section Pair

variable {α : Type} {a b : α} {l l' : List α}

/-- A pair does not start in a list without its first element. -/
theorem pair_infix_append_left (ha : a ∉ l) : [a, b] <:+: l ++ l' ↔ [a, b] <:+: l' := by
  induction l with
  | nil => rfl
  | cons c l ih =>
    obtain ⟨hne, ha⟩ : a ≠ c ∧ a ∉ l := by simpa using ha
    rw [List.cons_append, List.infix_cons_iff, ih ha, List.cons_prefix_cons]
    simp [hne]

/-- A pair does not end in a list without its second element. -/
theorem pair_infix_append_right (hb : b ∉ l') : [a, b] <:+: l ++ l' ↔ [a, b] <:+: l := by
  induction l with
  | nil =>
    constructor
    · intro hpair
      exact absurd (hpair.subset (by simp)) hb
    · intro hpair
      simpa using hpair.length_le
  | cons c l ih =>
    rw [List.cons_append, List.infix_cons_iff, List.infix_cons_iff, ih, List.cons_prefix_cons,
      List.cons_prefix_cons]
    refine or_congr (and_congr_right fun _ => ?_) Iff.rfl
    cases l with
    | nil =>
      constructor
      · intro hpair
        exact absurd (hpair.subset (by simp)) hb
      · intro hpair
        simpa using hpair.length_le
    | cons d l => simp

/-- A list that holds a pair can be cut at the first one. -/
theorem exists_first_pair (hpair : [a, b] <:+: l) :
    ∃ before after, l = before ++ a :: b :: after ∧ ¬ [a, b] <:+: before := by
  induction l with
  | nil => simpa using hpair.length_le
  | cons c l ih =>
    by_cases hfront : [a, b] <+: c :: l
    · obtain ⟨after, hafter⟩ := hfront
      exact ⟨[], after, hafter.symm, fun h => by simpa using h.length_le⟩
    · obtain ⟨before, after, rfl, hbefore⟩ := ih ((List.infix_cons_iff.mp hpair).resolve_left hfront)
      refine ⟨c :: before, after, rfl, ?_⟩
      rw [List.infix_cons_iff]
      rintro (h | h)
      · exact hfront (h.trans (List.prefix_append (c :: before) (a :: b :: after)))
      · exact hbefore h

end Pair

/-- A line break stands somewhere in the text. -/
def HasLineBreak (s : String) : Prop :=
  ['\r', '\n'] <:+: s.toList

instance (s : String) : Decidable (HasLineBreak s) :=
  inferInstanceAs (Decidable (['\r', '\n'] <:+: s.toList))

theorem hasLineBreak_append_left {s t : String} (hs : '\r' ∉ s.toList) :
    HasLineBreak (s ++ t) ↔ HasLineBreak t := by
  rw [HasLineBreak, String.toList_append, pair_infix_append_left hs, HasLineBreak]

theorem hasLineBreak_append_right {s t : String} (ht : '\n' ∉ t.toList) :
    HasLineBreak (s ++ t) ↔ HasLineBreak s := by
  rw [HasLineBreak, String.toList_append, pair_infix_append_right ht, HasLineBreak]

theorem not_hasLineBreak {s : String} (hs : '\r' ∉ s.toList) : ¬ HasLineBreak s :=
  fun h => hs (h.subset (by simp))

theorem isDigit_of_mem_digits {n : Nat} {c : Char} (hc : c ∈ Decimal.digits n) : c.isDigit := by
  have hdigit : ∀ d < 10, (Decimal.digitChar d).isDigit := by decide
  fun_induction Decimal.digits n with
  | case1 n hn =>
    rw [List.mem_singleton.mp hc]
    exact hdigit n hn
  | case2 n hn ih =>
    rcases List.mem_append.mp hc with hc | hc
    · exact ih hc
    · rw [List.mem_singleton.mp hc]
      exact hdigit _ (Nat.mod_lt n (by decide))

theorem not_mem_ofNat {n : Nat} {c : Char} (hc : c.isDigit = false) :
    c ∉ (Decimal.ofNat n).toList := by
  rw [Decimal.ofNat, String.toList_ofList]
  intro hmem
  rw [isDigit_of_mem_digits hmem] at hc
  cases hc

def bytesOf (cs : List Char) : List UInt8 :=
  cs.flatMap String.utf8EncodeChar

theorem toList_toUTF8 (s : String) : s.toUTF8.data.toList = bytesOf s.toList := by
  conv_lhs => rw [← String.ofList_toList (s := s)]
  rw [String.toUTF8_eq_toByteArray, String.toByteArray_ofList, List.utf8Encode,
    List.toList_data_toByteArray]
  rfl

/-- The bytes of a text decode to it. -/
theorem fromUTF8?_bytesOf (cs : List Char) :
    String.fromUTF8? (bytesOf cs).toByteArray = some (String.ofList cs) := by
  have hvalid : (bytesOf cs).toByteArray.IsValidUTF8 := ByteArray.isValidUTF8_utf8Encode
  rw [String.fromUTF8?, dif_pos hvalid, Option.some.injEq, ← String.toByteArray_inj,
    String.toByteArray_ofList]
  rfl

/-- Bytes that decode to a text are the bytes of the text. -/
theorem bytesOf_of_fromUTF8? {bytes : List UInt8} {s : String}
    (hs : String.fromUTF8? bytes.toByteArray = some s) : bytesOf s.toList = bytes := by
  rw [String.fromUTF8?] at hs
  split at hs
  case isTrue hvalid =>
    obtain rfl := Option.some.inj hs
    rw [← toList_toUTF8]
    exact List.toList_data_toByteArray
  case isFalse => cases hs

/-- A character beyond ASCII encodes to bytes beyond ASCII. -/
theorem le_of_mem_utf8EncodeChar {c : Char} (hc : c.utf8Size ≠ 1) {x : UInt8}
    (hx : x ∈ String.utf8EncodeChar c) : 0x80 ≤ x := by
  have hor (y z : UInt8) (hz : 0x80 ≤ z) : 0x80 ≤ y ||| z := by
    rw [UInt8.le_iff_toNat_le] at hz ⊢
    rw [UInt8.toNat_or]
    exact hz.trans Nat.right_le_or
  rcases c.utf8Size_eq with h | h | h | h
  · exact absurd h hc
  · rw [String.utf8EncodeChar_eq_cons_cons h] at hx
    simp only [List.mem_cons, List.not_mem_nil, or_false] at hx
    rcases hx with rfl | rfl <;> exact hor _ _ (by decide)
  · rw [String.utf8EncodeChar_eq_cons_cons_cons h] at hx
    simp only [List.mem_cons, List.not_mem_nil, or_false] at hx
    rcases hx with rfl | rfl | rfl <;> exact hor _ _ (by decide)
  · rw [String.utf8EncodeChar_eq_cons_cons_cons_cons h] at hx
    simp only [List.mem_cons, List.not_mem_nil, or_false] at hx
    rcases hx with rfl | rfl | rfl | rfl <;> exact hor _ _ (by decide)

/-- A byte of ASCII at the front is the first character by itself. -/
theorem eq_of_utf8EncodeChar_append {c : Char} {x : UInt8} {l l' : List UInt8} (hx : x < 0x80)
    (heq : String.utf8EncodeChar c ++ l = x :: l') : c = Char.ofNat x.toNat ∧ l = l' := by
  by_cases hc : c.utf8Size = 1
  · rw [String.utf8EncodeChar_eq_singleton hc] at heq
    obtain ⟨rfl, rfl⟩ := List.cons.inj heq
    have hle : c.val.toNat ≤ 127 := by
      simpa [Char.utf8Size_eq_one_iff, UInt32.le_iff_toNat_le] using hc
    have hval : c.val.toUInt8.toNat = c.toNat := by
      rw [UInt32.toNat_toUInt8]
      exact Nat.mod_eq_of_lt (by omega)
    exact ⟨by rw [hval, Char.ofNat_toNat], rfl⟩
  · exfalso
    have hne := String.utf8EncodeChar_ne_nil (c := c)
    obtain ⟨y, rest, hy⟩ := List.exists_cons_of_ne_nil hne
    rw [hy] at heq
    obtain ⟨rfl, -⟩ := List.cons.inj heq
    have hle : 0x80 ≤ y := le_of_mem_utf8EncodeChar hc (by simp [hy])
    rw [UInt8.le_iff_toNat_le] at hle
    rw [UInt8.lt_iff_toNat_lt] at hx
    omega

/-- The bytes of a text break only where the text does. -/
theorem pair_infix_of_bytesOf {cs : List Char} (hpair : [0x0D, 0x0A] <:+: bytesOf cs) :
    ['\r', '\n'] <:+: cs := by
  induction cs with
  | nil => simpa [bytesOf] using hpair.length_le
  | cons c cs ih =>
    have hbytes : bytesOf (c :: cs) = String.utf8EncodeChar c ++ bytesOf cs := List.flatMap_cons
    rw [hbytes] at hpair
    by_cases hfront : [0x0D, 0x0A] <+: String.utf8EncodeChar c ++ bytesOf cs
    · -- The text starts with the two characters, since it starts with their bytes.
      obtain ⟨rest, hrest⟩ := hfront
      obtain ⟨rfl, hcs⟩ := eq_of_utf8EncodeChar_append (by decide) hrest.symm
      cases cs with
      | nil => cases hcs
      | cons d cs =>
        obtain ⟨rfl, -⟩ := eq_of_utf8EncodeChar_append (by decide) hcs
        exact List.infix_iff_prefix_suffix.mpr ⟨_, List.prefix_append _ cs, List.suffix_rfl⟩
    · apply List.infix_cons
      apply ih
      by_cases hc : c.utf8Size = 1
      · rw [String.utf8EncodeChar_eq_singleton hc] at hpair hfront
        exact (List.infix_cons_iff.mp hpair).resolve_left hfront
      · rwa [pair_infix_append_left] at hpair
        intro hmem
        exact absurd (le_of_mem_utf8EncodeChar hc hmem) (by decide)

/-- And they do where the text does. -/
theorem pair_infix_bytesOf {cs : List Char} (hpair : ['\r', '\n'] <:+: cs) :
    [0x0D, 0x0A] <:+: bytesOf cs := by
  obtain ⟨before, after, rfl⟩ := hpair
  refine ⟨bytesOf before, bytesOf after, ?_⟩
  simp only [bytesOf, List.flatMap_append]
  rfl

end CacheServer.Text
