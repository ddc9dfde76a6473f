import CacheServer.Proofs.Reply.Line
import CacheServer.Proofs.Text.Decimal

/-!
The grammar of replies. Each reader takes the bytes of one form from the front and leaves what follows them, and
what it takes has that form. Put together, these are the forms of whole replies: one line, or the lines of an
array. The line that ends an array should have no text, but is taken with any.
-/

namespace CacheServer.Reply

open Text

variable {α β : Type} {bytes rest : List UInt8} {sigil : Sigil} {s : String} {elements : List String} {n : Nat}

/-- What is read in two steps has been read in each of them. -/
theorem Outcome.next_eq_ok_iff {o : Outcome α} {f : α → List UInt8 → Outcome β} {b : β} :
    o.next f = (.ok b, rest) ↔ ∃ a left, o = (.ok a, left) ∧ f a left = (.ok b, rest) := by
  obtain ⟨result, left⟩ := o
  cases result with
  | ok a => simp [Outcome.next]
  | error e => simp [Outcome.next]

theorem readSigil_eq_ok_iff : readSigil bytes = (.ok sigil, rest) ↔ bytes = sigil.byte :: rest := by
  constructor
  · intro hread
    unfold readSigil at hread
    split at hread
    case h_1 => cases hread
    case h_2 b left =>
      split at hread
      case h_1 => cases hread
      case h_2 found hfound =>
        obtain ⟨rfl, rfl⟩ : found = sigil ∧ left = rest := by simpa using hread
        rw [Sigil.byte_of_ofByte? hfound]
  · rintro rfl
    exact readSigil_byte_cons sigil rest

theorem readLineOf_eq_ok_iff :
    readLineOf sigil bytes = (.ok s, rest) ↔ ¬ HasLineBreak s ∧ bytes = lineOf sigil s ++ rest := by
  rw [readLineOf, Outcome.next_eq_ok_iff]
  constructor
  · rintro ⟨found, left, hsigil, hline⟩
    split at hline
    case isTrue hfound =>
      obtain ⟨hs, rfl⟩ := readLine_eq_ok_iff.mp hline
      rw [readSigil_eq_ok_iff.mp hsigil, hfound]
      exact ⟨hs, rfl⟩
    case isFalse => cases hline
  · rintro ⟨hs, rfl⟩
    refine ⟨sigil, ended s ++ rest, readSigil_byte_cons sigil _, ?_⟩
    rw [if_pos rfl]
    exact readLine_eq_ok_iff.mpr ⟨hs, rfl⟩

/-- The elements of an array are lines, as many as there should be. -/
theorem readElements_eq_ok_iff {before : List String} :
    readElements n before bytes = (.ok elements, rest) ↔
      ∃ after, elements = before.reverse ++ after ∧ after.length = n ∧ (∀ s ∈ after, ¬ HasLineBreak s) ∧
        bytes = after.flatMap (lineOf .element) ++ rest := by
  constructor
  · intro hread
    fun_induction readElements n before bytes with
    | case1 before bytes =>
      obtain ⟨rfl, rfl⟩ : before.reverse = elements ∧ bytes = rest := by simpa using hread
      exact ⟨[], by simp, rfl, List.forall_mem_nil _, rfl⟩
    | case2 n before bytes s left hline ih =>
      obtain ⟨after, rfl, hlength, hafter, rfl⟩ := ih hread
      obtain ⟨hs, rfl⟩ := readLineOf_eq_ok_iff.mp hline
      refine ⟨s :: after, by simp, by rw [List.length_cons, hlength], ?_, by simp⟩
      exact List.forall_mem_cons.mpr ⟨hs, hafter⟩
    | case3 n before bytes e left hline => cases hread
  · rintro ⟨after, rfl, rfl, hafter, rfl⟩
    induction after generalizing before with
    | nil => simp [readElements]
    | cons s after ih =>
      obtain ⟨hs, hafter⟩ := List.forall_mem_cons.mp hafter
      have hline := readLineOf_eq_ok_iff.mpr
        ⟨hs, List.append_assoc (lineOf .element s) (after.flatMap (lineOf .element)) rest⟩
      rw [List.flatMap_cons, List.length_cons, readElements, hline]
      dsimp only
      rw [ih hafter]
      simp

theorem readCount_eq_ok_iff :
    readCount bytes = (.ok n, rest) ↔
      ∃ s, Decimal.Unsigned s n ∧ elementSize * n ≤ addressLimit ∧ bytes = ended s ++ rest := by
  rw [readCount, Outcome.next_eq_ok_iff]
  constructor
  · rintro ⟨s, left, hline, hcount⟩
    obtain ⟨-, rfl⟩ := readLine_eq_ok_iff.mp hline
    split at hcount
    case h_1 => cases hcount
    case h_2 count hs =>
      split at hcount
      case isTrue hfits =>
        obtain ⟨rfl, rfl⟩ : count = n ∧ left = rest := by simpa using hcount
        exact ⟨s, (Decimal.nat?_eq_some_iff.mp hs).1, hfits, rfl⟩
      case isFalse => cases hcount
  · rintro ⟨s, hs, hfits, rfl⟩
    have hcount : n ≤ maxCount := by
      rw [elementSize, addressLimit] at hfits
      rw [maxCount]
      omega
    refine ⟨s, rest, readLine_eq_ok_iff.mpr ⟨hs.not_hasLineBreak, rfl⟩, ?_⟩
    rw [Decimal.nat?_eq_some_iff.mpr ⟨hs, hcount⟩]
    dsimp only
    rw [if_pos hfits]

theorem readInteger_eq_ok_iff {i : Int64} :
    readInteger bytes = (.ok i, rest) ↔ ∃ s, Decimal.Signed s i.toInt ∧ bytes = ended s ++ rest := by
  rw [readInteger, Outcome.next_eq_ok_iff]
  constructor
  · rintro ⟨s, left, hline, hinteger⟩
    obtain ⟨-, rfl⟩ := readLine_eq_ok_iff.mp hline
    split at hinteger
    case h_1 => cases hinteger
    case h_2 value hvalue =>
      obtain ⟨rfl, rfl⟩ : Int64.ofInt value = i ∧ left = rest := by simpa using hinteger
      obtain ⟨hs, hlow, hhigh⟩ := Decimal.int?_eq_some_iff.mp hvalue
      rw [minInteger] at hlow
      rw [maxInteger] at hhigh
      refine ⟨s, ?_, rfl⟩
      rwa [Int64.toInt_ofInt_of_le hlow (by omega)]
  · rintro ⟨s, hs, rfl⟩
    have hlow : minInteger ≤ i.toInt := i.le_toInt
    have hhigh : i.toInt ≤ maxInteger := i.toInt_le
    refine ⟨s, rest, readLine_eq_ok_iff.mpr ⟨hs.not_hasLineBreak, rfl⟩, ?_⟩
    rw [Decimal.int?_eq_some_iff.mpr ⟨hs, hlow, hhigh⟩]
    simp

/-- The bytes of an array after its first sigil. The line that ends it may carry any text. -/
theorem readArray_eq_ok_iff {r : Reply} :
    readArray bytes = (.ok r, rest) ↔
      ∃ count elements closing, Decimal.Unsigned count elements.length ∧
        elementSize * elements.length ≤ addressLimit ∧ (∀ s ∈ elements, ¬ HasLineBreak s) ∧
        ¬ HasLineBreak closing ∧ r = .array elements ∧
        bytes = ended count ++ (elements.flatMap (lineOf .element) ++ (lineOf .arrayEnd closing ++ rest)) := by
  constructor
  · intro hread
    obtain ⟨n, left, hreadCount, hread⟩ := Outcome.next_eq_ok_iff.mp hread
    obtain ⟨elements, left, hreadElements, hread⟩ := Outcome.next_eq_ok_iff.mp hread
    obtain ⟨closing, left, hreadEnd, hread⟩ := Outcome.next_eq_ok_iff.mp hread
    obtain ⟨rfl, rfl⟩ : .array elements = r ∧ left = rest := by simpa using hread
    obtain ⟨count, hcount, hfits, rfl⟩ := readCount_eq_ok_iff.mp hreadCount
    obtain ⟨after, hafter, rfl, helements, rfl⟩ := readElements_eq_ok_iff.mp hreadElements
    obtain ⟨hclosing, rfl⟩ := readLineOf_eq_ok_iff.mp hreadEnd
    rw [List.reverse_nil, List.nil_append] at hafter
    subst hafter
    exact ⟨count, elements, closing, hcount, hfits, helements, hclosing, rfl, rfl⟩
  · rintro ⟨count, elements, closing, hcount, hfits, helements, hclosing, rfl, rfl⟩
    apply Outcome.next_eq_ok_iff.mpr
    refine ⟨elements.length, _, readCount_eq_ok_iff.mpr ⟨count, hcount, hfits, rfl⟩, ?_⟩
    apply Outcome.next_eq_ok_iff.mpr
    refine ⟨elements, _, readElements_eq_ok_iff.mpr ⟨elements, rfl, rfl, helements, rfl⟩, ?_⟩
    apply Outcome.next_eq_ok_iff.mpr
    exact ⟨closing, rest, readLineOf_eq_ok_iff.mpr ⟨hclosing, rfl⟩, rfl⟩

/-- The forms in which replies are written, each with the reply that it stands for. `closing` is the text of the
line that ends an array; by the rules of the format it is empty. -/
inductive Denotes (closing : String) : List UInt8 → Reply → Prop
  | text {s : String} (hs : ¬ HasLineBreak s) (hname : s ≠ nilText) :
    Denotes closing (lineOf .text s) (.text s)
  | nil : Denotes closing (lineOf .text nilText) .nil
  | error {s : String} (hs : ¬ HasLineBreak s) : Denotes closing (lineOf .error s) (.error s)
  | integer {s : String} {i : Int64} (hs : Decimal.Signed s i.toInt) :
    Denotes closing (lineOf .integer s) (.integer i)
  | array {count : String} {elements : List String} (hcount : Decimal.Unsigned count elements.length)
    (hfits : elementSize * elements.length ≤ addressLimit) (helements : ∀ s ∈ elements, ¬ HasLineBreak s) :
    Denotes closing
      (lineOf .arrayStart count ++ elements.flatMap (lineOf .element) ++ lineOf .arrayEnd closing)
      (.array elements)

theorem not_hasLineBreak_nilText : ¬ HasLineBreak nilText :=
  not_hasLineBreak (by simp [nilText])

theorem not_hasLineBreak_empty : ¬ HasLineBreak "" :=
  not_hasLineBreak (by simp)

/-- What is read is a reply of which one of the forms stands in front. -/
theorem exists_denotes_of_read {r : Reply} (hread : read bytes = (.ok r, rest)) :
    ∃ closing unit, ¬ HasLineBreak closing ∧ Denotes closing unit r ∧ bytes = unit ++ rest := by
  rw [read, Outcome.next_eq_ok_iff] at hread
  obtain ⟨sigil, left, hsigil, hread⟩ := hread
  obtain rfl := readSigil_eq_ok_iff.mp hsigil
  cases sigil with
  | text =>
    obtain ⟨s, after, hline, hreply⟩ := Outcome.next_eq_ok_iff.mp hread
    obtain ⟨hs, rfl⟩ := readLine_eq_ok_iff.mp hline
    obtain ⟨rfl, rfl⟩ : (if s = nilText then .nil else .text s) = r ∧ after = rest := by simpa using hreply
    refine ⟨"", lineOf .text s, not_hasLineBreak_empty, ?_, rfl⟩
    split
    case isTrue hname =>
      rw [hname]
      exact .nil
    case isFalse hname => exact .text hs hname
  | error =>
    obtain ⟨s, after, hline, hreply⟩ := Outcome.next_eq_ok_iff.mp hread
    obtain ⟨hs, rfl⟩ := readLine_eq_ok_iff.mp hline
    obtain ⟨rfl, rfl⟩ : .error s = r ∧ after = rest := by simpa using hreply
    exact ⟨"", lineOf .error s, not_hasLineBreak_empty, .error hs, rfl⟩
  | integer =>
    obtain ⟨i, after, hinteger, hreply⟩ := Outcome.next_eq_ok_iff.mp hread
    obtain ⟨s, hs, rfl⟩ := readInteger_eq_ok_iff.mp hinteger
    obtain ⟨rfl, rfl⟩ : .integer i = r ∧ after = rest := by simpa using hreply
    exact ⟨"", lineOf .integer s, not_hasLineBreak_empty, .integer hs, rfl⟩
  | arrayStart =>
    obtain ⟨count, elements, closing, hcount, hfits, helements, hclosing, rfl, rfl⟩ :=
      readArray_eq_ok_iff.mp hread
    exact ⟨closing, _, hclosing, .array hcount hfits helements, by simp [lineOf]⟩
  | element => cases hread
  | arrayEnd => cases hread

/-- Each form of a reply is read, whatever stands behind it. -/
theorem Denotes.read_append {r : Reply} {closing : String} {unit : List UInt8}
    (hunit : Denotes closing unit r) (hclosing : ¬ HasLineBreak closing) (rest : List UInt8) :
    read (unit ++ rest) = (.ok r, rest) := by
  rw [read, Outcome.next_eq_ok_iff]
  cases hunit with
  | text hs hname =>
    refine ⟨.text, _, readSigil_byte_cons .text _, ?_⟩
    apply Outcome.next_eq_ok_iff.mpr
    exact ⟨_, _, readLine_eq_ok_iff.mpr ⟨hs, rfl⟩, by rw [if_neg hname]⟩
  | nil =>
    refine ⟨.text, _, readSigil_byte_cons .text _, ?_⟩
    apply Outcome.next_eq_ok_iff.mpr
    exact ⟨_, _, readLine_eq_ok_iff.mpr ⟨not_hasLineBreak_nilText, rfl⟩, rfl⟩
  | error hs =>
    refine ⟨.error, _, readSigil_byte_cons .error _, ?_⟩
    apply Outcome.next_eq_ok_iff.mpr
    exact ⟨_, _, readLine_eq_ok_iff.mpr ⟨hs, rfl⟩, rfl⟩
  | integer hs =>
    refine ⟨.integer, _, readSigil_byte_cons .integer _, ?_⟩
    apply Outcome.next_eq_ok_iff.mpr
    exact ⟨_, _, readInteger_eq_ok_iff.mpr ⟨_, hs, rfl⟩, rfl⟩
  | @array count elements hcount hfits helements =>
    refine ⟨.arrayStart, _, readSigil_byte_cons .arrayStart _, ?_⟩
    apply readArray_eq_ok_iff.mpr
    exact ⟨count, elements, closing, hcount, hfits, helements, hclosing, rfl, by simp⟩

/-- A reply is read if and only if one of its forms stands in front. -/
theorem read_eq_ok_iff {r : Reply} :
    read bytes = (.ok r, rest) ↔
      ∃ closing unit, ¬ HasLineBreak closing ∧ Denotes closing unit r ∧ bytes = unit ++ rest := by
  constructor
  · exact exists_denotes_of_read
  · rintro ⟨closing, unit, hclosing, hunit, rfl⟩
    exact hunit.read_append hclosing rest

/-- A list from one place on is what stands before another place and the list from there on. -/
theorem extract_append_drop (bytes : List UInt8) {start stop : Nat} (hle : start ≤ stop) :
    bytes.extract start stop ++ bytes.drop stop = bytes.drop start := by
  have hdrop : bytes.drop stop = (bytes.drop start).drop (stop - start) := by
    rw [List.drop_drop, Nat.add_sub_cancel' hle]
  rw [List.extract, hdrop, List.take_append_drop]

/-- From a place of the bytes a reply is read, and the bytes from another place on are left, if and only if one of
its forms stands between the two: a line with a text, an error or a decimal integer, or an array with a decimal
count, as many elements, and a line that ends it. The text of that last line is not looked at. -/
theorem read_iff_denotes (bytes : List UInt8) (start : Nat) (r : Reply) (left : List UInt8) :
    read (bytes.drop start) = (.ok r, left) ↔
      ∃ stop closing, start ≤ stop ∧ stop ≤ bytes.length ∧ left = bytes.drop stop ∧
        ¬ HasLineBreak closing ∧ Denotes closing (bytes.extract start stop) r := by
  constructor
  · intro hread
    have hshorter := length_read_lt hread
    obtain ⟨closing, unit, hclosing, hunit, hbytes⟩ := read_eq_ok_iff.mp hread
    have hlength := congrArg List.length hbytes
    rw [List.length_drop, List.length_append] at hlength
    rw [List.length_drop] at hshorter
    refine ⟨start + unit.length, closing, Nat.le_add_right _ _, by omega, ?_, hclosing, ?_⟩
    · rw [← List.drop_drop, hbytes, List.drop_left]
    · rwa [List.extract, Nat.add_sub_cancel_left, hbytes, List.take_left]
  · rintro ⟨stop, closing, hstart, -, rfl, hclosing, hunit⟩
    exact read_eq_ok_iff.mpr ⟨closing, _, hclosing, hunit, (extract_append_drop bytes hstart).symm⟩

/-- An array whose last line has a text, which the rules of the format do not allow. -/
theorem read_closing_text :
    let bytes := "[0\r\n]x\r\n".toUTF8.data.toList
    read bytes = (.ok (.array []), []) ∧ ¬ Denotes "" bytes (.array []) := by
  intro bytes
  refine ⟨by decide +kernel, fun hbytes => ?_⟩
  have hlist : bytes = [0x5B, 0x30, 0x0D, 0x0A, 0x5D, 0x78, 0x0D, 0x0A] := by decide +kernel
  generalize bytes = unit at hbytes hlist
  cases hbytes with
  | array hcount hfits helements =>
    have hlast := congrArg (fun l => l.reverse[2]?) hlist
    simp [lineOf, ended, bytesOf, Sigil.byte] at hlast

end CacheServer.Reply
