import CacheServer.Proofs.Reply.Forward

/-!
Arrays that announce more elements than can be addressed. They are the only bytes at which the reading of replies
breaks down; at all others it ends with a reply or with an error, and always within the bytes.
-/

namespace CacheServer.Reply

open Text

variable {α β : Type} {bytes : List UInt8}

/-- An array stands in front whose count is a number, but of more elements than can be addressed. -/
def Overcounts (bytes : List UInt8) : Prop :=
  ∃ count n rest, Decimal.Unsigned count n ∧ n ≤ maxCount ∧ addressLimit < elementSize * n ∧
    bytes = lineOf .arrayStart count ++ rest

/-- The reading has broken down. -/
def Outcome.Fatal (o : Outcome α) : Prop :=
  o.1 = .error .countTooLarge

/-- A reader that breaks down at no bytes. -/
def Harmless (reader : List UInt8 → Outcome α) : Prop :=
  ∀ bytes, ¬ (reader bytes).Fatal

/-- Of two steps it is the first that breaks down, or the second where the first has ended. -/
theorem Outcome.fatal_next_iff {o : Outcome α} {g : α → List UInt8 → Outcome β} :
    (o.next g).Fatal ↔ o.Fatal ∨ ∃ a left, o = (.ok a, left) ∧ (g a left).Fatal := by
  rcases o with ⟨e | a, left⟩
  · simp [Outcome.next, Fatal]
  · simp [Outcome.next, Fatal]

theorem Harmless.next {f : List UInt8 → Outcome α} {g : α → List UInt8 → Outcome β} (hf : Harmless f)
    (hg : ∀ a, Harmless (g a)) : Harmless fun bytes => (f bytes).next g := by
  intro bytes hfatal
  obtain hfirst | ⟨a, left, -, hsecond⟩ := Outcome.fatal_next_iff.mp hfatal
  · exact hf bytes hfirst
  · exact hg a left hsecond

theorem harmless_ok (a : α) : Harmless fun bytes => (.ok a, bytes) :=
  nofun

theorem harmless_readSigil : Harmless readSigil := by
  intro bytes
  unfold readSigil
  repeat' split
  all_goals nofun

theorem harmless_readLine : Harmless readLine := by
  intro bytes
  unfold readLine
  repeat' split
  all_goals nofun

theorem harmless_readLineOf (sigil : Sigil) : Harmless (readLineOf sigil) := by
  refine harmless_readSigil.next fun found => ?_
  split
  · exact harmless_readLine
  · nofun

theorem harmless_readInteger : Harmless readInteger := by
  refine harmless_readLine.next fun s => ?_
  split <;> nofun

theorem harmless_readElements (n : Nat) (elements : List String) : Harmless (readElements n elements) := by
  induction n generalizing elements with
  | zero => exact harmless_ok _
  | succ n ih =>
    rw [funext (readElements_succ n elements)]
    exact (harmless_readLineOf .element).next fun s => ih (s :: elements)

theorem fatal_readCount_iff :
    (readCount bytes).Fatal ↔
      ∃ count n rest, Decimal.Unsigned count n ∧ n ≤ maxCount ∧ addressLimit < elementSize * n ∧
        bytes = ended count ++ rest := by
  rw [readCount, Outcome.fatal_next_iff, or_iff_right (harmless_readLine bytes)]
  constructor
  · rintro ⟨s, left, hline, hfatal⟩
    obtain ⟨-, rfl⟩ := readLine_eq_ok_iff.mp hline
    split at hfatal
    case h_1 => cases hfatal
    case h_2 n hcount =>
      obtain ⟨hs, hn⟩ := Decimal.nat?_eq_some_iff.mp hcount
      split at hfatal
      case isTrue => cases hfatal
      case isFalse hlarge => exact ⟨s, n, left, hs, hn, by omega, rfl⟩
  · rintro ⟨count, n, rest, hcount, hn, hlarge, rfl⟩
    refine ⟨count, rest, readLine_eq_ok_iff.mpr ⟨hcount.not_hasLineBreak, rfl⟩, ?_⟩
    rw [Decimal.nat?_eq_some_iff.mpr ⟨hcount, hn⟩]
    dsimp only
    rw [if_neg (by omega), Outcome.Fatal]

/-- After the count of an array nothing breaks down. -/
theorem fatal_readArray_iff : (readArray bytes).Fatal ↔ (readCount bytes).Fatal := by
  rw [readArray, Outcome.fatal_next_iff]
  refine or_iff_left ?_
  rintro ⟨n, left, -, hfatal⟩
  have helements := (harmless_readElements n []).next fun elements =>
    (harmless_readLineOf .arrayEnd).next fun _ => harmless_ok (Reply.array elements)
  exact helements left hfatal

theorem fatal_read_iff : (read bytes).Fatal ↔ Overcounts bytes := by
  rw [read, Outcome.fatal_next_iff, or_iff_right (harmless_readSigil bytes)]
  constructor
  · rintro ⟨sigil, left, hsigil, hfatal⟩
    obtain rfl := readSigil_eq_ok_iff.mp hsigil
    cases sigil with
    | text => exact absurd hfatal (harmless_readLine.next (fun s => harmless_ok _) left)
    | error => exact absurd hfatal (harmless_readLine.next (fun s => harmless_ok _) left)
    | integer => exact absurd hfatal (harmless_readInteger.next (fun i => harmless_ok _) left)
    | arrayStart =>
      obtain ⟨count, n, rest, hcount, hn, hlarge, rfl⟩ :=
        fatal_readCount_iff.mp (fatal_readArray_iff.mp hfatal)
      exact ⟨count, n, rest, hcount, hn, hlarge, rfl⟩
    | element => cases hfatal
    | arrayEnd => cases hfatal
  · rintro ⟨count, n, rest, hcount, hn, hlarge, rfl⟩
    refine ⟨.arrayStart, ended count ++ rest, readSigil_byte_cons .arrayStart _, ?_⟩
    exact fatal_readArray_iff.mpr (fatal_readCount_iff.mpr ⟨count, n, rest, hcount, hn, hlarge, rfl⟩)

/-- From any place of the bytes the reading ends, at that place or a later one of the bytes, with a reply or an
error. It breaks down if and only if an array stands there that announces more elements than can be addressed. -/
theorem read_breaks_iff_overcounts (bytes : List UInt8) {start : Nat} (hstart : start ≤ bytes.length) :
    ∃ result stop, read (bytes.drop start) = (result, bytes.drop stop) ∧ start ≤ stop ∧ stop ≤ bytes.length ∧
      (result = .error .countTooLarge ↔ Overcounts (bytes.drop start)) := by
  rcases hread : read (bytes.drop start) with ⟨result, left⟩
  have hsuffix := forward_read.suffix hread
  have hlength := hsuffix.length_le
  rw [List.length_drop] at hlength
  have hleft := List.suffix_iff_eq_drop.mp (hsuffix.trans (List.drop_suffix start bytes))
  refine ⟨result, bytes.length - left.length, by rw [← hleft], by omega, Nat.sub_le _ _, ?_⟩
  rw [← fatal_read_iff, hread, Outcome.Fatal]

/-- The largest count that is not fatal: the reading goes on and misses the elements. -/
theorem read_breaks_iff_overcounts_limit :
    let bytes := "?[384307168202282325\r\n".toUTF8.data.toList
    1 ≤ bytes.length ∧ read (bytes.drop 1) = (.error .incomplete, []) ∧ ¬ Overcounts (bytes.drop 1) := by
  intro bytes
  have hstart : 1 ≤ bytes.length := by decide +kernel
  have hvalue : read (bytes.drop 1) = (.error .incomplete, []) := by decide +kernel
  obtain ⟨result, stop, hread, -, -, hfatal⟩ := read_breaks_iff_overcounts bytes hstart
  obtain rfl : .error .incomplete = result := congrArg Prod.fst (hvalue.symm.trans hread)
  exact ⟨hstart, hvalue, fun hover => nomatch hfatal.mpr hover⟩

/-- The next count is fatal, though the bytes only end too early. -/
theorem read_breaks_after_count :
    read "[384307168202282326\r\n".toUTF8.data.toList = (.error .countTooLarge, []) := by
  decide +kernel

end CacheServer.Reply
