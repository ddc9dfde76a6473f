import CacheServer.Proofs.Reply.RoundTrip

/-!
Readers and the bytes that are still to come. A reader goes forward: what it leaves is an end of its bytes, and
unless it has run out of them, more bytes behind make no difference to it. So what has been read from a part of
a stream stays as it is, and a part of a reply is never taken for a reply or for an error.
-/

namespace CacheServer.Reply

open Text

variable {α β : Type}

/-- A reader that leaves an end of its bytes, and to which more bytes behind them make no difference unless it asks
for more. -/
structure Forward (reader : List UInt8 → Outcome α) : Prop where
  suffix {bytes left : List UInt8} {result : Except ReadError α} (hread : reader bytes = (result, left)) :
    left <:+ bytes
  append {bytes left : List UInt8} {result : Except ReadError α} (hread : reader bytes = (result, left))
    (hresult : result ≠ .error .incomplete) (more : List UInt8) :
    reader (bytes ++ more) = (result, left ++ more)

/-- A reader that takes nothing. -/
theorem Forward.done (result : Except ReadError α) : Forward fun bytes => (result, bytes) where
  suffix hread := by
    cases hread
    exact List.suffix_rfl
  append hread _ more := by
    cases hread
    rfl

/-- Two readers that go forward go forward one after the other. -/
theorem Forward.next {f : List UInt8 → Outcome α} {g : α → List UInt8 → Outcome β} (hf : Forward f)
    (hg : ∀ a, Forward (g a)) : Forward fun bytes => (f bytes).next g where
  suffix {bytes left result} hread := by
    rcases hfirst : f bytes with ⟨e | a, middle⟩
    all_goals
      rw [hfirst] at hread
    · cases hread
      exact hf.suffix hfirst
    · exact ((hg a).suffix hread).trans (hf.suffix hfirst)
  append {bytes left result} hread hresult more := by
    rcases hfirst : f bytes with ⟨e | a, middle⟩
    all_goals
      rw [hfirst] at hread
    · cases hread
      have he : (.error e : Except ReadError α) ≠ .error .incomplete := by simpa using hresult
      rw [hf.append hfirst he more]
      rfl
    · rw [hf.append hfirst nofun more]
      exact (hg a).append hread hresult more

theorem forward_readSigil : Forward readSigil where
  suffix {bytes left result} hread := by
    cases bytes with
    | nil =>
      cases hread
      exact List.suffix_rfl
    | cons b rest =>
      rw [readSigil] at hread
      split at hread <;> cases hread <;> exact List.suffix_cons _ _
  append {bytes left result} hread hresult more := by
    cases bytes with
    | nil =>
      cases hread
      exact absurd rfl hresult
    | cons b rest =>
      rw [List.cons_append]
      rw [readSigil] at hread ⊢
      split at hread <;> cases hread <;> rfl

/-- A line is not there in full, or it is read by its own bytes, whatever follows its end. -/
theorem readLine_cases (bytes : List UInt8) :
    readLine bytes = (.error .incomplete, bytes) ∨
      ∃ cut left result, bytes = cut ++ 0x0D :: 0x0A :: left ∧
        ∀ more, readLine (cut ++ 0x0D :: 0x0A :: more) = (result, more) := by
  cases hcut : cutLine [] bytes with
  | none => exact .inl (by rw [readLine, hcut])
  | some parts =>
    obtain ⟨line, left⟩ := parts
    obtain ⟨cut, -, rfl, hno⟩ := exists_of_cutLine hcut
    have hcuts (more : List UInt8) : cutLine [] (cut ++ 0x0D :: 0x0A :: more) = some (cut, more) :=
      cutLine_append hno []
    cases htext : String.fromUTF8? cut.toByteArray with
    | none => exact .inr ⟨cut, left, .error .malformed, rfl, fun more => by simp only [readLine, hcuts, htext]⟩
    | some s => exact .inr ⟨cut, left, .ok s, rfl, fun more => by simp only [readLine, hcuts, htext]⟩

theorem forward_readLine : Forward readLine where
  suffix {bytes left result} hread := by
    rcases readLine_cases bytes with hshort | ⟨cut, rest, found, rfl, hline⟩
    · cases hshort.symm.trans hread
      exact List.suffix_rfl
    · cases (hline rest).symm.trans hread
      exact ⟨cut ++ [0x0D, 0x0A], by simp⟩
  append {bytes left result} hread hresult more := by
    rcases readLine_cases bytes with hshort | ⟨cut, rest, found, rfl, hline⟩
    · cases hshort.symm.trans hread
      exact absurd rfl hresult
    · cases (hline rest).symm.trans hread
      rw [List.append_assoc]
      exact hline _

theorem forward_readLineOf (sigil : Sigil) : Forward (readLineOf sigil) := by
  refine forward_readSigil.next fun found => ?_
  split
  · exact forward_readLine
  · exact .done _

theorem forward_readInteger : Forward readInteger := by
  refine forward_readLine.next fun s => ?_
  split <;> exact .done _

theorem forward_readCount : Forward readCount := by
  refine forward_readLine.next fun s => ?_
  split
  · exact .done _
  · split <;> exact .done _

theorem readElements_succ (n : Nat) (elements : List String) (bytes : List UInt8) :
    readElements (n + 1) elements bytes =
      (readLineOf .element bytes).next fun s => readElements n (s :: elements) := by
  rw [readElements]
  rcases readLineOf .element bytes with ⟨e | s, left⟩ <;> rfl

/-- The elements are read one by one, and each of these steps goes forward. -/
theorem forward_readElements (n : Nat) (elements : List String) : Forward (readElements n elements) := by
  induction n generalizing elements with
  | zero => exact .done _
  | succ n ih =>
    rw [funext (readElements_succ n elements)]
    exact (forward_readLineOf .element).next fun s => ih (s :: elements)

theorem forward_readArray : Forward readArray :=
  forward_readCount.next fun n =>
    (forward_readElements n []).next fun _ => (forward_readLineOf .arrayEnd).next fun _ => .done _

theorem forward_read : Forward read := by
  refine forward_readSigil.next fun sigil => ?_
  cases sigil with
  | text => exact forward_readLine.next fun s => .done _
  | error => exact forward_readLine.next fun s => .done _
  | integer => exact forward_readInteger.next fun i => .done _
  | arrayStart => exact forward_readArray
  | element => exact .done _
  | arrayEnd => exact .done _

/-- What is read from a place of the bytes, be it a reply or an error, is read as well when more bytes follow, with
the same bytes taken, unless the bytes ended too early. A plain reply that is cut short always ends too early. -/
theorem read_with_more_bytes :
    (∀ (bytes more : List UInt8) (start : Nat) (result : Except ReadError Reply) (left : List UInt8),
      read (bytes.drop start) = (result, left) → result ≠ .error .incomplete →
        read ((bytes ++ more).drop start) = (result, left ++ more)) ∧
    ∀ (r : Reply) (cut : List UInt8), r.Plain → r.Addressable → cut <+: r.toBytes.data.toList →
      cut ≠ r.toBytes.data.toList → (read cut).1 = .error .incomplete := by
  constructor
  · intro bytes more start result left hread hresult
    by_cases hstart : start ≤ bytes.length
    · rw [List.drop_append_of_le_length hstart]
      exact forward_read.append hread hresult more
    · rw [List.drop_eq_nil_of_le (by omega)] at hread
      cases hread
      exact absurd rfl hresult
  · intro r cut hr hfits hprefix hshort
    obtain ⟨more, hmore⟩ := hprefix
    by_contra hread
    -- What was read from the part would be read from the whole, and the missing bytes would be left.
    have hwhole := forward_read.append (Prod.mk.eta (p := read cut)).symm hread more
    have hreply := hr.read_toBytes hfits []
    rw [List.append_nil, ← hmore, hwhole] at hreply
    have hleft : (read cut).2 ++ more = [] := congrArg Prod.snd hreply
    rw [(List.append_eq_nil_iff.mp hleft).2, List.append_nil] at hmore
    exact hshort hmore

/-- An integer that is none, and an array that is cut inside a character. -/
theorem read_with_more_bytes_cut :
    let bytes := "?!7x\r\n".toUTF8.data.toList
    let r : Reply := .array ["é\r", ""]
    let cut := r.toBytes.data.toList.take 6
    read (bytes.drop 1) = (.error .badNumber, []) ∧
      read ((bytes ++ [0x2B]).drop 1) = (.error .badNumber, [0x2B]) ∧
      r.Plain ∧ r.Addressable ∧ cut <+: r.toBytes.data.toList ∧ cut ≠ r.toBytes.data.toList ∧
      (read cut).1 = .error .incomplete := by
  obtain ⟨hmore, hcut⟩ := read_with_more_bytes
  intro bytes r cut
  have hread : read (bytes.drop 1) = (.error .badNumber, []) := by decide +kernel
  have hplain : r.Plain := by decide
  have hfits : r.Addressable := by decide
  have hprefix : cut <+: r.toBytes.data.toList := List.take_prefix 6 _
  have hshort : cut ≠ r.toBytes.data.toList := by decide +kernel
  exact ⟨hread, hmore bytes [0x2B] 1 _ _ hread nofun, hplain, hfits, hprefix, hshort,
    hcut r cut hplain hfits hprefix hshort⟩

end CacheServer.Reply
