import CacheServer.Framing

/-!
One message. Its header tells the length of the payload, so that the payload reads back and what
follows it is left. A message without payload can be written, but its header is refused.
-/

namespace CacheServer.Framing

variable {f : Framing} {buffer rest payload bytes : ByteArray} {n : Nat} {version : UInt8}

/-- The header and the payload of a message. -/
def message (f : Framing) (payload : ByteArray) : ByteArray :=
  lengthBytes payload.size ++ ⟨#[f.version]⟩ ++ payload

theorem size_message (f : Framing) (payload : ByteArray) :
    (f.message payload).size = headerSize + payload.size := by
  rw [message, ByteArray.size_append, ByteArray.size_append]
  rfl

/-- A message starts with its header. -/
theorem message_append (f : Framing) (payload rest : ByteArray) :
    f.message payload ++ rest =
      ⟨#[(payload.size / 16777216).toUInt8, (payload.size / 65536).toUInt8,
        (payload.size / 256).toUInt8, payload.size.toUInt8, f.version]⟩ ++ (payload ++ rest) := by
  rw [message, ByteArray.append_assoc]
  rfl

theorem encode_eq_ok_iff :
    f.encode payload = .ok bytes ↔ payload.size ≤ maxPayload ∧ bytes = f.message payload := by
  rw [encode]
  split
  case isTrue hle => simp [hle, message, eq_comm]
  case isFalse hle => simp [hle]

/-- Numbers below `2 ^ 31` are the same with a sign as without. -/
theorem bmod_eq_self (hn : n < 2147483648) : Int.bmod n 4294967296 = n := by
  rw [Int.bmod_def]
  split <;> omega

theorem lengthOfBytes_eq (hn : n < 2147483648) :
    lengthOfBytes (n / 16777216).toUInt8 (n / 65536).toUInt8 (n / 256).toUInt8 n.toUInt8 = n := by
  have hvalue : (((n / 16777216).toUInt8.toNat * 256 + (n / 65536).toUInt8.toNat) * 256 +
      (n / 256).toUInt8.toNat) * 256 + n.toUInt8.toNat = n := by
    simp only [Nat.toUInt8, UInt8.toNat_ofNat']
    omega
  unfold lengthOfBytes
  rw [hvalue, bmod_eq_self hn]

/-- A length is written as the bytes it has been read from. -/
theorem lengthBytes_eq {a b c d : UInt8} (hn : lengthOfBytes a b c d = n) :
    lengthBytes n = ⟨#[a, b, c, d]⟩ := by
  have ha := a.toNat_lt
  have hb := b.toNat_lt
  have hc := c.toNat_lt
  have hd := d.toNat_lt
  have hvalue : ((a.toNat * 256 + b.toNat) * 256 + c.toNat) * 256 + d.toNat = n := by
    unfold lengthOfBytes at hn
    rw [Int.bmod_def] at hn
    split at hn <;> omega
  have hbytes : (n / 16777216).toUInt8 = a ∧ (n / 65536).toUInt8 = b ∧ (n / 256).toUInt8 = c ∧
      n.toUInt8 = d := by
    simp only [Nat.toUInt8, ← UInt8.toNat_inj, UInt8.toNat_ofNat']
    omega
  rw [lengthBytes, hbytes.1, hbytes.2.1, hbytes.2.2.1, hbytes.2.2.2]

/-- A buffer holds less than a header, or a header and what follows it. -/
theorem size_lt_or_exists_header (buffer : ByteArray) :
    buffer.size < headerSize ∨
      ∃ a b c d version tail, buffer = ⟨#[a, b, c, d, version]⟩ ++ tail := by
  rcases buffer with ⟨⟨_ | ⟨a, _ | ⟨b, _ | ⟨c, _ | ⟨d, _ | ⟨version, tail⟩⟩⟩⟩⟩⟩⟩
  case cons.cons.cons.cons.cons =>
    refine .inr ⟨a, b, c, d, version, ⟨⟨tail⟩⟩, ?_⟩
    apply ByteArray.ext
    apply Array.ext'
    simp
  all_goals exact .inl (by simp [ByteArray.size, headerSize])

theorem decode_of_size_lt (hsize : buffer.size < headerSize) :
    f.decode buffer = (.ok none, buffer) := by
  rw [decode, header?, dif_neg (by omega)]

/-- What is wrong with a header. -/
def headerFault? (f : Framing) (length : Int) (version : UInt8) : Option FramingError :=
  if version ≠ f.version then some (.unsupportedVersion f.version version)
  else if length ≤ 0 then some (.invalidLength length)
  else if maxPayload < length.toNat then some (.messageTooLarge length.toNat)
  else none

theorem headerFault?_eq_none_iff {length : Int} :
    f.headerFault? length version = none ↔
      version = f.version ∧ ∃ n : Nat, length = n ∧ 1 ≤ n ∧ n ≤ maxPayload := by
  constructor
  · intro hnone
    rw [headerFault?] at hnone
    repeat' split at hnone
    case isFalse.isFalse.isFalse hversion hpos hle =>
      exact ⟨by simpa using hversion, length.toNat, by omega, by omega, by omega⟩
    all_goals cases hnone
  · rintro ⟨rfl, n, rfl, hpos, hle⟩
    rw [headerFault?, if_neg (not_not_intro rfl), if_neg (by omega), Int.toNat_natCast,
      if_neg (by omega)]

/-- A header is judged by itself. How many bytes follow it matters only if nothing is wrong with it.
-/
theorem decode_header_append (f : Framing) (a b c d version : UInt8) (tail : ByteArray) :
    f.decode (⟨#[a, b, c, d, version]⟩ ++ tail) =
      match f.headerFault? (lengthOfBytes a b c d) version with
      | some e => (.error e, ⟨#[a, b, c, d, version]⟩ ++ tail)
      | none =>
        let n := (lengthOfBytes a b c d).toNat
        if tail.size < n then (.ok none, ⟨#[a, b, c, d, version]⟩ ++ tail)
        else (.ok (some (tail.extract 0 n)), tail.extract n tail.size) := by
  have hheader : header? (⟨#[a, b, c, d, version]⟩ ++ tail) =
      some (lengthOfBytes a b c d, version) := by
    have hsize : headerSize ≤ (⟨#[a, b, c, d, version]⟩ ++ tail : ByteArray).size := by
      rw [ByteArray.size_append]
      exact Nat.le_add_right headerSize tail.size
    rw [header?, dif_pos hsize]
    rfl
  generalize lengthOfBytes a b c d = length at *
  have hsize : (⟨#[a, b, c, d, version]⟩ : ByteArray).size = headerSize := rfl
  generalize (⟨#[a, b, c, d, version]⟩ : ByteArray) = header at *
  have hfront (n : Nat) : (header ++ tail).extract headerSize (headerSize + n) = tail.extract 0 n :=
    ByteArray.extract_append_size_add' (i := 0) hsize.symm
  have hback (n : Nat) :
      (header ++ tail).extract (headerSize + n) (headerSize + tail.size) = tail.extract n tail.size :=
    ByteArray.extract_append_size_add' hsize.symm
  rw [decode, hheader, ByteArray.size_append, hsize, headerFault?]
  simp only [hfront, hback, Nat.add_lt_add_iff_left]
  split
  · rfl
  · split
    · rfl
    · split <;> rfl

/-- A message is read from the front of the buffer, and what follows it stays. -/
theorem decode_message_append (hpos : 1 ≤ payload.size) (hle : payload.size ≤ maxPayload)
    (rest : ByteArray) : f.decode (f.message payload ++ rest) = (.ok (some payload), rest) := by
  have hlength := lengthOfBytes_eq (n := payload.size) (by simp only [maxPayload] at hle; omega)
  have hfault : f.headerFault? payload.size f.version = none :=
    headerFault?_eq_none_iff.mpr ⟨rfl, payload.size, rfl, hpos, hle⟩
  have hfull : ¬ payload.size + rest.size < payload.size := by omega
  rw [message_append, decode_header_append, hlength, hfault]
  simp only [Int.toNat_natCast, ByteArray.extract_append_eq_left, ByteArray.extract_append_eq_right,
    ByteArray.size_append]
  rw [if_neg hfull]

/-- A message without payload is refused by its length. -/
theorem decode_message_empty_append (f : Framing) (rest : ByteArray) :
    f.decode (f.message ByteArray.empty ++ rest) =
      (.error (.invalidLength 0), f.message ByteArray.empty ++ rest) := by
  have hlength := lengthOfBytes_eq (n := 0) (by decide)
  have hfault : f.headerFault? 0 f.version = some (.invalidLength 0) := by
    rw [headerFault?, if_neg (not_not_intro rfl), if_pos (Int.le_refl 0)]
  rw [message_append, ByteArray.size_empty, decode_header_append, hlength, Int.natCast_zero, hfault]

/-- A payload is taken only if its message stands at the front of the buffer. -/
theorem eq_message_append_of_decode (h : f.decode buffer = (.ok (some payload), rest)) :
    1 ≤ payload.size ∧ payload.size ≤ maxPayload ∧ buffer = f.message payload ++ rest := by
  rcases size_lt_or_exists_header buffer with hsize | ⟨a, b, c, d, version, tail, rfl⟩
  · rw [decode_of_size_lt hsize] at h
    cases h
  · rw [decode_header_append] at h
    cases hfault : f.headerFault? (lengthOfBytes a b c d) version with
    | some e =>
      rw [hfault] at h
      cases h
    | none =>
      obtain ⟨rfl, n, hlength, hpos, hle⟩ := headerFault?_eq_none_iff.mp hfault
      rw [hfault, hlength] at h
      simp only [Int.toNat_natCast] at h
      split at h
      case isTrue => cases h
      case isFalse hfull =>
        obtain ⟨rfl, rfl⟩ : tail.extract 0 n = payload ∧ tail.extract n tail.size = rest := by
          simpa using h
        have hsize : (tail.extract 0 n).size = n := by
          rw [ByteArray.size_extract]
          omega
        have htail : tail.extract 0 n ++ tail.extract n tail.size = tail := by
          rw [← ByteArray.extract_eq_extract_append_extract n (Nat.zero_le n) (by omega),
            ByteArray.extract_zero_size]
        rw [message, hsize, lengthBytes_eq hlength, ByteArray.append_assoc, htail]
        exact ⟨hpos, hle, rfl⟩

/-- The payloads that can be written are those that are not too long. Each of them is read back from
its message, and what follows the message is left, except that the payload of no bytes is refused.
-/
theorem decode_encode_append (f : Framing) (payload trailing : ByteArray) :
    ((∃ bytes, f.encode payload = .ok bytes) ↔ payload.size ≤ maxPayload) ∧
      ∀ bytes, f.encode payload = .ok bytes →
        f.decode (bytes ++ trailing) =
          if payload.size = 0 then (.error (.invalidLength 0), bytes ++ trailing)
          else (.ok (some payload), trailing) := by
  refine ⟨by simp [encode_eq_ok_iff], ?_⟩
  intro bytes hbytes
  obtain ⟨hle, rfl⟩ := encode_eq_ok_iff.mp hbytes
  split
  case isTrue hempty =>
    rw [ByteArray.size_eq_zero_iff.mp hempty]
    exact decode_message_empty_append f trailing
  case isFalse hne => exact decode_message_append (by omega) hle trailing

theorem decode_encode_append_ping :
    (⟨7⟩ : Framing).encode "PING".toUTF8 = .ok ⟨#[0, 0, 0, 4, 7, 80, 73, 78, 71]⟩ ∧
      (⟨7⟩ : Framing).decode (⟨#[0, 0, 0, 4, 7, 80, 73, 78, 71]⟩ ++ ⟨#[0, 0]⟩) =
        (.ok (some "PING".toUTF8), ⟨#[0, 0]⟩) := by
  have hbytes : (⟨7⟩ : Framing).encode "PING".toUTF8 = .ok ⟨#[0, 0, 0, 4, 7, 80, 73, 78, 71]⟩ := rfl
  exact ⟨hbytes, (decode_encode_append ⟨7⟩ "PING".toUTF8 ⟨#[0, 0]⟩).2 _ hbytes⟩

/-- The payload of no bytes is written, but not read back. -/
theorem decode_encode_empty :
    standard.encode ByteArray.empty = .ok ⟨#[0, 0, 0, 0, 1]⟩ ∧
      standard.decode (⟨#[0, 0, 0, 0, 1]⟩ ++ ByteArray.empty) =
        (.error (.invalidLength 0), ⟨#[0, 0, 0, 0, 1]⟩) :=
  ⟨rfl, decode_message_empty_append standard ByteArray.empty⟩

theorem decode_eq_some_iff :
    f.decode buffer = (.ok (some payload), rest) ↔
      1 ≤ payload.size ∧ payload.size ≤ maxPayload ∧ buffer = f.message payload ++ rest := by
  constructor
  · exact eq_message_append_of_decode
  · rintro ⟨hpos, hle, rfl⟩
    exact decode_message_append hpos hle rest

/-- A header with another version is refused, and the buffer stays as it is. -/
theorem decode_of_version_ne (hversion : buffer[4]? = some version) (hne : version ≠ f.version) :
    f.decode buffer = (.error (.unsupportedVersion f.version version), buffer) := by
  obtain ⟨hsize, rfl⟩ := getElem?_eq_some_iff.mp hversion
  have hheader : headerSize ≤ buffer.size := hsize
  rw [decode, header?, dif_pos hheader]
  exact if_pos hne

/-- A payload is taken from the buffer, and `rest` is left, if and only if the buffer is what is written for the
payload, followed by `rest`, and the payload is neither empty nor too long. So a buffer holds at most one message
at its front, and none if its header has another version. -/
theorem decode_iff_encode_append (f : Framing) (buffer : ByteArray) :
    (∀ payload rest, f.decode buffer = (.ok (some payload), rest) ↔
      1 ≤ payload.size ∧ payload.size ≤ maxPayload ∧
        ∃ bytes, f.encode payload = .ok bytes ∧ buffer = bytes ++ rest) ∧
    (∀ payload payload' bytes bytes' rest rest', 1 ≤ payload.size → 1 ≤ payload'.size →
      f.encode payload = .ok bytes → buffer = bytes ++ rest →
      f.encode payload' = .ok bytes' → buffer = bytes' ++ rest' → payload = payload' ∧ rest = rest') ∧
    ∀ version, buffer[4]? = some version → version ≠ f.version →
      f.decode buffer = (.error (.unsupportedVersion f.version version), buffer) := by
  refine ⟨fun payload rest => ?_, ?_, fun version => decode_of_version_ne⟩
  · rw [decode_eq_some_iff]
    refine and_congr_right fun _ => and_congr_right fun hle => ?_
    simp [encode_eq_ok_iff, hle]
  · intro payload payload' bytes bytes' rest rest' hpos hpos' hbytes hbuffer hbytes' hbuffer'
    obtain ⟨hle, rfl⟩ := encode_eq_ok_iff.mp hbytes
    obtain ⟨hle', rfl⟩ := encode_eq_ok_iff.mp hbytes'
    have hdecode := decode_eq_some_iff.mpr ⟨hpos, hle, hbuffer⟩
    have hdecode' := decode_eq_some_iff.mpr ⟨hpos', hle', hbuffer'⟩
    simpa using hdecode.symm.trans hdecode'

/-- A message of version 7, and the same bytes for a reader of version 1. -/
theorem decode_iff_encode_append_version :
    let buffer : ByteArray := ⟨#[0, 0, 0, 4, 7, 80, 73, 78, 71, 0, 0]⟩
    (⟨7⟩ : Framing).decode buffer = (.ok (some "PING".toUTF8), ⟨#[0, 0]⟩) ∧
      buffer[4]? = some 7 ∧ (7 : UInt8) ≠ standard.version ∧
      standard.decode buffer = (.error (.unsupportedVersion 1 7), buffer) := by
  intro buffer
  have hbytes : (⟨7⟩ : Framing).encode "PING".toUTF8 = .ok ⟨#[0, 0, 0, 4, 7, 80, 73, 78, 71]⟩ := rfl
  have hversion : buffer[4]? = some 7 := rfl
  have hne : (7 : UInt8) ≠ standard.version := by decide
  have hdecode := ((decode_iff_encode_append ⟨7⟩ buffer).1 "PING".toUTF8 ⟨#[0, 0]⟩).mpr
    ⟨by decide, by decide, _, hbytes, rfl⟩
  exact ⟨hdecode, hversion, hne, (decode_iff_encode_append standard buffer).2.2 7 hversion hne⟩

end CacheServer.Framing
