import CacheServer.Proofs.Text.LineBreak
import CacheServer.Text.Blank
import CacheServer.Text.Utf8
import Mathlib.Algebra.Group.Nat.Defs

/-!
The bytes that texts take. They add up over the characters, so that no order and no cut of the
characters matters; a number takes a byte for each of its digits.
-/

namespace CacheServer.Text

open Utf8

variable {n k : Nat}

/-- The bytes of characters. -/
def charsSize : List Char → Nat
  | [] => 0
  | c :: cs => c.utf8Size + charsSize cs

@[simp] theorem charsSize_nil : charsSize [] = 0 := rfl

@[simp] theorem charsSize_cons (c : Char) (cs : List Char) :
    charsSize (c :: cs) = c.utf8Size + charsSize cs := rfl

@[simp] theorem charsSize_append (cs cs' : List Char) :
    charsSize (cs ++ cs') = charsSize cs + charsSize cs' := by
  induction cs with
  | nil => simp
  | cons c cs ih => rw [List.cons_append, charsSize_cons, charsSize_cons, ih, Nat.add_assoc]

@[simp] theorem charsSize_reverse (cs : List Char) : charsSize cs.reverse = charsSize cs := by
  induction cs with
  | nil => rfl
  | cons c cs ih =>
    rw [List.reverse_cons, charsSize_append, ih, charsSize_cons, charsSize_cons, charsSize_nil]
    omega

/-- Characters of one byte each. -/
theorem charsSize_eq_length {cs : List Char} (hcs : ∀ c ∈ cs, c.utf8Size = 1) :
    charsSize cs = cs.length := by
  induction cs with
  | nil => rfl
  | cons c cs ih =>
    obtain ⟨hc, hcs⟩ := List.forall_mem_cons.mp hcs
    rw [charsSize_cons, hc, ih hcs, List.length_cons, Nat.add_comm]

theorem length_bytesOf (cs : List Char) : (bytesOf cs).length = charsSize cs := by
  induction cs with
  | nil => rfl
  | cons c cs ih =>
    rw [bytesOf, List.flatMap_cons, List.length_append, String.length_utf8EncodeChar, charsSize_cons,
      ← ih, bytesOf]

theorem utf8ByteSize_eq (s : String) : s.utf8ByteSize = charsSize s.toList := by
  rw [← length_bytesOf, ← toList_toUTF8, Array.length_toList, ByteArray.size_data,
    String.toUTF8_eq_toByteArray, String.size_toByteArray]

theorem utf8ByteSize_ofList (cs : List Char) : (String.ofList cs).utf8ByteSize = charsSize cs := by
  rw [utf8ByteSize_eq, String.toList_ofList]

/-- Characters left out take no bytes. -/
theorem charsSize_le_of_sublist {cs cs' : List Char} (h : cs.Sublist cs') :
    charsSize cs ≤ charsSize cs' := by
  induction h with
  | slnil => exact Nat.le_refl 0
  | cons c h ih => exact Nat.le_trans ih (Nat.le_add_left _ _)
  | cons_cons c h ih => exact Nat.add_le_add_left ih c.utf8Size

theorem utf8ByteSize_trim_le (s : String) : (trim s).utf8ByteSize ≤ s.utf8ByteSize := by
  rw [trim, utf8ByteSize_ofList, utf8ByteSize_eq, trimBlanks, charsSize_reverse]
  refine Nat.le_trans (charsSize_le_of_sublist (List.dropWhile_sublist isBlank)) ?_
  rw [charsSize_reverse]
  exact charsSize_le_of_sublist (List.dropWhile_sublist isBlank)

theorem Utf8.decode_toUTF8 (s : String) : decode s.toUTF8 = .ok s := by
  have hread : String.fromUTF8? s.toUTF8 = some s := dif_pos s.isValidUTF8
  rw [decode, hread]

theorem utf8ByteSize_eq_of_decode {bytes : ByteArray} {s : String} (h : decode bytes = .ok s) :
    s.utf8ByteSize = bytes.size := by
  rw [decode] at h
  split at h
  case h_1 t ht =>
    cases h
    rw [String.fromUTF8?] at ht
    split at ht
    · cases ht
      rfl
    · cases ht
  case h_2 => cases h

theorem length_digits_le (hk : 1 ≤ k) (hn : n < 10 ^ k) : (Decimal.digits n).length ≤ k := by
  induction k, hk using Nat.le_induction generalizing n with
  | base =>
    rw [Decimal.digits, if_pos (by omega)]
    exact Nat.le_refl 1
  | succ k hk ih =>
    rw [Decimal.digits]
    split
    · exact Nat.le_add_left 1 k
    · have hdigits := ih (n := n / 10) (by omega)
      rw [List.length_append, List.length_singleton]
      omega

theorem charsSize_digits (n : Nat) : charsSize (Decimal.digits n) = (Decimal.digits n).length := by
  have hone : ∀ c ∈ Decimal.digits n, c.utf8Size = 1 := by
    intro c hc
    have hdigit := isDigit_of_mem_digits hc
    rw [Char.isDigit, Bool.and_eq_true, decide_eq_true_eq, decide_eq_true_eq] at hdigit
    rw [Char.utf8Size_eq_one_iff]
    exact UInt32.le_trans hdigit.2 (by decide)
  exact charsSize_eq_length hone

theorem utf8ByteSize_ofNat_le (hk : 1 ≤ k) (hn : n < 10 ^ k) :
    (Decimal.ofNat n).utf8ByteSize ≤ k := by
  rw [Decimal.ofNat, utf8ByteSize_ofList, charsSize_digits]
  exact length_digits_le hk hn

theorem length_of_front {bytes rest : List UInt8} (h : front bytes = .sequence n rest) :
    bytes.length = n + rest.length := by
  unfold front at h
  repeat' split at h
  all_goals simp_all
  all_goals omega

theorem le_of_front {bytes : List UInt8} (h : front bytes = .malformed n) : n ≤ 3 := by
  unfold front at h
  repeat' split at h
  all_goals simp_all
  all_goals omega

/-- The place of a fault is at most `size`, and at most three bytes are malformed. -/
def Utf8.Fault.Within (size : Nat) : Fault → Prop
  | .malformed length place => length ≤ 3 ∧ place ≤ size
  | .incomplete place => place ≤ size

theorem within_of_firstFault {index : Nat} {bytes : List UInt8} {fault : Fault}
    (h : firstFault index bytes = some fault) : fault.Within (index + bytes.length) := by
  revert h
  fun_induction firstFault index bytes with
  | case1 => exact nofun
  | case2 index bytes n rest hfront ih =>
    rwa [length_of_front hfront, ← Nat.add_assoc]
  | case3 index bytes n hfront =>
    rintro ⟨⟩
    exact ⟨le_of_front hfront, Nat.le_add_right index bytes.length⟩
  | case4 index bytes hfront =>
    rintro ⟨⟩
    exact Nat.le_add_right index bytes.length

theorem within_of_decode {bytes : ByteArray} {fault : Fault} (h : decode bytes = .error fault) :
    fault.Within bytes.size := by
  rw [decode] at h
  split at h
  · cases h
  · cases hfirst : firstFault 0 bytes.data.toList with
    | none =>
      rw [hfirst] at h
      cases h
      exact Nat.le_refl bytes.size
    | some first =>
      rw [hfirst] at h
      cases h
      have hle := within_of_firstFault hfirst
      rwa [Array.length_toList, ByteArray.size_data, Nat.zero_add] at hle

theorem Utf8.Fault.Within.utf8ByteSize_message_le {fault : Fault} {size : Nat} (h : fault.Within size)
    (hsize : size < 10 ^ 8) : fault.message.utf8ByteSize ≤ 53 := by
  cases fault with
  | malformed length place =>
    obtain ⟨hlength, hplace⟩ := h
    have hlength := utf8ByteSize_ofNat_le (n := length) (Nat.le_refl 1) (by omega)
    have hplace := utf8ByteSize_ofNat_le (k := 8) (by decide) (Nat.lt_of_le_of_lt hplace hsize)
    have hfirst : "invalid utf-8 sequence of ".utf8ByteSize = 26 := rfl
    have hsecond : " bytes from index ".utf8ByteSize = 18 := rfl
    rw [Fault.message.eq_def]
    dsimp only
    rw [String.utf8ByteSize_append, String.utf8ByteSize_append, String.utf8ByteSize_append, hfirst,
      hsecond]
    omega
  | incomplete place =>
    have hplace := utf8ByteSize_ofNat_le (k := 8) (by decide) (Nat.lt_of_le_of_lt h hsize)
    have hfirst : "incomplete utf-8 byte sequence from index ".utf8ByteSize = 42 := rfl
    rw [Fault.message.eq_def]
    dsimp only
    rw [String.utf8ByteSize_append, hfirst]
    omega

end CacheServer.Text
