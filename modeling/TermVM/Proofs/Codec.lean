/-
  TermVM.Proofs.Codec

  Numbers, kinds and numerals that were written are read back.
-/
import Mathlib.Algebra.Group.Nat.Defs
import TermVM.Cbor.Decode
import TermVM.Cbor.Encode
import TermVM.DeclTable

namespace TermVM

/-! ## Words -/

theorem Cbor.foldl_bigEndian (width n m : Nat) :
    (bigEndian width n).foldl (fun n b => n * 256 + b.toNat) m
      = m * 256 ^ width + n % 256 ^ width := by
  induction width generalizing m with
  | zero => simp [bigEndian, Nat.mod_one]
  | succ width ih =>
    have hshift : n >>> (8 * width) = n / 256 ^ width := by
      rw [Nat.shiftRight_eq_div_pow, Nat.pow_mul]
    have hbyte : (UInt8.ofNat (n / 256 ^ width)).toNat = n / 256 ^ width % 256 := by simp
    rw [bigEndian, List.foldl_cons, ih, hshift, hbyte, Nat.pow_succ, Nat.mod_mul]
    grind

theorem Cbor.ofBigEndian_bigEndian {width n : Nat} (h : n < 256 ^ width) :
    ofBigEndian (bigEndian width n) = n := by
  rw [ofBigEndian, foldl_bigEndian, Nat.zero_mul, Nat.zero_add, Nat.mod_eq_of_lt h]

@[simp] theorem length_bigEndian (width n : Nat) : (bigEndian width n).length = width := by
  induction width with
  | zero => rfl
  | succ width ih => rw [bigEndian, List.length_cons, ih]

theorem Cbor.takeBytes_append (bs rest : Bytes) :
    takeBytes bs.length (bs ++ rest) = some (bs, rest) := by
  simp [takeBytes]

/-- A number is read back from its bytes, whatever follows them. -/
theorem Cbor.takeBytes_bigEndian (width n : Nat) (rest : Bytes) :
    takeBytes width (bigEndian width n ++ rest) = some (bigEndian width n, rest) := by
  have h := takeBytes_append (bigEndian width n) rest
  rwa [length_bigEndian] at h

/-! ## Kinds and numerals -/

theorem MarkerKind.ofByte_toByte (k : MarkerKind) : ofByte k.toByte = k := by
  cases k with
  | other code reserved => exact dif_pos reserved
  | _ => rfl

theorem DeclKind.ofByte_toByte (k : DeclKind) : ofByte k.toByte = k := by
  cases k with
  | other code unused => exact dif_pos unused
  | _ => rfl

theorem Text.readInt?_decimal (n : Int) : readInt? (decimal n).toList = some n := by
  cases n with
  | ofNat n =>
    -- a digit is no sign
    have hdigit : ∀ c ∈ digits n, c.isDigit = true := fun c hc =>
      Nat.isDigit_of_mem_toDigits (by decide) (by decide) hc
    have hread : readInt? (digits n) = (readDigits? (digits n)).map fun n => (n : Int) := by
      unfold readInt?
      split
      · next heq => exact absurd (hdigit '-' (by simp [heq])) (by decide)
      · next heq => exact absurd (hdigit '+' (by simp [heq])) (by decide)
      · rfl
    simp [decimal, hread, readDigits?_digits]
  | negSucc n =>
    simp [decimal, readInt?, readDigits?_digits, Int.negSucc_eq]

end TermVM
