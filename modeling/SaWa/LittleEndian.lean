import SaWa.RangeStore
import Mathlib.Algebra.Group.Nat.Defs

/-! Fixed-width little-endian numbers as bytes, and 32-bit words of a byte memory. -/
namespace LittleEndian

open RangeStore

/-- The `w` lowest base-256 digits of `n`, least significant first. -/
def digits : ℕ → ℕ → List UInt8
  | 0, _ => []
  | w + 1, n => UInt8.ofNat n :: digits w (n / 256)

def value : List UInt8 → ℕ
  | [] => 0
  | b :: bs => b.toNat + 256 * value bs

@[simp] theorem length_digits (w n : ℕ) : (digits w n).length = w := by
  induction w generalizing n with
  | zero => rfl
  | succ w ih => rw [digits, List.length_cons, ih]

theorem value_lt (bs : List UInt8) : value bs < 256 ^ bs.length := by
  induction bs with
  | nil => decide
  | cons b bs ih =>
    have hb := b.toNat_lt
    rw [value, List.length_cons, Nat.pow_succ]
    omega

theorem value_digits {w n : ℕ} (h : n < 256 ^ w) : value (digits w n) = n := by
  induction w generalizing n with
  | zero =>
    have : n = 0 := by simpa using h
    rw [this]
    rfl
  | succ w ih =>
    have hq : n / 256 < 256 ^ w := Nat.div_lt_of_lt_mul (by rwa [Nat.pow_succ, Nat.mul_comm] at h)
    rw [digits, value, ih hq, UInt8.toNat_ofNat']
    omega

theorem digits_value (bs : List UInt8) : digits bs.length (value bs) = bs := by
  induction bs with
  | nil => rfl
  | cons b bs ih =>
    have hb := b.toNat_lt
    have hd : (b.toNat + 256 * value bs) / 256 = value bs := by omega
    have hm : UInt8.ofNat (b.toNat + 256 * value bs) = b := by
      apply UInt8.toNat_inj.mp
      rw [UInt8.toNat_ofNat']
      omega
    rw [value, List.length_cons, digits, hd, hm, ih]

/-! ### 32-bit words -/

/-- The four bytes of a word as a little-endian machine stores it. -/
def wordBytes (x : UInt32) : List UInt8 := digits 4 x.toNat

/-- The word that four bytes make. -/
def wordOf (bs : List UInt8) : UInt32 := UInt32.ofNat (value bs)

/-- The word stored in a memory at address `p`. -/
def wordAt (m : ℕ → UInt8) (p : ℕ) : UInt32 := wordOf (load m p 4)

theorem toNat_ofNat {n : ℕ} (h : n < 2 ^ 32) : (UInt32.ofNat n).toNat = n :=
  UInt32.toNat_ofNat_of_lt' h

@[simp] theorem length_wordBytes (x : UInt32) : (wordBytes x).length = 4 := length_digits 4 _

@[simp] theorem wordOf_wordBytes (x : UInt32) : wordOf (wordBytes x) = x := by
  rw [wordOf, wordBytes, value_digits (by simpa using x.toNat_lt), UInt32.ofNat_toNat]

theorem wordBytes_wordOf {bs : List UInt8} (h : bs.length = 4) : wordBytes (wordOf bs) = bs := by
  have hlt := value_lt bs
  rw [h] at hlt
  rw [wordBytes, wordOf, toNat_ofNat (by simpa using hlt)]
  simpa [h] using digits_value bs

end LittleEndian
