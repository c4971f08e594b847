import Mathlib.Algebra.GroupWithZero.Nat
import Mathlib.Data.Nat.Init
import Mathlib.Tactic.Common
/-!
# Numbers as bytes

`toBytes w n` is a number in `w` bytes, the most significant first; what does not fit is
cut off. `ofBytes` reads such bytes back.
-/

namespace Lib

def toBytes : Nat → Nat → List UInt8
  | 0, _ => []
  | w + 1, n => toBytes w (n / 256) ++ [UInt8.ofNat n]

def ofBytes (bytes : List UInt8) : Nat := bytes.foldl (fun n b => n * 256 + b.toNat) 0

@[simp] theorem length_toBytes (w n : Nat) : (toBytes w n).length = w := by
  induction w generalizing n with
  | zero => rfl
  | succ w ih => simp [toBytes, ih]

theorem ofBytes_concat (bytes : List UInt8) (b : UInt8) : ofBytes (bytes ++ [b]) = ofBytes bytes * 256 + b.toNat := by
  simp [ofBytes]

theorem ofBytes_toBytes {w n : Nat} (h : n < 256 ^ w) : ofBytes (toBytes w n) = n := by
  induction w generalizing n with
  | zero =>
    rw [Nat.pow_zero] at h
    simp [toBytes, ofBytes]
    omega
  | succ w ih =>
    have hdiv : n / 256 < 256 ^ w := by
      rw [Nat.pow_succ] at h
      exact Nat.div_lt_of_lt_mul (by omega)
    rw [toBytes, ofBytes_concat, ih hdiv, UInt8.toNat_ofNat']
    omega

/-- Numbers that fit are told apart by their bytes. -/
theorem toBytes_inj {w m n : Nat} (hm : m < 256 ^ w) (hn : n < 256 ^ w) (h : toBytes w m = toBytes w n) : m = n := by
  rw [← ofBytes_toBytes hm, h, ofBytes_toBytes hn]

end Lib
