import Mathlib.Data.UInt
import Mathlib.Tactic.NormNum

/-! Byte arrays of a fixed size and numbers in a fixed number of bytes, in both byte
orders. -/

namespace Cfmd.Lib
open Std List

/-- `[u8; n]`. -/
structure Bytes (n : ℕ) where
  bytes : List UInt8
  length_eq : bytes.length = n
deriving DecidableEq

variable {n : ℕ}

namespace Bytes

theorem bytes_injective : Function.Injective (bytes : Bytes n → List UInt8) := by
  rintro ⟨a, _⟩ ⟨b, _⟩ h
  cases h
  rfl

instance {n : ℕ} : Ord (Bytes n) := ⟨compareOn bytes⟩

instance {n : ℕ} : TransOrd (Bytes n) := inferInstanceAs (TransCmp (compareOn bytes))

instance {n : ℕ} : LawfulEqOrd (Bytes n) where
  eq_of_compare h := bytes_injective (LawfulEqOrd.eq_of_compare h)

/-- `[byte; n]`. -/
def replicate (n : ℕ) (byte : UInt8) : Bytes n := ⟨List.replicate n byte, length_replicate⟩

end Bytes

def toLeBytes : ℕ → ℕ → List UInt8
  | 0, _ => []
  | n + 1, x => UInt8.ofNat x :: toLeBytes n (x / 256)

def fromLeBytes : List UInt8 → ℕ
  | [] => 0
  | byte :: bytes => byte.toNat + 256 * fromLeBytes bytes

@[simp] theorem length_toLeBytes (n x : ℕ) : (toLeBytes n x).length = n := by
  induction n generalizing x with
  | zero => rfl
  | succ n ih => rw [toLeBytes, length_cons, ih]

theorem fromLeBytes_toLeBytes (n x : ℕ) : fromLeBytes (toLeBytes n x) = x % 256 ^ n := by
  induction n generalizing x with
  | zero => rw [toLeBytes, fromLeBytes, pow_zero, Nat.mod_one]
  | succ n ih =>
    have hbyte : (UInt8.ofNat x).toNat = x % 256 := UInt8.toNat_ofNat'
    rw [toLeBytes, fromLeBytes, ih, hbyte, pow_succ', Nat.mod_mul]

theorem fromLeBytes_toLeBytes_of_lt {x : ℕ} (h : x < 256 ^ n) :
    fromLeBytes (toLeBytes n x) = x := by
  rw [fromLeBytes_toLeBytes, Nat.mod_eq_of_lt h]

theorem fromLeBytes_lt (bytes : List UInt8) : fromLeBytes bytes < 256 ^ bytes.length := by
  induction bytes with
  | nil => exact Nat.one_pos
  | cons byte bytes ih =>
    have hbyte := byte.toNat_lt
    rw [fromLeBytes, length_cons]
    omega

theorem toLeBytes_fromLeBytes (bytes : List UInt8) :
    toLeBytes bytes.length (fromLeBytes bytes) = bytes := by
  induction bytes with
  | nil => rfl
  | cons byte bytes ih =>
    have hbyte := byte.toNat_lt
    have hlow : UInt8.ofNat (byte.toNat + 256 * fromLeBytes bytes) = byte := by
      apply UInt8.toNat_inj.mp
      rw [UInt8.toNat_ofNat']
      omega
    have hhigh : (byte.toNat + 256 * fromLeBytes bytes) / 256 = fromLeBytes bytes := by omega
    rw [length_cons, fromLeBytes, toLeBytes, hlow, hhigh, ih]

/-- Most significant first. -/
def toBeBytes (n x : ℕ) : List UInt8 := (toLeBytes n x).reverse

def fromBeBytes (bytes : List UInt8) : ℕ := fromLeBytes bytes.reverse

@[simp] theorem length_toBeBytes (n x : ℕ) : (toBeBytes n x).length = n := by
  rw [toBeBytes, length_reverse, length_toLeBytes]

theorem fromBeBytes_toBeBytes_of_lt {x : ℕ} (h : x < 256 ^ n) :
    fromBeBytes (toBeBytes n x) = x := by
  rw [fromBeBytes, toBeBytes, reverse_reverse, fromLeBytes_toLeBytes_of_lt h]

theorem fromBeBytes_lt (bytes : List UInt8) : fromBeBytes bytes < 256 ^ bytes.length := by
  have hlt := fromLeBytes_lt bytes.reverse
  rwa [length_reverse] at hlt

theorem toBeBytes_fromBeBytes (bytes : List UInt8) :
    toBeBytes bytes.length (fromBeBytes bytes) = bytes := by
  have hbytes := toLeBytes_fromLeBytes bytes.reverse
  rw [length_reverse] at hbytes
  rw [toBeBytes, fromBeBytes, hbytes, reverse_reverse]

end Cfmd.Lib
