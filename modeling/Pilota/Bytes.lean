import Mathlib.Algebra.Order.Group.Nat

/-! Big-endian byte strings as `to_be_bytes` and `from_be_bytes` lay them out, and the
casts the codec applies to lengths (`n as i32` on the write side, `x as usize` on the
read side, for a 64-bit target). -/

namespace Pilota

/-- The low `8 * n` bits of `x` as `n` bytes, most significant first. -/
def beBytes : Nat → Nat → List UInt8
  | 0, _ => []
  | n + 1, x => beBytes n (x / 256) ++ [UInt8.ofNat x]

def ofBeBytes (bs : List UInt8) : Nat :=
  bs.foldl (fun acc b => acc * 256 + b.toNat) 0

@[simp] theorem length_beBytes (n x : Nat) : (beBytes n x).length = n := by
  induction n generalizing x with
  | zero => rfl
  | succ n ih => simp [beBytes, ih]

@[simp] theorem toNat_uint8_ofNat (x : Nat) : (UInt8.ofNat x).toNat = x % 256 :=
  BitVec.toNat_ofNat x 8

@[simp] theorem uint8_ofNat_toNat (b : UInt8) : UInt8.ofNat b.toNat = b :=
  UInt8.eq_of_val_eq (by simp [UInt8.ofNat, UInt8.toNat])

theorem ofBeBytes_singleton (b : UInt8) : ofBeBytes [b] = b.toNat := by
  simp [ofBeBytes]

theorem ofBeBytes_append_byte (bs : List UInt8) (b : UInt8) :
    ofBeBytes (bs ++ [b]) = ofBeBytes bs * 256 + b.toNat := by
  simp [ofBeBytes, List.foldl_append]

theorem ofBeBytes_beBytes (n x : Nat) : ofBeBytes (beBytes n x) = x % 256 ^ n := by
  induction n generalizing x with
  | zero => simp [beBytes, ofBeBytes, Nat.mod_one]
  | succ n ih =>
    rw [beBytes, ofBeBytes_append_byte, ih, toNat_uint8_ofNat, pow_succ', Nat.mod_mul]
    omega

theorem beBytes_mod (n x : Nat) : beBytes n (x % 256 ^ n) = beBytes n x := by
  induction n generalizing x with
  | zero => rfl
  | succ n ih =>
    have low : UInt8.ofNat (x % 256 ^ (n + 1)) = UInt8.ofNat x := by
      apply UInt8.eq_of_toBitVec_eq
      apply BitVec.eq_of_toNat_eq
      show x % 256 ^ (n + 1) % 2 ^ 8 = x % 2 ^ 8
      rw [pow_succ']
      exact Nat.mod_mul_right_mod x 256 _
    rw [beBytes, beBytes, low, pow_succ', Nat.mod_mul_right_div_self, ih]

/-- The bytes `x.to_be_bytes()` for a `w`-bit integer. -/
def toBeBytes {w : Nat} (x : BitVec w) : List UInt8 := beBytes (w / 8) x.toNat

/-- The integer `from_be_bytes` builds from big-endian bytes. -/
def fromBeBytes (w : Nat) (bs : List UInt8) : BitVec w := BitVec.ofNat w (ofBeBytes bs)

@[simp] theorem length_toBeBytes {w : Nat} (x : BitVec w) : (toBeBytes x).length = w / 8 :=
  length_beBytes _ _

theorem fromBeBytes_toBeBytes {w : Nat} (x : BitVec w) (whole : w % 8 = 0) :
    fromBeBytes w (toBeBytes x) = x := by
  have bytes : (256 : Nat) ^ (w / 8) = 2 ^ w := by
    rw [show (256 : Nat) = 2 ^ 8 from rfl, ← pow_mul,
      Nat.mul_div_cancel' (Nat.dvd_of_mod_eq_zero whole)]
  apply BitVec.eq_of_toNat_eq
  simp [fromBeBytes, toBeBytes, ofBeBytes_beBytes, bytes, Nat.mod_eq_of_lt x.isLt]

theorem beBytes_foldl (k acc : Nat) (bs : List UInt8) :
    beBytes (k + bs.length) (bs.foldl (fun acc b => acc * 256 + b.toNat) acc) =
      beBytes k acc ++ bs := by
  induction bs generalizing k acc with
  | nil => simp
  | cons b bs ih =>
    have bounded : b.toNat < 256 := b.toBitVec.isLt
    have last : UInt8.ofNat (acc * 256 + b.toNat) = b := by
      apply UInt8.toNat.inj
      rw [toNat_uint8_ofNat]
      omega
    have step : beBytes (k + 1) (acc * 256 + b.toNat) = beBytes k acc ++ [b] := by
      rw [beBytes, show (acc * 256 + b.toNat) / 256 = acc by omega, last]
    rw [List.foldl_cons, List.length_cons, show k + (bs.length + 1) = k + 1 + bs.length by omega,
      ih, step, List.append_assoc, List.singleton_append]

theorem beBytes_ofBeBytes (bs : List UInt8) : beBytes bs.length (ofBeBytes bs) = bs := by
  simpa using beBytes_foldl 0 0 bs

theorem toBeBytes_fromBeBytes {w : Nat} (bs : List UInt8) (sized : bs.length = w / 8)
    (whole : w % 8 = 0) : toBeBytes (fromBeBytes w bs) = bs := by
  have bytes : (256 : Nat) ^ (w / 8) = 2 ^ w := by
    rw [show (256 : Nat) = 2 ^ 8 from rfl, ← pow_mul,
      Nat.mul_div_cancel' (Nat.dvd_of_mod_eq_zero whole)]
  rw [toBeBytes, fromBeBytes, BitVec.toNat_ofNat, ← bytes, beBytes_mod, ← sized, beBytes_ofBeBytes]

/-- `isize::MAX` on a 64-bit target: no slice or allocation is longer. -/
def isizeMax : Nat := 2 ^ 63 - 1

/-- The cast `n as i32` of a `usize` length: its low 32 bits. -/
def usizeAsI32 (n : Nat) : BitVec 32 := BitVec.ofNat 32 n

/-- The cast `x as usize` of an `i32` on a 64-bit target: sign extension. -/
def i32AsUsize (x : BitVec 32) : Nat := (x.signExtend 64).toNat

/-- The casts wrap: the low 32 bits come back as they are below `2^31`, sign-extended above. -/
theorem i32AsUsize_usizeAsI32 (n : Nat) :
    i32AsUsize (usizeAsI32 n) =
      if n % 2 ^ 32 < 2 ^ 31 then n % 2 ^ 32 else n % 2 ^ 32 + (2 ^ 64 - 2 ^ 32) := by
  simp only [i32AsUsize, usizeAsI32, BitVec.signExtend, BitVec.toNat_ofInt,
    BitVec.toInt_eq_toNat_cond, BitVec.toNat_ofNat]
  split <;> split <;> omega

theorem i32AsUsize_usizeAsI32_of_lt {n : Nat} (short : n < 2 ^ 31) : i32AsUsize (usizeAsI32 n) = n := by
  rw [i32AsUsize_usizeAsI32, Nat.mod_eq_of_lt (by omega), if_pos short]

theorem isizeMax_lt_i32AsUsize {x : BitVec 32} (negative : x.toInt < 0) : isizeMax < i32AsUsize x := by
  rw [BitVec.toInt_eq_toNat_cond] at negative
  simp only [i32AsUsize, BitVec.signExtend, BitVec.toNat_ofInt, BitVec.toInt_eq_toNat_cond, isizeMax]
  split at negative <;> omega

theorem beBytes_i32AsUsize (x : BitVec 32) : beBytes 4 (i32AsUsize x) = toBeBytes x := by
  have low : i32AsUsize x % 256 ^ 4 = x.toNat := by
    have := x.isLt
    simp only [i32AsUsize, BitVec.signExtend, BitVec.toNat_ofInt, BitVec.toInt_eq_toNat_cond]
    split <;> omega
  rw [← beBytes_mod, low]
  rfl

end Pilota
