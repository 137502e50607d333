import Pilota.Bytes
import Mathlib.Data.Vector.Basic

/-! The wire vocabulary of `binary_unsafe.rs`: type tags, message types, the identifier
records and the errors. These are declared in the crate outside this file; they are modelled
from the spec, with the binary protocol's one-byte codes (the spec names Stop `0x00`,
I32 `0x08` and String `0x0B`). Text is its UTF-8 bytes: the codec never validates it. -/

namespace Pilota

/-- Modelled from the spec: the wire type tags `TType`. -/
inductive TType
  | stop | void | bool | byte | double | i16 | i32 | i64 | string | struct | map | set | list
  | uuid
  deriving DecidableEq, Repr

namespace TType

/-- `field_type as u8`. -/
def toU8 : TType → UInt8
  | stop => 0 | void => 1 | bool => 2 | byte => 3 | double => 4 | i16 => 6 | i32 => 8
  | i64 => 10 | string => 11 | struct => 12 | map => 13 | set => 14 | list => 15 | uuid => 16

/-- `TType::try_from(u8)`; `none` for a byte that names no tag. -/
def tryFrom (b : UInt8) : Option TType :=
  match b.toNat with
  | 0 => some stop | 1 => some void | 2 => some bool | 3 => some byte | 4 => some double
  | 6 => some i16 | 8 => some i32 | 10 => some i64 | 11 => some string | 12 => some struct
  | 13 => some map | 14 => some set | 15 => some list | 16 => some uuid
  | _ => none

@[simp] theorem tryFrom_toU8 (t : TType) : tryFrom t.toU8 = some t := by
  cases t <;> rfl

theorem toU8_of_tryFrom {b : UInt8} {t : TType} (named : tryFrom b = some t) :
    t.toU8 = b := by
  apply UInt8.toNat.inj
  unfold tryFrom at named
  split at named <;> cases named <;> (rename_i code; rw [code]; rfl)

end TType

/-- Modelled from the spec: `TMessageType`. -/
inductive TMessageType
  | call | reply | exception | oneway
  deriving DecidableEq, Repr

namespace TMessageType

/-- `u8::from(message_type)`. -/
def toU8 : TMessageType → UInt8
  | call => 1 | reply => 2 | exception => 3 | oneway => 4

/-- `TMessageType::try_from(u8)`. -/
def tryFrom (b : UInt8) : Option TMessageType :=
  match b.toNat with
  | 1 => some call | 2 => some reply | 3 => some exception | 4 => some oneway
  | _ => none

@[simp] theorem tryFrom_toU8 (t : TMessageType) : tryFrom t.toU8 = some t := by
  cases t <;> rfl

theorem tryFrom_eq_some (b : UInt8) (t : TMessageType) : tryFrom b = some t ↔ b.toNat = t.toU8.toNat := by
  unfold tryFrom
  generalize b.toNat = n
  cases t <;> simp only [toU8, show (1 : UInt8).toNat = 1 from rfl, show (2 : UInt8).toNat = 2 from rfl,
    show (3 : UInt8).toNat = 3 from rfl, show (4 : UInt8).toNat = 4 from rfl] <;> split <;> simp_all

theorem exists_toU8 (k : Nat) : (∃ t : TMessageType, t.toU8.toNat = k) ↔ 1 ≤ k ∧ k ≤ 4 := by
  constructor
  · rintro ⟨t, rfl⟩
    cases t <;> decide
  · intro within
    rcases (by omega : k = 1 ∨ k = 2 ∨ k = 3 ∨ k = 4) with rfl | rfl | rfl | rfl
    exacts [⟨call, rfl⟩, ⟨reply, rfl⟩, ⟨exception, rfl⟩, ⟨oneway, rfl⟩]

end TMessageType

structure TMessageIdentifier where
  name : List UInt8
  messageType : TMessageType
  sequenceNumber : BitVec 32
  deriving DecidableEq, Repr

structure TStructIdentifier where
  name : List UInt8
  deriving DecidableEq, Repr

structure TFieldIdentifier where
  name : Option (List UInt8)
  fieldType : TType
  id : Option (BitVec 16)
  deriving DecidableEq, Repr

structure TListIdentifier where
  elementType : TType
  size : Nat
  deriving DecidableEq, Repr

structure TSetIdentifier where
  elementType : TType
  size : Nat
  deriving DecidableEq, Repr

structure TMapIdentifier where
  keyType : TType
  valueType : TType
  size : Nat
  deriving DecidableEq, Repr

abbrev Uuid := Mathlib.Vector UInt8 16

/-- Modelled from the spec: the kind of the `ProtocolError` of `field_type_from_u8`. -/
inductive ProtocolErrorKind
  | invalidData
  deriving DecidableEq, Repr

structure ProtocolError where
  kind : ProtocolErrorKind
  message : String
  deriving DecidableEq, Repr

/-- `field_type_from_u8`: the tag a byte names, or an `InvalidData` protocol error. -/
def fieldTypeFromU8 (n : UInt8) : Except ProtocolError TType :=
  match TType.tryFrom n with
  | some t => .ok t
  | none => .error ⟨.invalidData, "invalid ttype " ++ toString n⟩

theorem toU8_of_fieldTypeFromU8 {b : UInt8} {t : TType} (named : fieldTypeFromU8 b = .ok t) :
    t.toU8 = b := by
  unfold fieldTypeFromU8 at named
  split at named
  · rename_i t' found
    cases named
    exact TType.toU8_of_tryFrom found
  · cases named

/-- Modelled from the spec: the decode error kinds; `ioError` wraps an I/O error of the streaming reader's source. -/
inductive DecodeErrorKind
  | badVersion | invalidData | ioError
  deriving DecidableEq, Repr

structure DecodeError where
  kind : DecodeErrorKind
  message : String
  deriving DecidableEq, Repr

/-- Modelled from the spec: `?` on a `ProtocolError` keeps its kind and message. -/
def DecodeError.ofProtocolError (e : ProtocolError) : DecodeError :=
  ⟨match e.kind with | .invalidData => .invalidData, e.message⟩

/-- The static `VERSION_1`. -/
def version1 : BitVec 32 := 0x80010000#32

/-- The static `VERSION_MASK`. -/
def versionMask : BitVec 32 := 0xffff0000#32

/-- The header word `(VERSION_1 | msg_type_u8 as u32) as i32` both writers put first. -/
def versionWord (t : TMessageType) : BitVec 32 := version1 ||| BitVec.ofNat 32 t.toU8.toNat

/-! What the readers' header check sees of a word: its low nibble, and its upper half. -/

theorem toNat_and_0xf (w : BitVec 32) : (w &&& 0xf#32).toNat = w.toNat % 16 := by
  rw [BitVec.toNat_and]
  exact Nat.and_pow_two_sub_one_eq_mod w.toNat 4

theorem tryFrom_nibble (w : BitVec 32) (t : TMessageType) :
    TMessageType.tryFrom (UInt8.ofNat (w &&& 0xf#32).toNat) = some t ↔
      w.toNat % 16 = t.toU8.toNat := by
  rw [TMessageType.tryFrom_eq_some, toNat_uint8_ofNat, toNat_and_0xf]
  omega

theorem and_div_two_pow (a b k : Nat) : (a &&& b) / 2 ^ k = a / 2 ^ k &&& b / 2 ^ k := by
  induction k with
  | zero => simp
  | succ k ih =>
    rw [Nat.pow_succ, ← Nat.div_div_eq_div_mul, ih, Nat.and_div_two, Nat.div_div_eq_div_mul,
      Nat.div_div_eq_div_mul]

theorem toNat_and_versionMask (w : BitVec 32) :
    (w &&& versionMask).toNat = w.toNat / 65536 * 65536 := by
  have upper : (w.toNat &&& 0xffff0000) / 2 ^ 16 = w.toNat / 2 ^ 16 := by
    rw [and_div_two_pow, show (0xffff0000 : Nat) / 2 ^ 16 = 2 ^ 16 - 1 from rfl,
      Nat.and_pow_two_sub_one_eq_mod, Nat.mod_eq_of_lt (by have := w.isLt; omega)]
  have lower : (w.toNat &&& 0xffff0000) % 2 ^ 16 = 0 := by
    rw [← Nat.and_pow_two_sub_one_eq_mod, Nat.and_assoc,
      show (0xffff0000 &&& 2 ^ 16 - 1 : Nat) = 0 from rfl, Nat.and_zero]
  have whole := Nat.div_add_mod (w.toNat &&& 0xffff0000) (2 ^ 16)
  rw [BitVec.toNat_and]
  show w.toNat &&& 0xffff0000 = _
  omega

theorem and_versionMask_eq_version1 (w : BitVec 32) :
    w &&& versionMask = version1 ↔ w.toNat / 65536 = 0x8001 := by
  rw [BitVec.toNat_eq, toNat_and_versionMask, show version1.toNat = 0x80010000 from rfl]
  omega

theorem toInt_pos_iff (w : BitVec 32) : 0 < w.toInt ↔ 0 < w.toNat ∧ w.toNat < 2 ^ 31 := by
  rw [BitVec.toInt_eq_toNat_cond]
  split <;> omega

end Pilota
