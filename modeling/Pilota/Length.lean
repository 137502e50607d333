import Pilota.Encoding
import Pilota.Memory

/-! The record `TBinaryProtocol<T>` and its length pass `TLengthProtocol`. The pass returns
the bytes each encode call will occupy and adds the payloads that may go by reference to
`zero_copy_len`. Here `threshold` is `ZERO_COPY_THRESHOLD`, a crate constant outside this
file; every result holds for each value of it. -/

namespace Pilota

/-- The record `TBinaryProtocol<T>`: transport, window, cursor, zero copy flag and accumulator. -/
structure TBinaryProtocol (T : Type) where
  trans : T
  buf : Window
  index : Nat
  zeroCopy : Bool
  zeroCopyLen : Nat

namespace TBinaryProtocol

variable {T : Type} (threshold : Nat)

/-- `TBinaryProtocol::new`: cursor and accumulator at zero. -/
def new (trans : T) (buf : Window) (zeroCopy : Bool) : TBinaryProtocol T :=
  ⟨trans, buf, 0, zeroCopy, 0⟩

/-! The fixed-width methods take `&mut self` but read none of it. -/

def writeByteLen (_b : UInt8) : Nat := 1
def writeUuidLen (_u : Uuid) : Nat := 16
def writeI8Len (_i : BitVec 8) : Nat := 1
def writeI16Len (_i : BitVec 16) : Nat := 2
def writeI32Len (_i : BitVec 32) : Nat := 4
def writeI64Len (_i : BitVec 64) : Nat := 8
def writeDoubleLen (_d : BitVec 64) : Nat := 8
def writeFieldBeginLen (_fieldType : TType) (_id : Option (BitVec 16)) : Nat :=
  writeByteLen 0 + writeI16Len 0
def writeFieldStopLen : Nat := writeByteLen 0
def writeBoolLen (_b : Bool) : Nat := writeI8Len 0
def writeStringLen (s : List UInt8) : Nat := writeI32Len 0 + s.length
def writeBytesVecLen (b : List UInt8) : Nat := writeI32Len 0 + b.length
def writeListBeginLen (_identifier : TListIdentifier) : Nat := writeByteLen 0 + writeI32Len 0
def writeSetBeginLen (_identifier : TSetIdentifier) : Nat := writeByteLen 0 + writeI32Len 0
def writeMapBeginLen (_identifier : TMapIdentifier) : Nat :=
  writeByteLen 0 + writeByteLen 0 + writeI32Len 0

/-- `write_bytes_len`: a payload at or above the threshold also goes to `zero_copy_len` when zero copy is on. -/
def writeBytesLen (p : TBinaryProtocol T) (b : List UInt8) : Nat × TBinaryProtocol T :=
  (writeI32Len 0 + b.length,
    if p.zeroCopy && threshold ≤ b.length then { p with zeroCopyLen := p.zeroCopyLen + b.length }
    else p)

def writeFaststrLen (p : TBinaryProtocol T) (s : List UInt8) : Nat × TBinaryProtocol T :=
  (writeI32Len 0 + s.length,
    if p.zeroCopy && threshold ≤ s.length then { p with zeroCopyLen := p.zeroCopyLen + s.length }
    else p)

def writeMessageBeginLen (p : TBinaryProtocol T) (identifier : TMessageIdentifier) :
    Nat × TBinaryProtocol T :=
  let (name, p) := p.writeFaststrLen threshold identifier.name
  (writeI32Len 0 + name + writeI32Len 0, p)

/-- The `write_*_len` method matching an encode call. -/
def writeLen (p : TBinaryProtocol T) : WriteCall → Nat × TBinaryProtocol T
  | .messageBegin i => p.writeMessageBeginLen threshold i
  | .fieldBegin t id => (writeFieldBeginLen t (some id), p)
  | .fieldStop => (writeFieldStopLen, p)
  | .bool b => (writeBoolLen b, p)
  | .bytes b => p.writeBytesLen threshold b
  | .byte b => (writeByteLen b, p)
  | .uuid u => (writeUuidLen u, p)
  | .i8 i => (writeI8Len i, p)
  | .i16 i => (writeI16Len i, p)
  | .i32 i => (writeI32Len i, p)
  | .i64 i => (writeI64Len i, p)
  | .double d => (writeDoubleLen d, p)
  | .string s => (writeStringLen s, p)
  | .faststr s => p.writeFaststrLen threshold s
  | .listBegin l => (writeListBeginLen l, p)
  | .setBegin l => (writeSetBeginLen l, p)
  | .mapBegin m => (writeMapBeginLen m, p)
  | .bytesVec b => (writeBytesVecLen b, p)
  | .messageEnd | .structBegin | .structEnd | .fieldEnd | .listEnd | .setEnd | .mapEnd => (0, p)

/-- The length pass: the sum of the lengths returned. -/
def lengthPass (p : TBinaryProtocol T) : List WriteCall → Nat × TBinaryProtocol T
  | [] => (0, p)
  | c :: cs =>
    let (n, p) := p.writeLen threshold c
    let (m, p) := lengthPass p cs
    (n + m, p)

def reset (p : TBinaryProtocol T) : TBinaryProtocol T := { p with zeroCopyLen := 0 }

end TBinaryProtocol

/-- The bytes of a call that the chained writer may hand over by reference. -/
def WriteCall.zeroCopyBytes (threshold : Nat) (zeroCopy : Bool) : WriteCall → Nat
  | .bytes b | .faststr b | .messageBegin ⟨b, _, _⟩ =>
    if zeroCopy && threshold ≤ b.length then b.length else 0
  | _ => 0

def zeroCopyBytesOf (threshold : Nat) (zeroCopy : Bool) : List WriteCall → Nat
  | [] => 0
  | c :: calls => c.zeroCopyBytes threshold zeroCopy + zeroCopyBytesOf threshold zeroCopy calls

@[simp] theorem zeroCopyBytesOf_cons (threshold : Nat) (zeroCopy : Bool) (c : WriteCall)
    (calls : List WriteCall) :
    zeroCopyBytesOf threshold zeroCopy (c :: calls) =
      c.zeroCopyBytes threshold zeroCopy + zeroCopyBytesOf threshold zeroCopy calls := rfl

namespace TBinaryProtocol

variable {T : Type} (threshold : Nat)

/-- Each length method returns the size of the call's layout and adds its zero copy bytes to the accumulator. -/
theorem writeLen_eq (p : TBinaryProtocol T) (c : WriteCall) :
    p.writeLen threshold c = (c.encoding.length,
      { p with zeroCopyLen := p.zeroCopyLen + c.zeroCopyBytes threshold p.zeroCopy }) := by
  cases c <;> simp only [writeLen, writeMessageBeginLen, writeBytesLen, writeFaststrLen,
    WriteCall.encoding, WriteCall.zeroCopyBytes, be32, writeI32Len, writeI16Len, writeByteLen,
    writeI8Len, writeI64Len, writeDoubleLen, writeUuidLen, writeFieldBeginLen, writeFieldStopLen,
    writeBoolLen, writeStringLen, writeBytesVecLen, writeListBeginLen, writeSetBeginLen,
    writeMapBeginLen, List.length_append, List.length_cons, length_beBytes, Mathlib.Vector.toList_length,
    Nat.add_zero, List.length_nil]
  all_goals first | rfl | (split <;> simp <;> omega)

theorem lengthPass_eq (p : TBinaryProtocol T) (calls : List WriteCall) :
    p.lengthPass threshold calls = ((encodingOf calls).length,
      { p with zeroCopyLen := p.zeroCopyLen + zeroCopyBytesOf threshold p.zeroCopy calls }) := by
  induction calls generalizing p with
  | nil => rfl
  | cons c cs ih =>
    simp only [lengthPass, writeLen_eq, ih, encodingOf_cons, List.length_append,
      zeroCopyBytesOf_cons, Nat.add_assoc]

end TBinaryProtocol

theorem zeroCopyBytes_le (threshold : Nat) (zeroCopy : Bool) (c : WriteCall) :
    c.zeroCopyBytes threshold zeroCopy ≤ c.encoding.length := by
  cases c <;> simp only [WriteCall.zeroCopyBytes] <;> try split
  all_goals simp [WriteCall.encoding, be32]
  all_goals omega

theorem zeroCopyBytesOf_le (threshold : Nat) (zeroCopy : Bool) (calls : List WriteCall) :
    zeroCopyBytesOf threshold zeroCopy calls ≤ (encodingOf calls).length := by
  induction calls with
  | nil => rfl
  | cons c cs ih =>
    simp only [zeroCopyBytesOf_cons, encodingOf_cons, List.length_append]
    have := zeroCopyBytes_le threshold zeroCopy c
    omega

end Pilota
