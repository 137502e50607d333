import Pilota.Wire

/-! The encode calls a generated encoder makes on a `TOutputProtocol`, and the reference
layout of each on the wire (spec §6). The writers, the length pass and the readers are all
measured against this layout. -/

namespace Pilota

/-- One call of `TOutputProtocol` with its arguments; a double is its bit pattern, and the struct identifier, which every writer ignores, is dropped. -/
inductive WriteCall
  | messageBegin (identifier : TMessageIdentifier)
  | messageEnd
  | structBegin
  | structEnd
  | fieldBegin (fieldType : TType) (id : BitVec 16)
  | fieldEnd
  | fieldStop
  | bool (b : Bool)
  | bytes (b : List UInt8)
  | byte (b : UInt8)
  | uuid (u : Uuid)
  | i8 (i : BitVec 8)
  | i16 (i : BitVec 16)
  | i32 (i : BitVec 32)
  | i64 (i : BitVec 64)
  | double (d : BitVec 64)
  | string (s : List UInt8)
  | faststr (s : List UInt8)
  | listBegin (identifier : TListIdentifier)
  | listEnd
  | setBegin (identifier : TSetIdentifier)
  | setEnd
  | mapBegin (identifier : TMapIdentifier)
  | mapEnd
  | bytesVec (b : List UInt8)

/-- BE32: the low 32 bits of a number, big-endian. -/
def be32 (n : Nat) : List UInt8 := beBytes 4 n

namespace WriteCall

/-- The reference layout of a call on the wire (spec §6). -/
def encoding : WriteCall → List UInt8
  | messageBegin i =>
    be32 (0x80010000 ||| i.messageType.toU8.toNat) ++ be32 i.name.length ++ i.name ++
      be32 i.sequenceNumber.toNat
  | fieldBegin t id => t.toU8 :: beBytes 2 id.toNat
  | fieldStop => [0]
  | bool b => [if b then 1 else 0]
  | byte b => [b]
  | i8 i => beBytes 1 i.toNat
  | i16 i => beBytes 2 i.toNat
  | i32 i => be32 i.toNat
  | i64 i => beBytes 8 i.toNat
  | double d => beBytes 8 d.toNat
  | uuid u => u.toList
  | string s | faststr s | bytes s | bytesVec s => be32 s.length ++ s
  | listBegin l => l.elementType.toU8 :: be32 l.size
  | setBegin l => l.elementType.toU8 :: be32 l.size
  | mapBegin m => m.keyType.toU8 :: m.valueType.toU8 :: be32 m.size
  | messageEnd | structBegin | structEnd | fieldEnd | listEnd | setEnd | mapEnd => []

end WriteCall

def encodingOf (calls : List WriteCall) : List UInt8 := calls.flatMap WriteCall.encoding

@[simp] theorem encodingOf_nil : encodingOf [] = [] := rfl

@[simp] theorem encodingOf_cons (c : WriteCall) (calls : List WriteCall) :
    encodingOf (c :: calls) = c.encoding ++ encodingOf calls := rfl

theorem toBeBytes_usizeAsI32 (n : Nat) : toBeBytes (usizeAsI32 n) = be32 n := by
  simp only [toBeBytes, usizeAsI32, BitVec.toNat_ofNat, be32]
  exact beBytes_mod 4 n

theorem toBeBytes_versionWord (t : TMessageType) :
    toBeBytes (versionWord t) = be32 (0x80010000 ||| t.toU8.toNat) := by
  cases t <;> decide

end Pilota
