import Pilota.Encoding

/-! What the two readers share. A read is a function of the reader's state that may be
undefined (an unchecked load past its slice, or a panic), or returns a value or a
`DecodeError` together with the state after it. The composite methods have the same body in
both readers, written over each reader's own primitives; they are defined once here, and each
reader's method is that body applied to its primitives. -/

namespace Pilota

/-- A read on reader state `σ`: `none` is undefined behaviour or a panic. -/
def ReadM (σ α : Type) : Type := σ → Option (Except DecodeError α × σ)

namespace ReadM

variable {σ α β : Type}

def pure (a : α) : ReadM σ α := fun s => some (.ok a, s)

/-- Sequencing with `?`: an error ends the read, in the state it left. -/
def bind (x : ReadM σ α) (f : α → ReadM σ β) : ReadM σ β := fun s =>
  (x s).bind fun
    | (.ok a, s') => f a s'
    | (.error e, s') => some (.error e, s')

instance : Monad (ReadM σ) where
  pure := ReadM.pure
  bind := ReadM.bind

/-- `return Err(e)`. -/
def throw (e : DecodeError) : ReadM σ α := fun s => some (.error e, s)

@[simp] theorem pure_apply (a : α) (s : σ) : (Pure.pure a : ReadM σ α) s = some (.ok a, s) := rfl

@[simp] theorem throw_apply (e : DecodeError) (s : σ) :
    (throw e : ReadM σ α) s = some (.error e, s) := rfl

theorem bind_apply (x : ReadM σ α) (f : α → ReadM σ β) (s : σ) :
    (x >>= f) s = (x s).bind fun
      | (.ok a, s') => f a s'
      | (.error e, s') => some (.error e, s') := rfl

theorem map_eq (f : α → β) (x : ReadM σ α) : f <$> x = x >>= fun a => pure (f a) := rfl

end ReadM

/-- A uuid from sixteen bytes, `try_into` of a 16-byte slice. -/
def Uuid.ofBytes (bs : List UInt8) : Uuid := Mathlib.Vector.ofFn fun i => bs.getD i 0

theorem Uuid.ofBytes_toList (u : Uuid) (rest : List UInt8) :
    Uuid.ofBytes ((u.toList ++ rest).take 16) = u := by
  apply Mathlib.Vector.ext
  intro i
  have short : (i : Nat) < u.toList.length := by simp
  rw [Uuid.ofBytes, Mathlib.Vector.get_ofFn, List.take_append_of_le_length (by simp),
    List.take_of_length_le (by simp), List.getD_eq_getElem?_getD, List.getElem?_eq_getElem short,
    Option.getD_some, Mathlib.Vector.get_eq_get]
  rfl

theorem Uuid.ofBytes_self (u : Uuid) : Uuid.ofBytes u.toList = u := by
  have whole := Uuid.ofBytes_toList u []
  rwa [List.append_nil, List.take_of_length_le (by simp)] at whole

theorem Uuid.toList_ofBytes {bs : List UInt8} (sized : bs.length = 16) :
    (Uuid.ofBytes bs).toList = bs := by
  rw [Uuid.ofBytes, Mathlib.Vector.toList_ofFn]
  apply List.ext_getElem (by rw [List.length_ofFn, sized])
  intro i _ inBs
  rw [List.getElem_ofFn, List.getD_eq_getElem?_getD, List.getElem?_eq_getElem inBs,
    Option.getD_some]

section Bodies

variable {σ : Type}

/-- The body of `read_message_begin` in both readers, with the source's checks in its order. -/
def readMessageBegin (readI32 : ReadM σ (BitVec 32)) (readFaststr : ReadM σ (List UInt8)) :
    ReadM σ TMessageIdentifier := do
  let size ← readI32
  if 0 < size.toInt then
    ReadM.throw ⟨.badVersion, "Missing version in ReadMessageBegin"⟩
  else
    let typeU8 := UInt8.ofNat (size &&& 0xf#32).toNat
    match TMessageType.tryFrom typeU8 with
    | none => ReadM.throw ⟨.invalidData, "invalid message type " ++ toString typeU8⟩
    | some messageType =>
      if size &&& versionMask ≠ version1 then
        ReadM.throw ⟨.badVersion, "Bad version in ReadMessageBegin"⟩
      else do
        let name ← readFaststr
        let sequenceNumber ← readI32
        pure ⟨name, messageType, sequenceNumber⟩

/-- The body of `read_field_begin` in both readers; `Stop` has id 0. -/
def readFieldBegin (readByte : ReadM σ UInt8) (readI16 : ReadM σ (BitVec 16)) :
    ReadM σ TFieldIdentifier := do
  let fieldTypeByte ← readByte
  match TType.tryFrom fieldTypeByte with
  | none => ReadM.throw ⟨.invalidData, "invalid ttype " ++ toString fieldTypeByte⟩
  | some fieldType => do
    let id ← (if fieldType = .stop then pure 0 else readI16)
    pure ⟨none, fieldType, some id⟩

/-- The body of `read_bool` in both readers: any byte but 0 is true. -/
def readBool (readI8 : ReadM σ (BitVec 8)) : ReadM σ Bool := do
  let b ← readI8
  pure (b != 0)

/-- `read_byte().and_then(|n| Ok(field_type_from_u8(n)?))?` of the collection headers. -/
def readTType (readByte : ReadM σ UInt8) : ReadM σ TType := do
  let n ← readByte
  match fieldTypeFromU8 n with
  | .ok t => pure t
  | .error e => ReadM.throw (DecodeError.ofProtocolError e)

/-- The body of `read_list_begin` in both readers; the size is `read_i32() as usize`. -/
def readListBegin (readByte : ReadM σ UInt8) (readI32 : ReadM σ (BitVec 32)) :
    ReadM σ TListIdentifier := do
  let elementType ← readTType readByte
  let size ← readI32
  pure ⟨elementType, i32AsUsize size⟩

/-- The body of `read_set_begin` in both readers. -/
def readSetBegin (readByte : ReadM σ UInt8) (readI32 : ReadM σ (BitVec 32)) :
    ReadM σ TSetIdentifier := do
  let elementType ← readTType readByte
  let size ← readI32
  pure ⟨elementType, i32AsUsize size⟩

/-- The body of `read_map_begin` in both readers. -/
def readMapBegin (readByte : ReadM σ UInt8) (readI32 : ReadM σ (BitVec 32)) :
    ReadM σ TMapIdentifier := do
  let keyType ← readTType readByte
  let valueType ← readTType readByte
  let size ← readI32
  pure ⟨keyType, valueType, i32AsUsize size⟩

end Bodies

/-- `TInputProtocol`, and `TAsyncInputProtocol` with it, as reads on a reader's state. -/
structure TInputProtocol (σ : Type) where
  readMessageBegin : ReadM σ TMessageIdentifier
  readMessageEnd : ReadM σ Unit
  readStructBegin : ReadM σ (Option TStructIdentifier)
  readStructEnd : ReadM σ Unit
  readFieldBegin : ReadM σ TFieldIdentifier
  readFieldEnd : ReadM σ Unit
  readBool : ReadM σ Bool
  readBytes : ReadM σ (List UInt8)
  readUuid : ReadM σ Uuid
  readString : ReadM σ (List UInt8)
  readFaststr : ReadM σ (List UInt8)
  readByte : ReadM σ UInt8
  readI8 : ReadM σ (BitVec 8)
  readI16 : ReadM σ (BitVec 16)
  readI32 : ReadM σ (BitVec 32)
  readI64 : ReadM σ (BitVec 64)
  readDouble : ReadM σ (BitVec 64)
  readListBegin : ReadM σ TListIdentifier
  readListEnd : ReadM σ Unit
  readSetBegin : ReadM σ TSetIdentifier
  readSetEnd : ReadM σ Unit
  readMapBegin : ReadM σ TMapIdentifier
  readMapEnd : ReadM σ Unit
  readBytesVec : ReadM σ (List UInt8)

/-- A reader whose composite methods are the shared bodies over its own primitives. -/
structure TInputProtocol.Shared {σ : Type} (P : TInputProtocol σ) : Prop where
  messageBegin : P.readMessageBegin = Pilota.readMessageBegin P.readI32 P.readFaststr
  messageEnd : P.readMessageEnd = pure ()
  structBegin : P.readStructBegin = pure none
  structEnd : P.readStructEnd = pure ()
  fieldBegin : P.readFieldBegin = Pilota.readFieldBegin P.readByte P.readI16
  fieldEnd : P.readFieldEnd = pure ()
  bool : P.readBool = Pilota.readBool P.readI8
  listBegin : P.readListBegin = Pilota.readListBegin P.readByte P.readI32
  listEnd : P.readListEnd = pure ()
  setBegin : P.readSetBegin = Pilota.readSetBegin P.readByte P.readI32
  setEnd : P.readSetEnd = pure ()
  mapBegin : P.readMapBegin = Pilota.readMapBegin P.readByte P.readI32
  mapEnd : P.readMapEnd = pure ()

/-- A call a generated decoder makes on an input protocol. -/
inductive ReadCall
  | messageBegin | messageEnd | structBegin | structEnd | fieldBegin | fieldEnd | bool | bytes
  | uuid | string | faststr | byte | i8 | i16 | i32 | i64 | double | listBegin | listEnd
  | setBegin | setEnd | mapBegin | mapEnd | bytesVec
  deriving DecidableEq, Repr

inductive Value
  | unit
  | message (identifier : TMessageIdentifier)
  | struct (identifier : Option TStructIdentifier)
  | field (identifier : TFieldIdentifier)
  | bool (b : Bool)
  | bytes (b : List UInt8)
  | uuid (u : Uuid)
  | byte (b : UInt8)
  | i8 (i : BitVec 8)
  | i16 (i : BitVec 16)
  | i32 (i : BitVec 32)
  | i64 (i : BitVec 64)
  | double (d : BitVec 64)
  | list (identifier : TListIdentifier)
  | set (identifier : TSetIdentifier)
  | map (identifier : TMapIdentifier)
  deriving DecidableEq

section Calls

variable {σ : Type} (P : TInputProtocol σ)

def dispatch : ReadCall → ReadM σ Value
  | .messageBegin => .message <$> P.readMessageBegin
  | .messageEnd => (fun _ => .unit) <$> P.readMessageEnd
  | .structBegin => .struct <$> P.readStructBegin
  | .structEnd => (fun _ => .unit) <$> P.readStructEnd
  | .fieldBegin => .field <$> P.readFieldBegin
  | .fieldEnd => (fun _ => .unit) <$> P.readFieldEnd
  | .bool => .bool <$> P.readBool
  | .bytes => .bytes <$> P.readBytes
  | .uuid => .uuid <$> P.readUuid
  | .string => .bytes <$> P.readString
  | .faststr => .bytes <$> P.readFaststr
  | .byte => .byte <$> P.readByte
  | .i8 => .i8 <$> P.readI8
  | .i16 => .i16 <$> P.readI16
  | .i32 => .i32 <$> P.readI32
  | .i64 => .i64 <$> P.readI64
  | .double => .double <$> P.readDouble
  | .listBegin => .list <$> P.readListBegin
  | .listEnd => (fun _ => .unit) <$> P.readListEnd
  | .setBegin => .set <$> P.readSetBegin
  | .setEnd => (fun _ => .unit) <$> P.readSetEnd
  | .mapBegin => .map <$> P.readMapBegin
  | .mapEnd => (fun _ => .unit) <$> P.readMapEnd
  | .bytesVec => .bytes <$> P.readBytesVec

/-- A call sequence; the first error ends it. -/
def run : List ReadCall → ReadM σ (List Value)
  | [] => pure []
  | c :: cs => do
    let v ← dispatch P c
    let vs ← run cs
    pure (v :: vs)

/-- A call sequence call by call: each result with the bytes consumed after it, up to the first
error. -/
def trace (consumed : σ → Nat) : List ReadCall → σ → Option (List (Except DecodeError Value × Nat))
  | [], _ => some []
  | c :: cs, s => (dispatch P c s).bind fun
    | (.ok v, s') => (trace consumed cs s').map ((.ok v, consumed s') :: ·)
    | (.error e, s') => some [(.error e, consumed s')]

theorem run_append_of_ok {cs₁ : List ReadCall} (cs₂ : List ReadCall) {s s₁ : σ}
    {vs₁ : List Value} (first : run P cs₁ s = some (.ok vs₁, s₁)) :
    run P (cs₁ ++ cs₂) s = (run P cs₂ s₁).map fun p => ((vs₁ ++ ·) <$> p.1, p.2) := by
  induction cs₁ generalizing s vs₁ with
  | nil =>
    cases first
    rw [List.nil_append]
    cases run P cs₂ s₁ with
    | none => rfl
    | some p =>
      obtain ⟨r, s₂⟩ := p
      cases r <;> rfl
  | cons c cs ih =>
    rw [run, ReadM.bind_apply] at first
    obtain ⟨⟨r, s'⟩, stepped, rest⟩ := Option.bind_eq_some.mp first
    cases r with
    | error e => cases rest
    | ok v =>
      dsimp only at rest
      rw [ReadM.bind_apply] at rest
      obtain ⟨⟨r', s''⟩, ranRest, done⟩ := Option.bind_eq_some.mp rest
      cases r' with
      | error e => cases done
      | ok vs =>
        cases done
        rw [List.cons_append, run, ReadM.bind_apply, stepped, Option.some_bind]
        show (run P (cs ++ cs₂) s').bind _ = _
        rw [ih ranRest]
        cases run P cs₂ s₁ with
        | none => rfl
        | some p =>
          obtain ⟨r₂, s₂⟩ := p
          cases r₂ <;> rfl

end Calls

end Pilota
