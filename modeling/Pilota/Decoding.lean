import Pilota.Reader

/-! Decoding a layout: a read decodes the bytes `bs` to a value when, from any state whose
unread input starts with `bs`, it returns that value and leaves the rest unread. What the
unread input of a state is, `At`, is the reader's own. Stated for a reader's primitives, it
lifts here, once, to the shared bodies, to every read call that matches an encode call, and to
every call sequence in the format's domain. -/

namespace Pilota

/-- The read calls that match an encode call. -/
def WriteCall.reads : WriteCall → List ReadCall
  | .messageBegin _ => [.messageBegin]
  | .messageEnd => [.messageEnd]
  | .structBegin => [.structBegin]
  | .structEnd => [.structEnd]
  | .fieldBegin _ _ | .fieldStop => [.fieldBegin]
  | .fieldEnd => [.fieldEnd]
  | .bool _ => [.bool]
  | .bytes _ | .bytesVec _ => [.bytes, .bytesVec]
  | .string _ | .faststr _ => [.string, .faststr]
  | .byte _ => [.byte]
  | .uuid _ => [.uuid]
  | .i8 _ => [.i8]
  | .i16 _ => [.i16]
  | .i32 _ => [.i32]
  | .i64 _ => [.i64]
  | .double _ => [.double]
  | .listBegin _ => [.listBegin]
  | .listEnd => [.listEnd]
  | .setBegin _ => [.setBegin]
  | .setEnd => [.setEnd]
  | .mapBegin _ => [.mapBegin]
  | .mapEnd => [.mapEnd]

/-- The value a matching read returns for an encode call; a field stop reads with id 0. -/
def WriteCall.value : WriteCall → Value
  | .messageBegin i => .message i
  | .structBegin => .struct none
  | .fieldBegin t id => .field ⟨none, t, some id⟩
  | .fieldStop => .field ⟨none, .stop, some 0⟩
  | .bool b => .bool b
  | .bytes b | .string b | .faststr b | .bytesVec b => .bytes b
  | .byte b => .byte b
  | .uuid u => .uuid u
  | .i8 i => .i8 i
  | .i16 i => .i16 i
  | .i32 i => .i32 i
  | .i64 i => .i64 i
  | .double d => .double d
  | .listBegin l => .list l
  | .setBegin l => .set l
  | .mapBegin m => .map m
  | .messageEnd | .structEnd | .fieldEnd | .listEnd | .setEnd | .mapEnd => .unit

/-- The format's domain: a field header is not `Stop`, and every length and size is below `2^31`. -/
def WriteCall.WellFormed : WriteCall → Prop
  | .messageBegin i => i.name.length < 2 ^ 31
  | .fieldBegin t _ => t ≠ .stop
  | .bytes b | .string b | .faststr b | .bytesVec b => b.length < 2 ^ 31
  | .listBegin l => l.size < 2 ^ 31
  | .setBegin l => l.size < 2 ^ 31
  | .mapBegin m => m.size < 2 ^ 31
  | .messageEnd | .structBegin | .structEnd | .fieldEnd | .fieldStop | .bool _ | .byte _
  | .uuid _ | .i8 _ | .i16 _ | .i32 _ | .i64 _ | .double _ | .listEnd | .setEnd | .mapEnd => True

instance : DecidablePred WriteCall.WellFormed := fun c =>
  match c with
  | .messageBegin i => inferInstanceAs (Decidable (i.name.length < 2 ^ 31))
  | .fieldBegin t _ => inferInstanceAs (Decidable (t ≠ .stop))
  | .bytes b | .string b | .faststr b | .bytesVec b =>
    inferInstanceAs (Decidable (b.length < 2 ^ 31))
  | .listBegin l => inferInstanceAs (Decidable (l.size < 2 ^ 31))
  | .setBegin l => inferInstanceAs (Decidable (l.size < 2 ^ 31))
  | .mapBegin m => inferInstanceAs (Decidable (m.size < 2 ^ 31))
  | .messageEnd | .structBegin | .structEnd | .fieldEnd | .fieldStop | .bool _ | .byte _
  | .uuid _ | .i8 _ | .i16 _ | .i32 _ | .i64 _ | .double _ | .listEnd | .setEnd | .mapEnd =>
    isTrue trivial

/-- A call as the readers recover it: each size or length `n` comes back as `n as i32 as usize`,
and a payload keeps that many of its bytes. -/
def WriteCall.recovered : WriteCall → WriteCall
  | .listBegin l => .listBegin ⟨l.elementType, i32AsUsize (usizeAsI32 l.size)⟩
  | .setBegin l => .setBegin ⟨l.elementType, i32AsUsize (usizeAsI32 l.size)⟩
  | .mapBegin m => .mapBegin ⟨m.keyType, m.valueType, i32AsUsize (usizeAsI32 m.size)⟩
  | .bytes b => .bytes (b.take (i32AsUsize (usizeAsI32 b.length)))
  | .string b => .string (b.take (i32AsUsize (usizeAsI32 b.length)))
  | .faststr b => .faststr (b.take (i32AsUsize (usizeAsI32 b.length)))
  | .bytesVec b => .bytesVec (b.take (i32AsUsize (usizeAsI32 b.length)))
  | c => c

/-- The calls that write a length or size word. -/
def WriteCall.Prefixed : WriteCall → Prop
  | .listBegin _ | .setBegin _ | .mapBegin _ | .bytes _ | .string _ | .faststr _ | .bytesVec _ =>
    True
  | _ => False

/-- A payload whose length word is negative as an `i32`. -/
def WriteCall.NegativeLength : WriteCall → Prop
  | .bytes b | .string b | .faststr b | .bytesVec b => 2 ^ 31 ≤ b.length % 2 ^ 32
  | _ => False

instance : DecidablePred WriteCall.Prefixed := fun c =>
  match c with
  | .listBegin _ | .setBegin _ | .mapBegin _ | .bytes _ | .string _ | .faststr _ | .bytesVec _ =>
    isTrue trivial
  | .messageBegin _ | .messageEnd | .structBegin | .structEnd | .fieldBegin _ _ | .fieldEnd
  | .fieldStop | .bool _ | .byte _ | .uuid _ | .i8 _ | .i16 _ | .i32 _ | .i64 _ | .double _
  | .listEnd | .setEnd | .mapEnd => isFalse id

instance : DecidablePred WriteCall.NegativeLength := fun c =>
  match c with
  | .bytes b | .string b | .faststr b | .bytesVec b =>
    inferInstanceAs (Decidable (2 ^ 31 ≤ b.length % 2 ^ 32))
  | .messageBegin _ | .messageEnd | .structBegin | .structEnd | .fieldBegin _ _ | .fieldEnd
  | .fieldStop | .bool _ | .byte _ | .uuid _ | .i8 _ | .i16 _ | .i32 _ | .i64 _ | .double _
  | .listBegin _ | .listEnd | .setBegin _ | .setEnd | .mapBegin _ | .mapEnd => isFalse id

theorem be32_i32AsUsize_usizeAsI32 (n : Nat) : be32 (i32AsUsize (usizeAsI32 n)) = be32 n := by
  rw [be32, beBytes_i32AsUsize, toBeBytes_usizeAsI32]

theorem length_take_recovered (b : List UInt8) (nonneg : ¬2 ^ 31 ≤ b.length % 2 ^ 32) :
    (b.take (i32AsUsize (usizeAsI32 b.length))).length = b.length % 2 ^ 32 := by
  rw [i32AsUsize_usizeAsI32, if_pos (by omega), List.length_take]
  exact Nat.min_eq_left (Nat.mod_le _ _)

theorem encoding_eq_recovered_append (c : WriteCall) (nonneg : ¬c.NegativeLength) :
    ∃ more, c.encoding = c.recovered.encoding ++ more := by
  cases c
  case bytes b | string b | faststr b | bytesVec b =>
    refine ⟨b.drop (i32AsUsize (usizeAsI32 b.length)), ?_⟩
    show be32 b.length ++ b = be32 (b.take _).length ++ b.take _ ++ b.drop _
    rw [List.append_assoc, List.take_append_drop, length_take_recovered b nonneg]
    exact congrArg (· ++ b) (beBytes_mod 4 b.length).symm
  case listBegin l | setBegin l =>
    exact ⟨[], by simp [WriteCall.recovered, WriteCall.encoding, be32_i32AsUsize_usizeAsI32]⟩
  case mapBegin m =>
    exact ⟨[], by simp [WriteCall.recovered, WriteCall.encoding, be32_i32AsUsize_usizeAsI32]⟩
  all_goals exact ⟨[], (List.append_nil _).symm⟩

theorem fieldTypeFromU8_toU8 (t : TType) : fieldTypeFromU8 t.toU8 = .ok t := by
  cases t <;> rfl

section Decoding

variable {σ α β : Type} (At : σ → List UInt8 → Prop)

/-- `x` decodes `bs` to `v`: from unread input `bs ++ rest` it returns `v` and leaves `rest`. -/
def Decodes (x : ReadM σ α) (bs : List UInt8) (v : α) : Prop :=
  ∀ s rest, At s (bs ++ rest) → ∃ s', x s = some (.ok v, s') ∧ At s' rest

theorem decodes_pure (v : α) : Decodes At (pure v) [] v :=
  fun s _ unread => ⟨s, rfl, unread⟩

theorem decodes_bind {x : ReadM σ α} {f : α → ReadM σ β} {bs cs : List UInt8} {a : α} {b : β}
    (first : Decodes At x bs a) (rest : Decodes At (f a) cs b) :
    Decodes At (x >>= f) (bs ++ cs) b := by
  intro s more unread
  obtain ⟨s₁, ranFirst, unread₁⟩ := first s (cs ++ more) (by simpa using unread)
  obtain ⟨s', ranRest, unread'⟩ := rest s₁ more unread₁
  exact ⟨s', by rw [ReadM.bind_apply, ranFirst]; exact ranRest, unread'⟩

theorem decodes_map {x : ReadM σ α} {bs : List UInt8} {a : α} (f : α → β)
    (first : Decodes At x bs a) : Decodes At (f <$> x) bs (f a) := by
  intro s rest unread
  obtain ⟨s', ran, unread'⟩ := first s rest unread
  exact ⟨s', by rw [ReadM.map_eq, ReadM.bind_apply, ran]; rfl,
    unread'⟩

/-! The shared bodies, over decoding primitives. -/

variable {At}

theorem decodes_readTType {byte : ReadM σ UInt8} (oneByte : ∀ b, Decodes At byte [b] b)
    (t : TType) : Decodes At (readTType byte) [t.toU8] t := by
  show Decodes At _ ([t.toU8] ++ []) t
  refine decodes_bind At (oneByte t.toU8) ?_
  simp only [fieldTypeFromU8_toU8]
  exact decodes_pure At t

theorem decodes_readMessageBegin {i32 : ReadM σ (BitVec 32)} {faststr : ReadM σ (List UInt8)}
    (int : ∀ x, Decodes At i32 (toBeBytes x) x)
    (str : ∀ bs : List UInt8, bs.length < 2 ^ 31 → Decodes At faststr (be32 bs.length ++ bs) bs)
    (i : TMessageIdentifier) (short : i.name.length < 2 ^ 31) :
    Decodes At (readMessageBegin i32 faststr) (WriteCall.messageBegin i).encoding i := by
  obtain ⟨name, t, seq⟩ := i
  have layout : (WriteCall.messageBegin ⟨name, t, seq⟩).encoding =
      toBeBytes (versionWord t) ++ ((be32 name.length ++ name) ++ toBeBytes seq) := by
    simp only [WriteCall.encoding, toBeBytes_versionWord, List.append_assoc]
    rfl
  have header : ¬ 0 < (versionWord t).toInt ∧
      TMessageType.tryFrom (UInt8.ofNat (versionWord t &&& 0xf#32).toNat) = some t ∧
      (versionWord t &&& versionMask = version1) := by
    cases t <;> decide
  rw [layout]
  refine decodes_bind At (int _) ?_
  simp only [header, if_false, ne_eq, not_true_eq_false]
  exact decodes_bind At (str name short) (decodes_map At _ (int seq))

/-- What the header check of `read_message_begin` decides about a word: a message type's code, or
the error's kind. -/
def headerVerdict (w : BitVec 32) : Except DecodeErrorKind Nat :=
  if w.toNat / 65536 = 0x8001 ∧ 1 ≤ w.toNat % 16 ∧ w.toNat % 16 ≤ 4 then .ok (w.toNat % 16)
  else if (0 < w.toNat ∧ w.toNat < 2 ^ 31) ∨ (1 ≤ w.toNat % 16 ∧ w.toNat % 16 ≤ 4) then
    .error .badVersion
  else .error .invalidData

example : headerVerdict 0x80020001#32 = .error .badVersion := rfl

/-- Over a word `w`, a name and a sequence number, the body of `read_message_begin` returns what
`headerVerdict` decides; the nibble is checked before the version. -/
theorem readMessageBegin_header {i32 : ReadM σ (BitVec 32)} {faststr : ReadM σ (List UInt8)}
    (int : ∀ x, Decodes At i32 (toBeBytes x) x)
    (str : ∀ bs : List UInt8, bs.length < 2 ^ 31 → Decodes At faststr (be32 bs.length ++ bs) bs)
    (w : BitVec 32) (name : List UInt8) (short : name.length < 2 ^ 31) (seq : BitVec 32)
    (s : σ) (rest : List UInt8)
    (unread : At s (toBeBytes w ++ ((be32 name.length ++ name) ++ toBeBytes seq) ++ rest)) :
    ∃ r s', readMessageBegin i32 faststr s = some (r, s') ∧
      (r.map fun i => (i.name, i.messageType.toU8.toNat, i.sequenceNumber)).mapError
          DecodeError.kind = (headerVerdict w).map fun code => (name, code, seq) := by
  obtain ⟨s₁, readWord, unread₁⟩ := int w s _ (by rwa [List.append_assoc] at unread)
  rw [readMessageBegin, ReadM.bind_apply, readWord, Option.some_bind]
  dsimp only
  by_cases positive : 0 < w.toInt
  · have small := (toInt_pos_iff w).mp positive
    refine ⟨_, _, by rw [if_pos positive]; rfl, ?_⟩
    rw [headerVerdict, if_neg (by omega), if_pos (.inl small)]
    rfl
  rw [if_neg positive]
  cases named : TMessageType.tryFrom (UInt8.ofNat (w &&& 0xf#32).toNat) with
  | none =>
    have invalid : ¬(1 ≤ w.toNat % 16 ∧ w.toNat % 16 ≤ 4) := fun nibble => by
      obtain ⟨t, same⟩ := (TMessageType.exists_toU8 _).mpr nibble
      rw [(tryFrom_nibble w t).mpr same.symm] at named
      cases named
    refine ⟨_, _, rfl, ?_⟩
    rw [headerVerdict, if_neg (fun accepted => invalid accepted.2),
      if_neg (not_or.mpr ⟨mt (toInt_pos_iff w).mpr positive, invalid⟩)]
    rfl
  | some t =>
    have typed := (tryFrom_nibble w t).mp named
    have valid := (TMessageType.exists_toU8 _).mp ⟨t, typed.symm⟩
    by_cases version : w &&& versionMask = version1
    · have decoded : Decodes At
          (faststr >>= fun name' => (fun sn => (⟨name', t, sn⟩ : TMessageIdentifier)) <$> i32)
          ((be32 name.length ++ name) ++ toBeBytes seq) ⟨name, t, seq⟩ :=
        decodes_bind At (str name short) (decodes_map At _ (int seq))
      obtain ⟨s', ran, -⟩ := decoded s₁ rest unread₁
      refine ⟨_, _, by simp only [version, ne_eq, not_true_eq_false, if_false]; exact ran, ?_⟩
      rw [headerVerdict, if_pos ⟨(and_versionMask_eq_version1 w).mp version, valid⟩, typed]
      rfl
    · refine ⟨_, _, by simp only [version, ne_eq, not_false_eq_true, if_true]; rfl, ?_⟩
      rw [headerVerdict, if_neg (fun ⟨versioned, _⟩ =>
        version ((and_versionMask_eq_version1 w).mpr versioned)), if_pos (.inr valid)]
      rfl

theorem decodes_readFieldBegin {byte : ReadM σ UInt8} {i16 : ReadM σ (BitVec 16)}
    (oneByte : ∀ b, Decodes At byte [b] b) (int : ∀ x, Decodes At i16 (toBeBytes x) x)
    (t : TType) (id : BitVec 16) (notStop : t ≠ .stop) :
    Decodes At (readFieldBegin byte i16) (WriteCall.fieldBegin t id).encoding ⟨none, t, some id⟩ := by
  show Decodes At _ ([t.toU8] ++ toBeBytes id) _
  refine decodes_bind At (oneByte t.toU8) ?_
  simp only [TType.tryFrom_toU8, notStop, if_false]
  exact decodes_map At _ (int id)

theorem decodes_readFieldBegin_stop {byte : ReadM σ UInt8} {i16 : ReadM σ (BitVec 16)}
    (oneByte : ∀ b, Decodes At byte [b] b) :
    Decodes At (readFieldBegin byte i16) WriteCall.fieldStop.encoding ⟨none, .stop, some 0⟩ := by
  show Decodes At _ ([TType.stop.toU8] ++ []) _
  refine decodes_bind At (oneByte _) ?_
  simp only [TType.tryFrom_toU8, if_true]
  exact decodes_map At _ (decodes_pure At _)

theorem decodes_readBool {i8 : ReadM σ (BitVec 8)} (int : ∀ x, Decodes At i8 (toBeBytes x) x)
    (b : Bool) : Decodes At (readBool i8) (WriteCall.bool b).encoding b := by
  cases b
  · exact decodes_map At (· != 0) (int 0)
  · exact decodes_map At (· != 0) (int 1)

theorem decodes_readListBegin {byte : ReadM σ UInt8} {i32 : ReadM σ (BitVec 32)}
    (oneByte : ∀ b, Decodes At byte [b] b) (int : ∀ x, Decodes At i32 (toBeBytes x) x)
    (l : TListIdentifier) :
    Decodes At (readListBegin byte i32) (WriteCall.listBegin l).encoding
      ⟨l.elementType, i32AsUsize (usizeAsI32 l.size)⟩ := by
  show Decodes At _ ([l.elementType.toU8] ++ be32 l.size) _
  rw [← toBeBytes_usizeAsI32]
  exact decodes_bind At (decodes_readTType oneByte _) (decodes_map At _ (int _))

theorem decodes_readSetBegin {byte : ReadM σ UInt8} {i32 : ReadM σ (BitVec 32)}
    (oneByte : ∀ b, Decodes At byte [b] b) (int : ∀ x, Decodes At i32 (toBeBytes x) x)
    (l : TSetIdentifier) :
    Decodes At (readSetBegin byte i32) (WriteCall.setBegin l).encoding
      ⟨l.elementType, i32AsUsize (usizeAsI32 l.size)⟩ := by
  show Decodes At _ ([l.elementType.toU8] ++ be32 l.size) _
  rw [← toBeBytes_usizeAsI32]
  exact decodes_bind At (decodes_readTType oneByte _) (decodes_map At _ (int _))

theorem decodes_readMapBegin {byte : ReadM σ UInt8} {i32 : ReadM σ (BitVec 32)}
    (oneByte : ∀ b, Decodes At byte [b] b) (int : ∀ x, Decodes At i32 (toBeBytes x) x)
    (m : TMapIdentifier) :
    Decodes At (readMapBegin byte i32) (WriteCall.mapBegin m).encoding
      ⟨m.keyType, m.valueType, i32AsUsize (usizeAsI32 m.size)⟩ := by
  show Decodes At _ ([m.keyType.toU8] ++ ([m.valueType.toU8] ++ be32 m.size)) _
  rw [← toBeBytes_usizeAsI32]
  exact decodes_bind At (decodes_readTType oneByte _)
    (decodes_bind At (decodes_readTType oneByte _) (decodes_map At _ (int _)))

variable (At)

/-- What the round trip needs of a reader's primitives. -/
structure PrimsDecode (P : TInputProtocol σ) : Prop where
  readByte : ∀ b, Decodes At P.readByte [b] b
  readI8 : ∀ x, Decodes At P.readI8 (toBeBytes x) x
  readI16 : ∀ x, Decodes At P.readI16 (toBeBytes x) x
  readI32 : ∀ x, Decodes At P.readI32 (toBeBytes x) x
  readI64 : ∀ x, Decodes At P.readI64 (toBeBytes x) x
  readDouble : ∀ x, Decodes At P.readDouble (toBeBytes x) x
  readUuid : ∀ u : Uuid, Decodes At P.readUuid u.toList u
  readString : ∀ bs : List UInt8, bs.length < 2 ^ 31 → Decodes At P.readString (be32 bs.length ++ bs) bs
  readFaststr : ∀ bs : List UInt8, bs.length < 2 ^ 31 → Decodes At P.readFaststr (be32 bs.length ++ bs) bs
  readBytes : ∀ bs : List UInt8, bs.length < 2 ^ 31 → Decodes At P.readBytes (be32 bs.length ++ bs) bs
  readBytesVec : ∀ bs : List UInt8, bs.length < 2 ^ 31 → Decodes At P.readBytesVec (be32 bs.length ++ bs) bs

/-- What a reader does with a negative length word: no payload read returns. -/
def PanicsOnNegative (P : TInputProtocol σ) : Prop :=
  ∀ (w : BitVec 32) s rest, w.toInt < 0 → At s (toBeBytes w ++ rest) →
    P.readBytes s = none ∧ P.readBytesVec s = none ∧ P.readString s = none ∧ P.readFaststr s = none

variable {At} {P : TInputProtocol σ}

theorem decodes_dispatch (shared : P.Shared) (prims : PrimsDecode At P) (c : WriteCall)
    (r : ReadCall) (matching : r ∈ c.reads) (domain : c.WellFormed) :
    Decodes At (dispatch P r) c.encoding c.value := by
  cases c <;> simp only [WriteCall.reads, List.mem_cons, List.mem_singleton, List.not_mem_nil,
    or_false] at matching
  case bytes b | bytesVec b =>
    rcases matching with rfl | rfl
    · exact decodes_map At _ (prims.readBytes b domain)
    · exact decodes_map At _ (prims.readBytesVec b domain)
  case string b | faststr b =>
    rcases matching with rfl | rfl
    · exact decodes_map At _ (prims.readString b domain)
    · exact decodes_map At _ (prims.readFaststr b domain)
  all_goals
    subst matching
    simp only [dispatch, shared.messageBegin, shared.messageEnd, shared.structBegin,
      shared.structEnd, shared.fieldBegin, shared.fieldEnd, shared.bool, shared.listBegin,
      shared.listEnd, shared.setBegin, shared.setEnd, shared.mapBegin, shared.mapEnd]
    apply decodes_map At
  case messageBegin i => exact decodes_readMessageBegin prims.readI32 prims.readFaststr i domain
  case fieldBegin t id => exact decodes_readFieldBegin prims.readByte prims.readI16 t id domain
  case fieldStop => exact decodes_readFieldBegin_stop prims.readByte
  case bool b => exact decodes_readBool prims.readI8 b
  case listBegin l =>
    have decoded := decodes_readListBegin prims.readByte prims.readI32 l
    rwa [i32AsUsize_usizeAsI32_of_lt domain] at decoded
  case setBegin l =>
    have decoded := decodes_readSetBegin prims.readByte prims.readI32 l
    rwa [i32AsUsize_usizeAsI32_of_lt domain] at decoded
  case mapBegin m =>
    have decoded := decodes_readMapBegin prims.readByte prims.readI32 m
    rwa [i32AsUsize_usizeAsI32_of_lt domain] at decoded
  case byte b => exact prims.readByte b
  case uuid u => exact prims.readUuid u
  case i8 i => exact prims.readI8 i
  case i16 i => exact prims.readI16 i
  case i32 i => exact prims.readI32 i
  case i64 i => exact prims.readI64 i
  case double d => exact prims.readDouble d
  all_goals exact decodes_pure At _

/-- The round trip on any reader with the shared bodies and decoding primitives. -/
theorem decodes_run (shared : P.Shared) (prims : PrimsDecode At P) {ops : List WriteCall}
    {reads : List ReadCall} (matching : List.Forall₂ (fun c r => r ∈ c.reads) ops reads)
    (domain : ∀ c ∈ ops, c.WellFormed) :
    Decodes At (run P reads) (encodingOf ops) (ops.map WriteCall.value) := by
  induction matching with
  | nil => exact decodes_pure At []
  | @cons c r cs rs first _ ih =>
    exact decodes_bind At
      (decodes_dispatch shared prims c r first (domain c (List.mem_cons_self _ _)))
      (decodes_map At _ (ih fun c' member => domain c' (List.mem_cons_of_mem _ member)))

theorem decodes_recovered (shared : P.Shared) (prims : PrimsDecode At P) (c : WriteCall)
    (r : ReadCall) (matching : r ∈ c.reads) (prefixed : c.Prefixed) (nonneg : ¬c.NegativeLength) :
    Decodes At (dispatch P r) c.recovered.encoding c.recovered.value := by
  cases c
  case bytes b | string b | faststr b | bytesVec b =>
    refine decodes_dispatch shared prims _ r matching ?_
    show (b.take _).length < 2 ^ 31
    rw [length_take_recovered b nonneg]
    exact Nat.lt_of_not_le nonneg
  all_goals simp only [WriteCall.reads, List.mem_singleton] at matching
  case listBegin l =>
    subst matching
    show Decodes At (Value.list <$> P.readListBegin) (l.elementType.toU8 :: be32 _) _
    rw [shared.listBegin, be32_i32AsUsize_usizeAsI32]
    exact decodes_map At _ (decodes_readListBegin prims.readByte prims.readI32 l)
  case setBegin l =>
    subst matching
    show Decodes At (Value.set <$> P.readSetBegin) (l.elementType.toU8 :: be32 _) _
    rw [shared.setBegin, be32_i32AsUsize_usizeAsI32]
    exact decodes_map At _ (decodes_readSetBegin prims.readByte prims.readI32 l)
  case mapBegin m =>
    subst matching
    show Decodes At (Value.map <$> P.readMapBegin) (m.keyType.toU8 :: m.valueType.toU8 :: be32 _) _
    rw [shared.mapBegin, be32_i32AsUsize_usizeAsI32]
    exact decodes_map At _ (decodes_readMapBegin prims.readByte prims.readI32 m)
  all_goals exact prefixed.elim

theorem toInt_usizeAsI32_neg {n : Nat} (negative : 2 ^ 31 ≤ n % 2 ^ 32) : (usizeAsI32 n).toInt < 0 := by
  rw [BitVec.toInt_eq_toNat_cond]
  simp only [usizeAsI32, BitVec.toNat_ofNat]
  split <;> omega

theorem dispatch_of_negative (panics : PanicsOnNegative At P) (c : WriteCall) (r : ReadCall)
    (matching : r ∈ c.reads) (negative : c.NegativeLength) {s : σ} {rest : List UInt8}
    (unread : At s (c.encoding ++ rest)) : dispatch P r s = none := by
  cases c
  case bytes b | string b | faststr b | bytesVec b =>
    rw [WriteCall.encoding, List.append_assoc, ← toBeBytes_usizeAsI32] at unread
    obtain ⟨bytes, vec, string, faststr⟩ := panics _ s _ (toInt_usizeAsI32_neg negative) unread
    simp only [WriteCall.reads, List.mem_cons, List.mem_singleton, List.not_mem_nil,
      or_false] at matching
    rcases matching with rfl | rfl <;>
      simp only [dispatch, ReadM.map_eq, ReadM.bind_apply, bytes, vec, string, faststr,
        Option.none_bind]
  all_goals exact negative.elim

/-- Over the layout of a call with a length or size word, a reader returns the call as recovered,
or, where a payload's word is negative, does not return. -/
theorem run_recovered (shared : P.Shared) (prims : PrimsDecode At P) (panics : PanicsOnNegative At P)
    (c : WriteCall) (r : ReadCall) (matching : r ∈ c.reads) (prefixed : c.Prefixed) {s : σ}
    {rest : List UInt8} (unread : At s (c.encoding ++ rest)) :
    (¬c.NegativeLength → ∃ s' more, run P [r] s = some (.ok [c.recovered.value], s') ∧
      c.encoding = c.recovered.encoding ++ more ∧ At s' (more ++ rest)) ∧
    (c.NegativeLength → run P [r] s = none) := by
  refine ⟨fun nonneg => ?_, fun negative => ?_⟩
  · obtain ⟨more, split⟩ := encoding_eq_recovered_append c nonneg
    have decoded : Decodes At (run P [r]) (c.recovered.encoding ++ []) [c.recovered.value] :=
      decodes_bind At (decodes_recovered shared prims c r matching prefixed nonneg)
        (decodes_map At _ (decodes_pure At []))
    rw [split, List.append_assoc, ← List.append_nil c.recovered.encoding] at unread
    obtain ⟨s', ran, unread'⟩ := decoded s _ unread
    exact ⟨s', more, ran, split, unread'⟩
  · rw [run, ReadM.bind_apply, dispatch_of_negative panics c r matching negative unread,
      Option.none_bind]

end Decoding

end Pilota
