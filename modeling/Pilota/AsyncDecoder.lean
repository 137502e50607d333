import Pilota.Decoder

/-! The streaming reader, `TAsyncInputProtocol for TAsyncBinaryProtocol<R>`, with `R` an
in-memory source. Every payload is copied into a fresh `vec![0; len]`, and a read past the end
of the source is an I/O error instead of undefined behaviour. Over the same input it agrees with
the zero copy reader wherever that one is defined, and the converse holds wherever it does not
run dry. -/

namespace Pilota

/-- The reader's source `R`, in memory (a `&[u8]`): the bytes it yields and how many it has
yielded. It fails only by running dry. -/
structure ByteSource where
  data : List UInt8
  pos : Nat

namespace AsyncDecoder

/-- A read past the end: the `UnexpectedEof` of `read_exact`, which `?` wraps into a `DecodeError`
of kind `IOError` with an empty message. -/
def eofError : DecodeError := ⟨.ioError, ""⟩

/-- `read_exact`, and the fixed-width reads of `AsyncReadExt`: the next `n` bytes, or the end of
the source. -/
def readExact (n : Nat) : ReadM ByteSource (List UInt8) := fun b =>
  if b.pos + n ≤ b.data.length then
    some (.ok ((b.data.drop b.pos).take n), { b with pos := b.pos + n })
  else some (.error eofError, { b with pos := b.data.length })

/-- `vec![0; len]`: a panic past `isize::MAX`. -/
def vecZeroed (len : Nat) : ReadM ByteSource Unit := fun b =>
  if len ≤ isizeMax then some (.ok (), b) else none

def readByte : ReadM ByteSource UInt8 := (fun val => UInt8.ofNat (ofBeBytes val)) <$> readExact 1
def readI8 : ReadM ByteSource (BitVec 8) := fromBeBytes 8 <$> readExact 1
def readI16 : ReadM ByteSource (BitVec 16) := fromBeBytes 16 <$> readExact 2
def readI32 : ReadM ByteSource (BitVec 32) := fromBeBytes 32 <$> readExact 4
def readI64 : ReadM ByteSource (BitVec 64) := fromBeBytes 64 <$> readExact 8

/-- `read_double`, through `read_f64`, kept as the bit pattern. -/
def readDouble : ReadM ByteSource (BitVec 64) := fromBeBytes 64 <$> readExact 8

def readUuid : ReadM ByteSource Uuid := Uuid.ofBytes <$> readExact 16

/-- `read_bytes_vec`: the length, a zeroed vector of it, filled by `read_exact`. -/
def readBytesVec : ReadM ByteSource (List UInt8) := do
  let len := i32AsUsize (← readI32)
  vecZeroed len
  readExact len

/-- `read_bytes`: `read_bytes_vec` into `Bytes`. -/
def readBytes : ReadM ByteSource (List UInt8) := readBytesVec

/-- `read_string`: the body of `read_bytes_vec`. -/
def readString : ReadM ByteSource (List UInt8) := do
  let len := i32AsUsize (← readI32)
  vecZeroed len
  readExact len

/-- `read_faststr`: `read_string` into a `FastStr`. -/
def readFaststr : ReadM ByteSource (List UInt8) := readString

def readMessageBegin : ReadM ByteSource TMessageIdentifier :=
  Pilota.readMessageBegin readI32 readFaststr

def readFieldBegin : ReadM ByteSource TFieldIdentifier := Pilota.readFieldBegin readByte readI16
def readBool : ReadM ByteSource Bool := Pilota.readBool readI8
def readListBegin : ReadM ByteSource TListIdentifier := Pilota.readListBegin readByte readI32
def readSetBegin : ReadM ByteSource TSetIdentifier := Pilota.readSetBegin readByte readI32
def readMapBegin : ReadM ByteSource TMapIdentifier := Pilota.readMapBegin readByte readI32

def protocol : TInputProtocol ByteSource where
  readMessageBegin := readMessageBegin
  readMessageEnd := pure ()
  readStructBegin := pure none
  readStructEnd := pure ()
  readFieldBegin := readFieldBegin
  readFieldEnd := pure ()
  readBool := readBool
  readBytes := readBytes
  readUuid := readUuid
  readString := readString
  readFaststr := readFaststr
  readByte := readByte
  readI8 := readI8
  readI16 := readI16
  readI32 := readI32
  readI64 := readI64
  readDouble := readDouble
  readListBegin := readListBegin
  readListEnd := pure ()
  readSetBegin := readSetBegin
  readSetEnd := pure ()
  readMapBegin := readMapBegin
  readMapEnd := pure ()
  readBytesVec := readBytesVec

theorem shared : protocol.Shared :=
  ⟨rfl, rfl, rfl, rfl, rfl, rfl, rfl, rfl, rfl, rfl, rfl, rfl, rfl⟩

theorem readExact_of_le {n : Nat} {b : ByteSource} (fits : b.pos + n ≤ b.data.length) :
    readExact n b = some (.ok ((b.data.drop b.pos).take n), { b with pos := b.pos + n }) := by
  simp [readExact, fits]

theorem readExact_of_not_le {n : Nat} {b : ByteSource} (short : ¬b.pos + n ≤ b.data.length) :
    readExact n b = some (.error eofError, { b with pos := b.data.length }) := by
  simp [readExact, short]

theorem vecZeroed_of_le {len : Nat} {b : ByteSource} (fits : len ≤ isizeMax) :
    vecZeroed len b = some (.ok (), b) := by
  simp [vecZeroed, fits]

/-! The primitives decode their layouts. -/

/-- The unread input of a source that yields `s`. -/
def Unread (s : List UInt8) (b : ByteSource) (rest : List UInt8) : Prop :=
  b.data = s ∧ b.pos ≤ s.length ∧ s.drop b.pos = rest

variable {s : List UInt8}

theorem decodes_readExact (bs : List UInt8) : Decodes (Unread s) (readExact bs.length) bs bs := by
  rintro b rest ⟨rfl, within, unread⟩
  have sizes := congrArg List.length unread
  simp only [List.length_drop, List.length_append] at sizes
  rw [readExact_of_le (by omega), unread, List.take_left]
  exact ⟨_, rfl, rfl, by simp only; omega, by rw [← List.drop_drop, unread, List.drop_left]⟩

theorem decodes_fixed (w : Nat) (whole : w % 8 = 0) (x : BitVec w) :
    Decodes (Unread s) (fromBeBytes w <$> readExact (w / 8)) (toBeBytes x) x := by
  have decoded := decodes_map (Unread s) (fromBeBytes w) (decodes_readExact (toBeBytes x))
  rwa [length_toBeBytes, fromBeBytes_toBeBytes x whole] at decoded

theorem decodes_prefixed (bs : List UInt8) (short : bs.length < 2 ^ 31) :
    Decodes (Unread s) readString (be32 bs.length ++ bs) bs := by
  rw [← toBeBytes_usizeAsI32]
  refine decodes_bind (Unread s) (decodes_fixed 32 rfl _) ?_
  show Decodes (Unread s) (vecZeroed _ >>= fun _ => readExact _) ([] ++ bs) bs
  rw [i32AsUsize_usizeAsI32_of_lt short]
  refine decodes_bind (Unread s) (fun b rest unread => ⟨b, vecZeroed_of_le ?_, unread⟩)
    (decodes_readExact bs)
  unfold isizeMax
  omega

theorem payloads_of_negative_length {b : ByteSource} {len : BitVec 32} {rest : List UInt8}
    (negative : len.toInt < 0) (unread : Unread s b (toBeBytes len ++ rest)) :
    readBytes b = none ∧ readBytesVec b = none ∧ readString b = none ∧ readFaststr b = none := by
  obtain ⟨b', word, -⟩ := decodes_fixed 32 rfl len b rest unread
  have panics : readString b = none := by
    show (readI32 >>= fun x => vecZeroed (i32AsUsize x) >>= fun _ => readExact (i32AsUsize x)) b =
      none
    rw [ReadM.bind_apply, show readI32 b = _ from word, Option.some_bind]
    simp [ReadM.bind_apply, vecZeroed, isizeMax_lt_i32AsUsize negative]
  exact ⟨panics, panics, panics, panics⟩

theorem panicsOnNegative : PanicsOnNegative (Unread s) protocol :=
  fun _ _ _ negative unread => payloads_of_negative_length negative unread

theorem pos_add_length {b : ByteSource} {rest : List UInt8} (unread : Unread s b rest) :
    b.pos + rest.length = s.length := by
  rw [← unread.2.2, List.length_drop]
  have := unread.2.1
  omega

variable (s)

theorem prims_decode : PrimsDecode (Unread s) protocol where
  readByte b := by
    have decoded :=
      decodes_map (Unread s) (fun val => UInt8.ofNat (ofBeBytes val)) (decodes_readExact [b])
    show Decodes (Unread s)
      ((fun val => UInt8.ofNat (ofBeBytes val)) <$> readExact [b].length) [b] b
    simpa only [ofBeBytes_singleton, uint8_ofNat_toNat] using decoded
  readI8 := decodes_fixed 8 rfl
  readI16 := decodes_fixed 16 rfl
  readI32 := decodes_fixed 32 rfl
  readI64 := decodes_fixed 64 rfl
  readDouble := decodes_fixed 64 rfl
  readUuid u := by
    have decoded := decodes_map (Unread s) Uuid.ofBytes (decodes_readExact u.toList)
    rw [Mathlib.Vector.toList_length] at decoded
    intro b rest unread
    obtain ⟨b', ran, unread'⟩ := decoded b rest unread
    refine ⟨b', ?_, unread'⟩
    show (Uuid.ofBytes <$> readExact 16) b = _
    rw [ran, Uuid.ofBytes_self]
  readString := decodes_prefixed
  readFaststr := decodes_prefixed
  readBytes := decodes_prefixed
  readBytesVec := decodes_prefixed

/-! The two readers in step. -/

/-- The two readers over the same input, in step: the same bytes consumed, and an input that fits
in a slice, as `slice::from_raw_parts_mut` requires of `buf`. -/
structure InStep (d : Decoder) (b : ByteSource) : Prop where
  holds : d.Inv d.data
  source : b.data = d.data
  consumed : b.pos = d.consumed
  fits : d.data.length ≤ isizeMax

/-- `x` takes the next `n` bytes of the zero copy reader's input, wherever it is defined. -/
def Takes (x : ReadM Decoder (List UInt8)) (n : Nat) : Prop :=
  ∀ d r d', d.Inv d.data → x d = some (r, d') →
    r = .ok ((d.data.drop d.consumed).take n) ∧ d'.Inv d.data ∧ d'.consumed = d.consumed + n ∧
      d.consumed + n ≤ d.data.length

theorem loadBuf_takes (n : Nat) : Takes (Decoder.loadBuf n) n := by
  intro d r d' holds ran
  have kept := Decoder.loadBuf_preserves _ n d r d' holds ran
  obtain ⟨room, rfl, rfl⟩ := Decoder.loadBuf_eq_some.mp ran
  have view := holds.view
  have ends := holds.ends
  rw [view] at room
  exact ⟨by rw [view]; rfl, kept, by simp [Decoder.consumed, Nat.add_assoc],
    by simp [Decoder.consumed] at room ⊢; omega⟩

theorem splitPayload_takes (n : Nat) : Takes (Decoder.splitPayload n) n := by
  intro d r d' holds ran
  have kept := Decoder.splitPayload_preserves _ n d r d' holds ran
  obtain ⟨advanced, room, rfl, rfl⟩ := Decoder.splitPayload_eq_some.mp ran
  have ends := holds.ends
  exact ⟨rfl, kept, by simp [Decoder.consumed], by simp [Decoder.consumed]; omega⟩

theorem sim_takes {x : ReadM Decoder (List UInt8)} {n : Nat} (takes : Takes x n) :
    Sim InStep (fun _ => False) x (readExact n) := by
  rintro d ⟨_, _⟩ r d' ⟨holds, rfl, rfl, fits⟩ ran _
  obtain ⟨rfl, holds', consumed', within⟩ := takes d r d' holds ran
  refine ⟨_, readExact_of_le within, ?_, ?_, consumed'.symm, ?_⟩
  · rw [holds'.input]; exact holds'
  · exact holds'.input.symm
  · rw [holds'.input]; exact fits

theorem sim_takes_vec {x : ReadM Decoder (List UInt8)} {n : Nat} (takes : Takes x n) :
    Sim InStep (fun _ => False) x (vecZeroed n >>= fun _ => readExact n) := by
  intro d b r d' inStep ran _
  have fits : n ≤ isizeMax := by
    have := (takes d r d' inStep.holds ran).2.2.2
    have := inStep.fits
    omega
  obtain ⟨b', readOk, inStep'⟩ := sim_takes takes d b r d' inStep ran fun _ _ => id
  exact ⟨b', by rw [ReadM.bind_apply, vecZeroed_of_le fits]; exact readOk, inStep'⟩

theorem sim_readUuid : Sim InStep (fun _ => False) Decoder.readUuid readUuid := by
  rintro d ⟨_, _⟩ r d' ⟨holds, rfl, rfl, fits⟩ ran _
  have kept := Decoder.readUuid_preserves _ d r d' holds ran
  obtain ⟨room, rfl, rfl⟩ := Decoder.readUuid_eq_some.mp ran
  have ends := holds.ends
  refine ⟨⟨d.data, d.consumed + 16⟩, ?_, kept, rfl,
    by simp [Decoder.consumed, Nat.add_assoc], fits⟩
  show (Uuid.ofBytes <$> readExact 16) _ = _
  rw [ReadM.map_eq, ReadM.bind_apply, readExact_of_le (by simp only [Decoder.consumed]; omega)]
  rfl

theorem prims_inStep (threshold : Nat) :
    Prims (Sim InStep fun _ => False) (Decoder.protocol threshold) protocol := by
  have lifts := sim_lifts InStep fun _ => False
  have load := fun n => sim_takes (loadBuf_takes n)
  have int : Sim InStep (fun _ => False) Decoder.readI32 readI32 := lifts.map _ (load 4)
  have copied := fun n => sim_takes_vec (loadBuf_takes n)
  have spliced := fun n => sim_takes_vec (splitPayload_takes n)
  refine ⟨lifts.map _ (load 1), lifts.map _ (load 1), lifts.map _ (load 2), int,
    lifts.map _ (load 8), lifts.map _ (load 8), sim_readUuid, lifts.bind int fun _ => copied _,
    lifts.bind int fun _ => ?_, lifts.bind int fun _ => spliced _,
    lifts.bind int fun _ => spliced _⟩
  dsimp only
  split
  · exact spliced _
  · exact copied _

/-- Wherever the zero copy reader traces a call sequence, the streaming reader traces it alike:
the same result at every call and as many bytes consumed after it. -/
theorem readers_agree (threshold : Nat) (s : List UInt8) (calls : List ReadCall)
    (fits : s.length ≤ isizeMax) (ts : List (Except DecodeError Value × Nat))
    (traced : trace (Decoder.protocol threshold) Decoder.consumed calls (Decoder.over s) = some ts) :
    trace protocol ByteSource.pos calls ⟨s, 0⟩ = some ts :=
  sim_trace InStep ((sim_lifts InStep _).dispatch (Decoder.shared threshold) shared
      (prims_inStep threshold))
    Decoder.consumed ByteSource.pos (fun _ _ inStep => inStep.consumed.symm) calls
    (Decoder.over s) ⟨s, 0⟩ ts ⟨Decoder.over_inv s, rfl, rfl, fits⟩ traced fun _ _ _ _ => id

theorem readers_agree_field :
    ([8, 0, 1, 0, 0, 0, 5] : List UInt8).length ≤ isizeMax ∧
      trace (Decoder.protocol 0) Decoder.consumed [.fieldBegin, .i32]
        (Decoder.over [8, 0, 1, 0, 0, 0, 5]) =
        some [(.ok (.field ⟨none, .i32, some 1⟩), 3), (.ok (.i32 5), 7)] ∧
      trace protocol ByteSource.pos [.fieldBegin, .i32] ⟨[8, 0, 1, 0, 0, 0, 5], 0⟩ =
        some [(.ok (.field ⟨none, .i32, some 1⟩), 3), (.ok (.i32 5), 7)] :=
  ⟨by decide, rfl, readers_agree 0 [8, 0, 1, 0, 0, 0, 5] [.fieldBegin, .i32] (by decide) _ rfl⟩

/-! The errors each reader reports. -/

theorem run_errors {Good : DecodeError → Prop} (body : ∀ e, BodyError e → Good e)
    (eof : Good eofError) (calls : List ReadCall) : ErrorsIn Good (run protocol calls) :=
  have lifts : Lifts fun {α} (x y : ReadM ByteSource α) => ErrorsIn Good x ∧ ErrorsIn Good y :=
    errorsIn_lifts body
  have exact : ∀ n, ErrorsIn Good (readExact n) := fun n b e b' ran => by
    unfold readExact at ran
    split at ran <;> cases ran
    exact eof
  have vec : ∀ n, ErrorsIn Good (vecZeroed n) := fun n b e b' ran => by
    unfold vecZeroed at ran
    split at ran <;> cases ran
  have int := lifts.map (fromBeBytes 32) ⟨exact 4, exact 4⟩
  have str := lifts.bind int fun _ => lifts.bind ⟨vec _, vec _⟩ fun _ => ⟨exact _, exact _⟩
  (lifts.run (lifts.dispatch shared shared ⟨lifts.map _ ⟨exact 1, exact 1⟩,
    lifts.map _ ⟨exact 1, exact 1⟩, lifts.map _ ⟨exact 2, exact 2⟩, int,
    lifts.map _ ⟨exact 8, exact 8⟩, lifts.map _ ⟨exact 8, exact 8⟩,
    lifts.map _ ⟨exact 16, exact 16⟩, str, str, str, str⟩) calls).1

/-- The zero copy reader reports only the errors the shared bodies raise; the streaming reader,
over an in-memory source, those and the end of its source. -/
theorem reported_errors (threshold : Nat) (calls : List ReadCall) :
    (∀ d e d', run (Decoder.protocol threshold) calls d = some (.error e, d') → BodyError e) ∧
    (∀ b e b', run protocol calls b = some (.error e, b') → BodyError e ∨ e = eofError) :=
  ⟨Decoder.run_errors threshold calls, run_errors (fun _ => .inl) (.inr rfl) calls⟩

/-! The converse: where the streaming reader does not run dry, the zero copy reader is
defined. -/

def IoError (e : DecodeError) : Prop := e.kind = .ioError

theorem readExact_room {n : Nat} {b b' : ByteSource} {r : Except DecodeError (List UInt8)}
    (ran : readExact n b = some (r, b')) (avoids : Avoids IoError r) :
    b.pos + n ≤ b.data.length := by
  by_contra short
  rw [readExact_of_not_le short] at ran
  cases ran
  exact avoids _ rfl rfl

/-- `x` is defined wherever the next `n` bytes of the zero copy reader's input remain. -/
def Gives (x : ReadM Decoder (List UInt8)) (n : Nat) : Prop :=
  ∀ d, d.Inv d.data → d.consumed + n ≤ d.data.length → ∃ r d', x d = some (r, d')

theorem loadBuf_gives (n : Nat) : Gives (Decoder.loadBuf n) n := by
  intro d holds room
  have wide : d.buf.len = d.trans.len := by rw [holds.view]
  have ends := holds.ends
  simp only [Decoder.consumed] at room
  exact ⟨_, _, Decoder.loadBuf_eq_some.mpr ⟨by omega, rfl, rfl⟩⟩

theorem splitPayload_gives (n : Nat) : Gives (Decoder.splitPayload n) n := by
  intro d holds room
  have ends := holds.ends
  simp only [Decoder.consumed] at room
  exact ⟨_, _, Decoder.splitPayload_eq_some.mpr ⟨holds.cursor, by omega, rfl, rfl⟩⟩

theorem sim_takes_back {x : ReadM Decoder (List UInt8)} {n : Nat} (takes : Takes x n)
    (gives : Gives x n) : Sim (flip InStep) IoError (readExact n) x :=
  sim_flip InStep (sim_takes takes) fun d b _ _ inStep ran avoids =>
    gives d inStep.holds
      (by rw [← inStep.source, ← inStep.consumed]; exact readExact_room ran avoids)

theorem sim_takes_vec_back {x : ReadM Decoder (List UInt8)} {n : Nat} (takes : Takes x n)
    (gives : Gives x n) : Sim (flip InStep) IoError (vecZeroed n >>= fun _ => readExact n) x :=
  sim_flip InStep (sim_takes_vec takes) fun d b _ _ inStep ran avoids => by
    refine gives d inStep.holds ?_
    rw [← inStep.source, ← inStep.consumed]
    by_cases fits : n ≤ isizeMax
    · rw [ReadM.bind_apply, vecZeroed_of_le fits] at ran
      exact readExact_room ran avoids
    · simp [ReadM.bind_apply, vecZeroed, fits] at ran

theorem sim_readUuid_back : Sim (flip InStep) IoError readUuid Decoder.readUuid :=
  sim_flip InStep sim_readUuid fun d b _ _ inStep ran avoids => by
    have room : b.pos + 16 ≤ b.data.length := by
      by_contra short
      rw [readUuid, ReadM.map_eq, ReadM.bind_apply, readExact_of_not_le short] at ran
      cases ran
      exact avoids _ rfl rfl
    have ends := inStep.holds.ends
    rw [inStep.source, inStep.consumed, Decoder.consumed] at room
    exact ⟨_, _, Decoder.readUuid_eq_some.mpr ⟨by omega, rfl, rfl⟩⟩

theorem prims_behind (threshold : Nat) :
    Prims (Sim (flip InStep) IoError) protocol (Decoder.protocol threshold) := by
  have lifts := sim_lifts (flip InStep) IoError
  have load := fun n => sim_takes_back (loadBuf_takes n) (loadBuf_gives n)
  have int : Sim (flip InStep) IoError readI32 Decoder.readI32 := lifts.map _ (load 4)
  have copied := fun n => sim_takes_vec_back (loadBuf_takes n) (loadBuf_gives n)
  have spliced := fun n => sim_takes_vec_back (splitPayload_takes n) (splitPayload_gives n)
  refine ⟨lifts.map _ (load 1), lifts.map _ (load 1), lifts.map _ (load 2), int,
    lifts.map _ (load 8), lifts.map _ (load 8), sim_readUuid_back,
    lifts.bind int fun _ => copied _, lifts.bind int fun _ => ?_,
    lifts.bind int fun _ => spliced _, lifts.bind int fun _ => spliced _⟩
  dsimp only
  split
  · exact spliced _
  · exact copied _

/-- The converse: wherever the streaming reader traces a call sequence without an I/O error, the
zero copy reader is defined and traces it alike. -/
theorem zero_copy_defined_without_eof (threshold : Nat) (s : List UInt8) (calls : List ReadCall)
    (fits : s.length ≤ isizeMax) (ts : List (Except DecodeError Value × Nat))
    (traced : trace protocol ByteSource.pos calls ⟨s, 0⟩ = some ts)
    (noEof : ∀ p ∈ ts, ∀ e, p.1 = .error e → e.kind ≠ .ioError) :
    trace (Decoder.protocol threshold) Decoder.consumed calls (Decoder.over s) = some ts :=
  sim_trace (flip InStep)
    ((sim_lifts (flip InStep) IoError).dispatch shared (Decoder.shared threshold)
      (prims_behind threshold))
    ByteSource.pos Decoder.consumed (fun _ _ inStep => inStep.consumed) calls
    ⟨s, 0⟩ (Decoder.over s) ts ⟨Decoder.over_inv s, rfl, rfl, fits⟩ traced noEof

theorem zero_copy_defined_without_eof_invalid :
    ([5] : List UInt8).length ≤ isizeMax ∧
      trace protocol ByteSource.pos [.fieldBegin] ⟨[5], 0⟩ =
        some [(.error ⟨.invalidData, "invalid ttype 5"⟩, 1)] ∧
      (∀ p ∈ [((.error ⟨.invalidData, "invalid ttype 5"⟩ : Except DecodeError Value), 1)],
        ∀ e, p.1 = .error e → e.kind ≠ .ioError) ∧
      trace (Decoder.protocol 0) Decoder.consumed [.fieldBegin] (Decoder.over [5]) =
        some [(.error ⟨.invalidData, "invalid ttype 5"⟩, 1)] :=
  ⟨by decide, rfl, by simp,
    zero_copy_defined_without_eof 0 [5] [.fieldBegin] (by decide) _ rfl (by simp)⟩

/-- Two bytes of a three-byte field header: the end of the source against a load past the input. -/
example :
    trace protocol ByteSource.pos [.fieldBegin] ⟨[8, 0], 0⟩ = some [(.error eofError, 2)] ∧
      trace (Decoder.protocol 0) Decoder.consumed [.fieldBegin] (Decoder.over [8, 0]) = none :=
  ⟨rfl, rfl⟩

/-! A negative length prefix. -/

/-- Neither reader returns from a payload read with a negative length prefix, not even with an
error: `vec![0; len]` panics, and the zero copy reader's split panics or its copy loads past
the input. -/
theorem negative_length_does_not_return (threshold : Nat) (s : List UInt8) (len : BitVec 32)
    (rest : List UInt8) (negative : len.toInt < 0) (fits : s.length ≤ isizeMax) (d : Decoder)
    (zeroCopy : Decoder.Unread s d (toBeBytes len ++ rest)) (b : ByteSource)
    (streaming : Unread s b (toBeBytes len ++ rest)) :
    (Decoder.readBytes d = none ∧ Decoder.readBytesVec d = none ∧ Decoder.readString d = none ∧
      Decoder.readFaststr threshold d = none) ∧
    (readBytes b = none ∧ readBytesVec b = none ∧ readString b = none ∧ readFaststr b = none) :=
  ⟨Decoder.payloads_of_negative_length threshold negative fits zeroCopy,
    payloads_of_negative_length negative streaming⟩

theorem negative_length_does_not_return_minus_one :
    (0xFFFFFFFF#32).toInt < 0 ∧ ([255, 255, 255, 255] : List UInt8).length ≤ isizeMax ∧
    Decoder.Unread [255, 255, 255, 255] (Decoder.over [255, 255, 255, 255])
      (toBeBytes 0xFFFFFFFF#32 ++ []) ∧
    Unread [255, 255, 255, 255] ⟨[255, 255, 255, 255], 0⟩ (toBeBytes 0xFFFFFFFF#32 ++ []) ∧
    (Decoder.readBytes (Decoder.over [255, 255, 255, 255]) = none ∧
      Decoder.readBytesVec (Decoder.over [255, 255, 255, 255]) = none ∧
      Decoder.readString (Decoder.over [255, 255, 255, 255]) = none ∧
      Decoder.readFaststr 0 (Decoder.over [255, 255, 255, 255]) = none) ∧
    (readBytes ⟨[255, 255, 255, 255], 0⟩ = none ∧ readBytesVec ⟨[255, 255, 255, 255], 0⟩ = none ∧
      readString ⟨[255, 255, 255, 255], 0⟩ = none ∧ readFaststr ⟨[255, 255, 255, 255], 0⟩ = none) :=
  have zeroCopy : Decoder.Unread [255, 255, 255, 255] (Decoder.over [255, 255, 255, 255])
      (toBeBytes 0xFFFFFFFF#32 ++ []) := ⟨Decoder.over_inv _, rfl⟩
  have streaming : Unread [255, 255, 255, 255] ⟨[255, 255, 255, 255], 0⟩
      (toBeBytes 0xFFFFFFFF#32 ++ []) := ⟨rfl, by decide, rfl⟩
  ⟨by decide, by decide, zeroCopy, streaming,
    negative_length_does_not_return 0 [255, 255, 255, 255] 0xFFFFFFFF#32 [] (by decide) (by decide)
      _ zeroCopy _ streaming⟩

end AsyncDecoder

end Pilota
