import Pilota.Memory
import Pilota.Simulation
import Pilota.Decoding

/-! The zero copy reader, `TInputProtocol for TBinaryProtocol<&mut BytesMut>`. Its loads are
unchecked: through `buf` at the cursor for the fixed-width values and short strings, through
`trans` for a uuid. A `bytes` payload, and a `faststr` at or above the threshold, is split off
the front of `trans` instead, after which `buf` is re-acquired over what `trans` keeps. The
invariant below is what keeps the two views of the input in step. -/

namespace Pilota

/-- The reader's state: the allocation `data` (reads never write it), the handle `trans`, the raw
window `buf` and the cursor `index`. -/
structure Decoder where
  data : List UInt8
  trans : BytesMut
  buf : Window
  index : Nat

namespace Decoder

variable (threshold : Nat)

/-- The bytes consumed: those split off or advanced past, then the cursor. -/
def consumed (d : Decoder) : Nat := d.trans.ptr + d.index

def transBytes (d : Decoder) : List UInt8 := (d.data.drop d.trans.ptr).take d.trans.len

/-- The reader built over `s`: `trans` holds `s`, `buf` views it, the cursor is at 0. -/
def over (s : List UInt8) : Decoder := ⟨s, ⟨0, s.length, s.length⟩, ⟨0, s.length⟩, 0⟩

/-- `buf.get_unchecked(index..index + n)`, then `index += n`; undefined past `buf`. -/
def loadBuf (n : Nat) : ReadM Decoder (List UInt8) := fun d =>
  if d.index + n ≤ d.buf.len then
    some (.ok ((d.data.drop (d.buf.ptr + d.index)).take n), { d with index := d.index + n })
  else none

/-- `trans.advance(index)`, `index = 0`, `trans.split_to(n)`, and `buf` re-acquired over the rest. -/
def splitPayload (n : Nat) : ReadM Decoder (List UInt8) := fun d => do
  let trans ← d.trans.advance d.index
  let (front, back) ← trans.splitTo n
  some (.ok ((d.data.drop front.ptr).take front.len),
    { d with trans := back, index := 0, buf := ⟨back.ptr, back.len⟩ })

def readByte : ReadM Decoder UInt8 := (fun val => UInt8.ofNat (ofBeBytes val)) <$> loadBuf 1
def readI8 : ReadM Decoder (BitVec 8) := fromBeBytes 8 <$> loadBuf 1
def readI16 : ReadM Decoder (BitVec 16) := fromBeBytes 16 <$> loadBuf 2
def readI32 : ReadM Decoder (BitVec 32) := fromBeBytes 32 <$> loadBuf 4
def readI64 : ReadM Decoder (BitVec 64) := fromBeBytes 64 <$> loadBuf 8

/-- `read_double`: the big-endian word, kept as the bit pattern of the `f64`. -/
def readDouble : ReadM Decoder (BitVec 64) := fromBeBytes 64 <$> loadBuf 8

/-- `read_uuid`: sixteen bytes through `trans` at the cursor; undefined past `trans`. -/
def readUuid : ReadM Decoder Uuid := fun d =>
  if d.index + 16 ≤ d.trans.len then
    some (.ok (Uuid.ofBytes ((d.data.drop (d.trans.ptr + d.index)).take 16)),
      { d with index := d.index + 16 })
  else none

def readBytes : ReadM Decoder (List UInt8) := do
  let len ← readI32
  splitPayload (i32AsUsize len)

def readBytesVec : ReadM Decoder (List UInt8) := do
  let len ← readI32
  splitPayload (i32AsUsize len)

/-- `read_string`: copied out of `buf`. -/
def readString : ReadM Decoder (List UInt8) := do
  let len ← readI32
  loadBuf (i32AsUsize len)

/-- `read_faststr`: split off at or above the threshold, copied below it. -/
def readFaststr : ReadM Decoder (List UInt8) := do
  let len := i32AsUsize (← readI32)
  if threshold ≤ len then splitPayload len else loadBuf len

def readMessageBegin : ReadM Decoder TMessageIdentifier :=
  Pilota.readMessageBegin readI32 (readFaststr threshold)

def readFieldBegin : ReadM Decoder TFieldIdentifier := Pilota.readFieldBegin readByte readI16
def readBool : ReadM Decoder Bool := Pilota.readBool readI8
def readListBegin : ReadM Decoder TListIdentifier := Pilota.readListBegin readByte readI32
def readSetBegin : ReadM Decoder TSetIdentifier := Pilota.readSetBegin readByte readI32
def readMapBegin : ReadM Decoder TMapIdentifier := Pilota.readMapBegin readByte readI32

def protocol : TInputProtocol Decoder where
  readMessageBegin := readMessageBegin threshold
  readMessageEnd := pure ()
  readStructBegin := pure none
  readStructEnd := pure ()
  readFieldBegin := readFieldBegin
  readFieldEnd := pure ()
  readBool := readBool
  readBytes := readBytes
  readUuid := readUuid
  readString := readString
  readFaststr := readFaststr threshold
  readByte := readByte
  readI8 := readI8
  readI16 := readI16
  readI32 := readI32
  readI64 := readI64
  readDouble := readDouble
  readListBegin := readListBegin
  readListEnd := pure ()
  readSetBegin := readSetBegin
  readSetEnd := pure ()
  readMapBegin := readMapBegin
  readMapEnd := pure ()
  readBytesVec := readBytesVec

theorem shared : (protocol threshold).Shared :=
  ⟨rfl, rfl, rfl, rfl, rfl, rfl, rfl, rfl, rfl, rfl, rfl, rfl, rfl⟩

/-! What the primitive loads and the split do. -/

theorem loadBuf_eq_some {n : Nat} {d d' : Decoder} {r : Except DecodeError (List UInt8)} :
    loadBuf n d = some (r, d') ↔ d.index + n ≤ d.buf.len ∧
      r = .ok ((d.data.drop (d.buf.ptr + d.index)).take n) ∧ d' = { d with index := d.index + n } := by
  unfold loadBuf
  split <;> simp_all [eq_comm]

theorem readUuid_eq_some {d d' : Decoder} {r : Except DecodeError Uuid} :
    readUuid d = some (r, d') ↔ d.index + 16 ≤ d.trans.len ∧
      r = .ok (Uuid.ofBytes ((d.data.drop (d.trans.ptr + d.index)).take 16)) ∧
      d' = { d with index := d.index + 16 } := by
  unfold readUuid
  split <;> simp_all [eq_comm]

theorem splitPayload_eq_some {n : Nat} {d d' : Decoder} {r : Except DecodeError (List UInt8)} :
    splitPayload n d = some (r, d') ↔ d.index ≤ d.trans.len ∧ n ≤ d.trans.len - d.index ∧
      r = .ok ((d.data.drop (d.trans.ptr + d.index)).take n) ∧
      d' = { d with trans := ⟨d.trans.ptr + d.index + n, d.trans.len - d.index - n,
                                d.trans.cap - d.index - n⟩,
                    index := 0,
                    buf := ⟨d.trans.ptr + d.index + n, d.trans.len - d.index - n⟩ } := by
  unfold splitPayload
  by_cases advanced : d.index ≤ d.trans.len
  · by_cases fits : n ≤ d.trans.len - d.index
    · simp [BytesMut.advance, BytesMut.splitTo, advanced, fits, eq_comm]
    · simp [BytesMut.advance, BytesMut.splitTo, advanced, fits]
  · simp [BytesMut.advance, advanced]

/-! The invariant. -/

/-- The invariant over the input `s`: `buf` views exactly `trans`'s bytes, the cursor is within
them, and `trans` runs to the end of `s`. -/
structure Inv (s : List UInt8) (d : Decoder) : Prop where
  input : d.data = s
  view : d.buf = ⟨d.trans.ptr, d.trans.len⟩
  cursor : d.index ≤ d.trans.len
  ends : d.trans.ptr + d.trans.len = s.length

theorem over_inv (s : List UInt8) : (over s).Inv s := ⟨rfl, rfl, Nat.zero_le _, Nat.zero_add _⟩

theorem Inv.split_input {s : List UInt8} {d : Decoder} (holds : d.Inv s) :
    s = s.take d.consumed ++ d.transBytes.drop d.index := by
  have whole : (s.drop d.trans.ptr).take d.trans.len = s.drop d.trans.ptr :=
    List.take_of_length_le (by have := holds.ends; simp; omega)
  rw [transBytes, holds.input, whole, List.drop_drop, consumed, Nat.add_comm, List.take_append_drop]

theorem loadBuf_preserves (s : List UInt8) (n : Nat) : Preserves (Inv s) (loadBuf n) := by
  intro d r d' holds ran
  obtain ⟨fits, -, rfl⟩ := loadBuf_eq_some.mp ran
  have wide := congrArg Window.len holds.view
  exact ⟨holds.input, holds.view, by simp at wide ⊢; omega, holds.ends⟩

theorem readUuid_preserves (s : List UInt8) : Preserves (Inv s) readUuid := by
  intro d r d' holds ran
  obtain ⟨fits, -, rfl⟩ := readUuid_eq_some.mp ran
  exact ⟨holds.input, holds.view, by simp; omega, holds.ends⟩

theorem splitPayload_preserves (s : List UInt8) (n : Nat) : Preserves (Inv s) (splitPayload n) := by
  intro d r d' holds ran
  obtain ⟨advanced, fits, -, rfl⟩ := splitPayload_eq_some.mp ran
  exact ⟨holds.input, rfl, Nat.zero_le _, by have := holds.ends; simp; omega⟩

theorem prims_same {Q : ∀ {α : Type}, ReadM Decoder α → ReadM Decoder α → Prop} (lifts : Lifts Q)
    (load : ∀ n, Q (loadBuf n) (loadBuf n)) (split : ∀ n, Q (splitPayload n) (splitPayload n))
    (uuid : Q readUuid readUuid) : Prims Q (protocol threshold) (protocol threshold) :=
  have int : Q readI32 readI32 := lifts.map _ (load 4)
  ⟨lifts.map _ (load 1), lifts.map _ (load 1), lifts.map _ (load 2), int, lifts.map _ (load 8),
    lifts.map _ (load 8), uuid, lifts.bind int fun _ => load _,
    lifts.bind int fun _ => lift_ite Q (fun _ => split _) fun _ => load _,
    lifts.bind int fun _ => split _, lifts.bind int fun _ => split _⟩

theorem run_preserves (s : List UInt8) (calls : List ReadCall) :
    Preserves (Inv s) (run (protocol threshold) calls) :=
  have lifts := sim_lifts (Diagonal (Inv s)) (fun _ => False)
  preserves_of_sim (Inv s) (lifts.run (lifts.dispatch (shared threshold) (shared threshold)
    (prims_same threshold lifts (fun n => sim_diagonal (Inv s) (loadBuf_preserves s n))
      (fun n => sim_diagonal (Inv s) (splitPayload_preserves s n))
      (sim_diagonal (Inv s) (readUuid_preserves s)))) calls)

theorem run_errors (calls : List ReadCall) : ErrorsIn BodyError (run (protocol threshold) calls) :=
  have lifts : Lifts fun {α} (x y : ReadM Decoder α) => ErrorsIn BodyError x ∧ ErrorsIn BodyError y :=
    errorsIn_lifts fun _ => id
  have load : ∀ n, ErrorsIn BodyError (loadBuf n) := fun _ _ _ _ ran =>
    nomatch (loadBuf_eq_some.mp ran).2.1
  have split : ∀ n, ErrorsIn BodyError (splitPayload n) := fun _ _ _ _ ran =>
    nomatch (splitPayload_eq_some.mp ran).2.2.1
  have uuid : ErrorsIn BodyError readUuid := fun _ _ _ ran => nomatch (readUuid_eq_some.mp ran).2.1
  (lifts.run (lifts.dispatch (shared threshold) (shared threshold) (prims_same threshold lifts
    (fun n => ⟨load n, load n⟩) (fun n => ⟨split n, split n⟩) ⟨uuid, uuid⟩)) calls).1

/-- `e` is `d` with the first `k` bytes of `trans` split off, `buf` re-acquired over the rest and
the cursor at 0. -/
def SplitOff (d e : Decoder) (k : Nat) : Prop :=
  e.trans.ptr = d.trans.ptr + k ∧ e.trans.len + k = d.trans.len ∧ e.index = 0 ∧
    e.buf = ⟨e.trans.ptr, e.trans.len⟩

theorem splitPayload_splitOff {s : List UInt8} {n : Nat} {d e : Decoder} {payload : List UInt8}
    (holds : d.Inv s) (ran : splitPayload n d = some (.ok payload, e)) :
    payload.length = n ∧ SplitOff d e (d.index + n) := by
  obtain ⟨advanced, fits, taken, rfl⟩ := splitPayload_eq_some.mp ran
  cases taken
  have ends := holds.ends
  rw [holds.input]
  exact ⟨by simp only [List.length_take, List.length_drop]; omega,
    by simp only; omega, by simp only; omega, rfl, rfl⟩

theorem loadBuf_length {s : List UInt8} {n : Nat} {d e : Decoder} {payload : List UInt8}
    (holds : d.Inv s) (ran : loadBuf n d = some (.ok payload, e)) : payload.length = n := by
  obtain ⟨fits, taken, -⟩ := loadBuf_eq_some.mp ran
  cases taken
  have ends := holds.ends
  rw [holds.input, holds.view] at *
  simp only [List.length_take, List.length_drop] at fits ⊢
  omega

theorem readI32_bind_ok {s : List UInt8} {α : Type} {f : BitVec 32 → ReadM Decoder α}
    {d e : Decoder} {v : α} (holds : d.Inv s) (ran : (readI32 >>= f) d = some (.ok v, e)) :
    ∃ w, f w { d with index := d.index + 4 } = some (.ok v, e) ∧
      ({ d with index := d.index + 4 } : Decoder).Inv s := by
  rw [ReadM.bind_apply] at ran
  obtain ⟨⟨r, d'⟩, loaded, next⟩ := Option.bind_eq_some.mp ran
  rw [readI32, ReadM.map_eq, ReadM.bind_apply] at loaded
  obtain ⟨⟨r', d''⟩, buf, done⟩ := Option.bind_eq_some.mp loaded
  have kept := loadBuf_preserves s 4 d _ _ holds buf
  obtain ⟨-, rfl, rfl⟩ := loadBuf_eq_some.mp buf
  cases done
  exact ⟨_, next, kept⟩

theorem read_splitOff {s : List UInt8} {d e : Decoder} {payload : List UInt8} (holds : d.Inv s)
    (taken : readBytes d = some (.ok payload, e) ∨ readBytesVec d = some (.ok payload, e) ∨
      (readFaststr threshold d = some (.ok payload, e) ∧ threshold ≤ payload.length)) :
    SplitOff d e (d.index + 4 + payload.length) := by
  have spliced : ∀ w, splitPayload (i32AsUsize w) { d with index := d.index + 4 } =
      some (.ok payload, e) → ({ d with index := d.index + 4 } : Decoder).Inv s →
      SplitOff d e (d.index + 4 + payload.length) := fun w ran kept => by
    obtain ⟨sized, splitOff⟩ := splitPayload_splitOff kept ran
    rwa [sized]
  rcases taken with bytes | vec | ⟨faststr, atThreshold⟩
  · obtain ⟨w, ran, kept⟩ := readI32_bind_ok holds bytes
    exact spliced w ran kept
  · obtain ⟨w, ran, kept⟩ := readI32_bind_ok holds vec
    exact spliced w ran kept
  · obtain ⟨w, ran, kept⟩ := readI32_bind_ok holds faststr
    dsimp only at ran
    split at ran
    · exact spliced w ran kept
    · have copied := loadBuf_length kept ran
      omega

/-- The unread input of a state that keeps the invariant over `s`. -/
def Unread (s : List UInt8) (d : Decoder) (rest : List UInt8) : Prop :=
  d.Inv s ∧ s.drop d.consumed = rest

variable {s : List UInt8}

theorem unread_room {d : Decoder} {bs rest : List UInt8} (unread : Unread s d (bs ++ rest)) :
    d.index + bs.length ≤ d.trans.len := by
  have sizes := congrArg List.length unread.2
  have := unread.1.ends
  have := unread.1.cursor
  simp only [List.length_drop, List.length_append, consumed] at sizes
  omega

theorem unread_take {d : Decoder} {bs rest : List UInt8} (unread : Unread s d (bs ++ rest)) :
    (d.data.drop (d.trans.ptr + d.index)).take bs.length = bs := by
  rw [unread.1.input, ← consumed, unread.2, List.take_left]

theorem unread_drop {d : Decoder} {bs rest : List UInt8} (unread : Unread s d (bs ++ rest)) :
    s.drop (d.trans.ptr + d.index + bs.length) = rest := by
  rw [← List.drop_drop, ← consumed, unread.2, List.drop_left]

theorem loadBuf_unread {d : Decoder} {bs rest : List UInt8} (unread : Unread s d (bs ++ rest)) :
    loadBuf bs.length d = some (.ok bs, { d with index := d.index + bs.length }) := by
  have view := unread.1.view
  refine loadBuf_eq_some.mpr ⟨?_, ?_, rfl⟩
  · rw [view]; exact unread_room unread
  · rw [view, unread_take unread]

theorem splitPayload_unread {d : Decoder} {bs rest : List UInt8} (unread : Unread s d (bs ++ rest)) :
    splitPayload bs.length d = some (.ok bs,
      { d with trans := ⟨d.trans.ptr + d.index + bs.length, d.trans.len - d.index - bs.length,
                         d.trans.cap - d.index - bs.length⟩,
               index := 0,
               buf := ⟨d.trans.ptr + d.index + bs.length, d.trans.len - d.index - bs.length⟩ }) := by
  have room := unread_room unread
  exact splitPayload_eq_some.mpr ⟨by omega, by omega, by rw [unread_take unread], rfl⟩

theorem decodes_loadBuf (bs : List UInt8) : Decodes (Unread s) (loadBuf bs.length) bs bs := by
  intro d rest unread
  have ran := loadBuf_unread unread
  refine ⟨_, ran, loadBuf_preserves _ _ d _ _ unread.1 ran, ?_⟩
  simpa [consumed, Nat.add_assoc] using unread_drop unread

theorem decodes_splitPayload (bs : List UInt8) :
    Decodes (Unread s) (splitPayload bs.length) bs bs := by
  intro d rest unread
  have ran := splitPayload_unread unread
  exact ⟨_, ran, splitPayload_preserves _ _ d _ _ unread.1 ran,
    by simpa [consumed] using unread_drop unread⟩

theorem decodes_readUuid (u : Uuid) : Decodes (Unread s) readUuid u.toList u := by
  intro d rest unread
  have room : d.index + 16 ≤ d.trans.len := by simpa using unread_room unread
  have ran : readUuid d = some (.ok u, { d with index := d.index + 16 }) := by
    refine readUuid_eq_some.mpr ⟨room, ?_, rfl⟩
    rw [unread.1.input, ← consumed, unread.2, Uuid.ofBytes_toList]
  refine ⟨_, ran, readUuid_preserves _ d _ _ unread.1 ran, ?_⟩
  simpa [consumed, Nat.add_assoc] using unread_drop unread

theorem decodes_fixed (w : Nat) (whole : w % 8 = 0) (x : BitVec w) :
    Decodes (Unread s) (fromBeBytes w <$> loadBuf (w / 8)) (toBeBytes x) x := by
  have decoded := decodes_map (Unread s) (fromBeBytes w) (decodes_loadBuf (toBeBytes x))
  rwa [length_toBeBytes, fromBeBytes_toBeBytes x whole] at decoded

theorem decodes_prefixed (payload : Nat → ReadM Decoder (List UInt8))
    (decoded : ∀ bs : List UInt8, Decodes (Unread s) (payload bs.length) bs bs)
    (bs : List UInt8) (short : bs.length < 2 ^ 31) :
    Decodes (Unread s) (readI32 >>= fun len => payload (i32AsUsize len)) (be32 bs.length ++ bs) bs := by
  rw [← toBeBytes_usizeAsI32]
  refine decodes_bind (Unread s) (decodes_fixed 32 rfl _) ?_
  rw [i32AsUsize_usizeAsI32_of_lt short]
  exact decoded bs

/-! Which reads split their payload off. -/

theorem readI32_unread {d : Decoder} {w : BitVec 32} {rest : List UInt8}
    (unread : Unread s d (toBeBytes w ++ rest)) :
    readI32 d = some (.ok w, { d with index := d.index + 4 }) ∧
      Unread s { d with index := d.index + 4 } rest := by
  have loaded := loadBuf_unread unread
  rw [length_toBeBytes] at loaded
  have ran : readI32 d = some (.ok w, { d with index := d.index + 4 }) := by
    rw [readI32, ReadM.map_eq, ReadM.bind_apply, loaded, Option.some_bind]
    dsimp only
    rw [fromBeBytes_toBeBytes _ rfl]
    rfl
  refine ⟨ran, loadBuf_preserves s 4 d _ _ unread.1 loaded, ?_⟩
  simpa [consumed, Nat.add_assoc] using unread_drop unread

theorem readI32_bind {α : Type} {d : Decoder} {w : BitVec 32} {rest : List UInt8}
    (unread : Unread s d (toBeBytes w ++ rest)) (payload : Nat → ReadM Decoder α) :
    (readI32 >>= fun len => payload (i32AsUsize len)) d =
      payload (i32AsUsize w) { d with index := d.index + 4 } := by
  rw [ReadM.bind_apply, (readI32_unread unread).1, Option.some_bind]

/-- `read_bytes` and `read_bytes_vec` always split a payload off the front of `trans`,
`read_string` always copies it, and `read_faststr` splits exactly at or above the threshold. -/
theorem payload_split_or_copied (threshold : Nat) (s : List UInt8) (d : Decoder)
    (bs rest : List UInt8) (short : bs.length < 2 ^ 31)
    (unread : Unread s d (be32 bs.length ++ bs ++ rest)) :
    (∃ d', readBytes d = some (.ok bs, d') ∧ d'.trans.ptr = d.consumed + 4 + bs.length ∧
      d'.index = 0) ∧
    (∃ d', readBytesVec d = some (.ok bs, d') ∧ d'.trans.ptr = d.consumed + 4 + bs.length ∧
      d'.index = 0) ∧
    (∃ d', readString d = some (.ok bs, d') ∧ d'.trans = d.trans ∧
      d'.index = d.index + 4 + bs.length) ∧
    (∃ d', readFaststr threshold d = some (.ok bs, d') ∧
      if threshold ≤ bs.length then d'.trans.ptr = d.consumed + 4 + bs.length ∧ d'.index = 0
      else d'.trans = d.trans ∧ d'.index = d.index + 4 + bs.length) := by
  rw [List.append_assoc, ← toBeBytes_usizeAsI32] at unread
  have unread₁ := (readI32_unread unread).2
  have split := splitPayload_unread unread₁
  have copied := loadBuf_unread unread₁
  have prefixed : ∀ payload : Nat → ReadM Decoder (List UInt8),
      (readI32 >>= fun len => payload (i32AsUsize len)) d =
        payload bs.length { d with index := d.index + 4 } := by
    intro payload
    rw [readI32_bind unread, i32AsUsize_usizeAsI32_of_lt short]
  have splitOff : d.trans.ptr + (d.index + 4) + bs.length = d.consumed + 4 + bs.length := by
    simp only [consumed]
    omega
  refine ⟨⟨_, (prefixed splitPayload).trans split, splitOff, rfl⟩,
    ⟨_, (prefixed splitPayload).trans split, splitOff, rfl⟩,
    ⟨_, (prefixed loadBuf).trans copied, rfl, rfl⟩, ?_⟩
  have faststr : readFaststr threshold d =
      (if threshold ≤ bs.length then splitPayload bs.length else loadBuf bs.length)
        { d with index := d.index + 4 } :=
    prefixed fun n => if threshold ≤ n then splitPayload n else loadBuf n
  by_cases atThreshold : threshold ≤ bs.length
  · rw [if_pos atThreshold] at faststr
    refine ⟨_, faststr.trans split, ?_⟩
    rw [if_pos atThreshold]
    exact ⟨splitOff, rfl⟩
  · rw [if_neg atThreshold] at faststr
    refine ⟨_, faststr.trans copied, ?_⟩
    rw [if_neg atThreshold]
    exact ⟨rfl, rfl⟩

theorem payload_split_or_copied_two :
    ([7, 8] : List UInt8).length < 2 ^ 31 ∧
    Unread [0, 0, 0, 2, 7, 8] (over [0, 0, 0, 2, 7, 8]) (be32 [7, 8].length ++ [7, 8] ++ []) ∧
    (∃ d', readBytes (over [0, 0, 0, 2, 7, 8]) = some (.ok [7, 8], d') ∧
      d'.trans.ptr = (over [0, 0, 0, 2, 7, 8]).consumed + 4 + [7, 8].length ∧ d'.index = 0) ∧
    (∃ d', readBytesVec (over [0, 0, 0, 2, 7, 8]) = some (.ok [7, 8], d') ∧
      d'.trans.ptr = (over [0, 0, 0, 2, 7, 8]).consumed + 4 + [7, 8].length ∧ d'.index = 0) ∧
    (∃ d', readString (over [0, 0, 0, 2, 7, 8]) = some (.ok [7, 8], d') ∧
      d'.trans = (over [0, 0, 0, 2, 7, 8]).trans ∧
      d'.index = (over [0, 0, 0, 2, 7, 8]).index + 4 + [7, 8].length) ∧
    (∃ d', readFaststr 3 (over [0, 0, 0, 2, 7, 8]) = some (.ok [7, 8], d') ∧
      if 3 ≤ [7, 8].length then
        d'.trans.ptr = (over [0, 0, 0, 2, 7, 8]).consumed + 4 + [7, 8].length ∧ d'.index = 0
      else d'.trans = (over [0, 0, 0, 2, 7, 8]).trans ∧
        d'.index = (over [0, 0, 0, 2, 7, 8]).index + 4 + [7, 8].length) :=
  ⟨by decide, ⟨over_inv _, rfl⟩,
    payload_split_or_copied 3 [0, 0, 0, 2, 7, 8] (over [0, 0, 0, 2, 7, 8]) [7, 8] []
      (by decide) ⟨over_inv _, rfl⟩⟩

theorem loadBuf_past {d : Decoder} {n : Nat} (holds : d.Inv s) (past : s.length < n) :
    loadBuf n d = none := by
  have wide : d.buf.len = d.trans.len := by rw [holds.view]
  have ends := holds.ends
  unfold loadBuf
  rw [if_neg (by omega)]

theorem splitPayload_past {d : Decoder} {n : Nat} (holds : d.Inv s) (past : s.length < n) :
    splitPayload n d = none := by
  refine Option.eq_none_iff_forall_not_mem.mpr fun ⟨r, d'⟩ ran => ?_
  obtain ⟨-, room, -⟩ := splitPayload_eq_some.mp ran
  have ends := holds.ends
  omega

theorem payloads_of_negative_length {d : Decoder} {len : BitVec 32} {rest : List UInt8}
    (negative : len.toInt < 0) (fits : s.length ≤ isizeMax)
    (unread : Unread s d (toBeBytes len ++ rest)) :
    readBytes d = none ∧ readBytesVec d = none ∧ readString d = none ∧
      readFaststr threshold d = none := by
  have past : s.length < i32AsUsize len := lt_of_le_of_lt fits (isizeMax_lt_i32AsUsize negative)
  have holds := (readI32_unread unread).2.1
  have split := splitPayload_past holds past
  have copied := loadBuf_past holds past
  refine ⟨(readI32_bind unread _).trans split, (readI32_bind unread _).trans split,
    (readI32_bind unread _).trans copied,
    (readI32_bind unread fun n => if threshold ≤ n then splitPayload n else loadBuf n).trans ?_⟩
  split <;> assumption

theorem panicsOnNegative (fits : s.length ≤ isizeMax) : PanicsOnNegative (Unread s) (protocol threshold) :=
  fun _ _ _ negative unread => payloads_of_negative_length threshold negative fits unread

variable (s)

theorem prims_decode : PrimsDecode (Unread s) (protocol threshold) where
  readByte b := by
    have decoded :=
      decodes_map (Unread s) (fun val => UInt8.ofNat (ofBeBytes val)) (decodes_loadBuf [b])
    show Decodes (Unread s) ((fun val => UInt8.ofNat (ofBeBytes val)) <$> loadBuf [b].length) [b] b
    simpa only [ofBeBytes_singleton, uint8_ofNat_toNat] using decoded
  readI8 := decodes_fixed 8 rfl
  readI16 := decodes_fixed 16 rfl
  readI32 := decodes_fixed 32 rfl
  readI64 := decodes_fixed 64 rfl
  readDouble := decodes_fixed 64 rfl
  readUuid := decodes_readUuid
  readString := decodes_prefixed loadBuf decodes_loadBuf
  readFaststr := decodes_prefixed (fun n => if threshold ≤ n then splitPayload n else loadBuf n)
    fun bs => by
      by_cases split : threshold ≤ bs.length
      · simpa only [split, if_true] using decodes_splitPayload bs
      · simpa only [split, if_false] using decodes_loadBuf bs
  readBytes := decodes_prefixed splitPayload decodes_splitPayload
  readBytesVec := decodes_prefixed splitPayload decodes_splitPayload

theorem over_unread : Unread s (over s) (s ++ []) :=
  ⟨over_inv s, by simp [consumed, over]⟩

theorem consumed_add_length {d : Decoder} {rest : List UInt8} (unread : Unread s d rest) :
    d.consumed + rest.length = s.length := by
  have := unread.1.ends
  have := unread.1.cursor
  rw [← unread.2, List.length_drop]
  simp only [consumed] at *
  omega

theorem consumed_of_unread_nil {d : Decoder} (unread : Unread s d []) : d.consumed = s.length :=
  consumed_add_length s unread

end Decoder

end Pilota
