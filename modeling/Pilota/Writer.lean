import Pilota.Length

/-! What the two unchecked writers share: the memory their raw pointers store into, a ghost
log of the stores they make, and the methods whose bodies are the same in both. A store
through `buf` lands at `buf`'s pointer plus the cursor position; a store through `trans`
(or `trans.bytes_mut()`) lands at the tail's pointer plus the cursor position. -/

namespace Pilota

/-- The pointer an unchecked store goes through. -/
inductive Via
  | buf | trans
  deriving DecidableEq, Repr

/-- Ghost: one store, with the window and the tail it was made against. -/
structure Store where
  via : Via
  pos : Nat
  bytes : List UInt8
  window : Window
  tail : BytesMut

/-- Ghost: the first address a store wrote. -/
def Store.addr (s : Store) : Nat :=
  match s.via with
  | .buf => s.window.ptr + s.pos
  | .trans => s.tail.ptr + s.pos

/-- Ghost: what a writer did, in order: stores, and splices of a payload by reference. -/
inductive Event
  | store (s : Store)
  | splice (committed : Nat) (payload : List UInt8)

/-- A transport whose tail `BytesMut` the stores through `trans` address. -/
class Transport (T : Type) where
  tail : T → BytesMut

instance : Transport BytesMut := ⟨id⟩

/-- A writer: the protocol record, the memory behind its pointers and the ghost log. -/
structure Encoder (T : Type) extends TBinaryProtocol T where
  mem : Nat → UInt8
  log : List Event

/-- A store plan: stores at consecutive cursor positions. -/
abbrev Plan := List (Via × List UInt8)

def Plan.bytes (plan : Plan) : List UInt8 := plan.flatMap Prod.snd

/-- Ghost: the events are stores that tile the addresses `[a, b)`. -/
def Tiles : List Event → Nat → Nat → Prop
  | [], a, b => a = b
  | .store s :: es, a, b => s.addr = a ∧ Tiles es (a + s.bytes.length) b
  | .splice _ _ :: _, _, _ => False

def storedBytes : List Event → List UInt8
  | [] => []
  | .store s :: es => s.bytes ++ storedBytes es
  | .splice _ _ :: es => storedBytes es

@[simp] theorem storedBytes_append (es fs : List Event) :
    storedBytes (es ++ fs) = storedBytes es ++ storedBytes fs := by
  induction es with
  | nil => rfl
  | cons e es ih => cases e <;> simp [storedBytes, ih]

theorem tiles_append {es fs : List Event} {a b c : Nat} (first : Tiles es a b)
    (second : Tiles fs b c) : Tiles (es ++ fs) a c := by
  induction es generalizing a with
  | nil => exact (show a = b from first) ▸ second
  | cons e es ih =>
    cases e with
    | store s => exact ⟨first.1, ih first.2⟩
    | splice => exact first.elim

theorem Tiles.le {es : List Event} {a b : Nat} (tiles : Tiles es a b) : a ≤ b := by
  induction es generalizing a with
  | nil => exact Nat.le_of_eq tiles
  | cons e es ih =>
    cases e with
    | store s => exact Nat.le_trans (Nat.le_add_right _ _) (ih tiles.2)
    | splice => exact tiles.elim

theorem Tiles.within {es : List Event} {a b : Nat} (tiles : Tiles es a b) {s : Store}
    (member : Event.store s ∈ es) : a ≤ s.addr ∧ s.addr + s.bytes.length ≤ b := by
  induction es generalizing a with
  | nil => cases member
  | cons e es ih =>
    cases e with
    | store t =>
      obtain ⟨start, rest⟩ := tiles
      rcases List.mem_cons.mp member with same | later
      · cases same
        exact ⟨Nat.le_of_eq start.symm, start ▸ rest.le⟩
      · obtain ⟨lower, upper⟩ := ih rest later
        exact ⟨by omega, upper⟩
    | splice => exact tiles.elim

theorem Tiles.cover {es : List Event} {a b : Nat} (tiles : Tiles es a b) {k : Nat} (lower : a ≤ k)
    (upper : k < b) : ∃ s, Event.store s ∈ es ∧ s.addr ≤ k ∧ k < s.addr + s.bytes.length := by
  induction es generalizing a with
  | nil => exact absurd (show a = b from tiles) (by omega)
  | cons e es ih =>
    cases e with
    | store s =>
      obtain ⟨start, rest⟩ := tiles
      by_cases here : k < a + s.bytes.length
      · exact ⟨s, .head _, by omega, by omega⟩
      · obtain ⟨t, member, covered⟩ := ih rest (by omega)
        exact ⟨t, .tail _ member, covered⟩
    | splice => exact tiles.elim

/-- Ghost: every store of the log through `trans` ends past the tail's initialised bytes, the slice that
`get_unchecked_mut(pos..pos + n)` indexes. -/
def TransPastSlice (log : List Event) : Prop :=
  ∀ s, Event.store s ∈ log → s.via = .trans → s.tail.len < s.pos + s.bytes.length

theorem transPastSlice_append {es fs : List Event} (first : TransPastSlice es)
    (second : TransPastSlice fs) : TransPastSlice (es ++ fs) := fun s member =>
  (List.mem_append.mp member).elim (first s) (second s)

/-- From `p` to `q` the writer fills the `n` bytes from address `a` exactly: its new stores tile
them, the memory there holds what they stored, and no other byte of memory changes. -/
structure Encoder.Fills {T : Type} (p q : Encoder T) (a n : Nat) : Prop where
  grows : p.log <+: q.log
  tiles : Tiles (q.log.drop p.log.length) a (a + n)
  holds : load q.mem a n = storedBytes (q.log.drop p.log.length)
  frame : ∀ j, j < a ∨ a + n ≤ j → q.mem j = p.mem j

theorem Encoder.Fills.refl {T : Type} (p : Encoder T) (a : Nat) : Fills p p a 0 :=
  ⟨List.prefix_refl _, by rw [List.drop_length]; rfl, by rw [List.drop_length]; rfl,
    fun _ _ => rfl⟩

theorem Encoder.Fills.trans {T : Type} {p q r : Encoder T} {a m n : Nat} (first : Fills p q a m)
    (second : Fills q r (a + m) n) : Fills p r a (m + n) := by
  obtain ⟨⟨new₁, log₁⟩, tiles₁, holds₁, frame₁⟩ := first
  obtain ⟨⟨new₂, log₂⟩, tiles₂, holds₂, frame₂⟩ := second
  rw [← log₁, List.drop_left] at tiles₁ holds₁
  rw [← log₂, List.drop_left] at tiles₂ holds₂
  have new : r.log.drop p.log.length = new₁ ++ new₂ := by
    rw [← log₂, ← log₁, List.append_assoc, List.drop_left]
  refine ⟨⟨new₁ ++ new₂, by rw [← List.append_assoc, log₁, log₂]⟩, ?_, ?_,
    fun j outside => by rw [frame₂ j (by omega), frame₁ j (by omega)]⟩
  · rw [new, ← Nat.add_assoc]
    exact tiles_append tiles₁ tiles₂
  · rw [new, storedBytes_append, load_add, ← holds₁, ← holds₂,
      load_congr fun j _ inside => frame₂ j (.inl inside)]

namespace Encoder

variable {T : Type} [Transport T]

/-- The tail `BytesMut` a store through `trans` addresses. -/
def tail (p : Encoder T) : BytesMut := Transport.tail p.trans

def addr (p : Encoder T) : Via → Nat → Nat
  | .buf, pos => p.buf.ptr + pos
  | .trans, pos => p.tail.ptr + pos

/-- An unchecked store at cursor position `pos`, at the address the compiled code writes. A store
through `trans` past the tail's initialised bytes is out of bounds; the log keeps what shows it. -/
def put (p : Encoder T) (via : Via) (pos : Nat) (bs : List UInt8) : Encoder T :=
  { p with mem := store p.mem (p.addr via pos) bs,
           log := p.log ++ [.store ⟨via, pos, bs, p.buf, p.tail⟩] }

/-- A store at the cursor, then `self.index += width`. -/
def writeRaw (p : Encoder T) (via : Via) (width : Nat) (bs : List UInt8) : Encoder T :=
  let p := p.put via p.index bs
  { p with index := p.index + width }

/-- `write_field_begin`: the type byte and the big-endian id, through `buf`. -/
def writeFieldBegin (p : Encoder T) (fieldType : TType) (id : BitVec 16) : Encoder T :=
  let p := (p.put .buf p.index [fieldType.toU8]).put .buf (p.index + 1) (toBeBytes id)
  { p with index := p.index + 3 }

def writeByte (p : Encoder T) (b : UInt8) : Encoder T := p.writeRaw .buf 1 [b]
def writeI8 (p : Encoder T) (i : BitVec 8) : Encoder T := p.writeRaw .buf 1 (toBeBytes i)
def writeI16 (p : Encoder T) (i : BitVec 16) : Encoder T := p.writeRaw .trans 2 (toBeBytes i)
def writeI32 (p : Encoder T) (i : BitVec 32) : Encoder T := p.writeRaw .trans 4 (toBeBytes i)
def writeI64 (p : Encoder T) (i : BitVec 64) : Encoder T := p.writeRaw .trans 8 (toBeBytes i)
def writeDouble (p : Encoder T) (d : BitVec 64) : Encoder T := p.writeRaw .trans 8 (toBeBytes d)

def writeFieldStop (p : Encoder T) : Encoder T := p.writeByte TType.stop.toU8

def writeBool (p : Encoder T) (b : Bool) : Encoder T := if b then p.writeI8 1 else p.writeI8 0

/-- `ptr::copy_nonoverlapping` of a payload into `buf` at the cursor. -/
def copyPayload (p : Encoder T) (bs : List UInt8) : Encoder T := p.writeRaw .buf bs.length bs

/-- A length prefix, then the payload copied into the window: `write_string` and
`write_bytes_vec`, and in the contiguous writer `write_bytes` and `write_faststr`. -/
def writePrefixed (p : Encoder T) (bs : List UInt8) : Encoder T :=
  (p.writeI32 (usizeAsI32 bs.length)).copyPayload bs

def writeString (p : Encoder T) (s : List UInt8) : Encoder T := p.writePrefixed s

def writeBytesVec (p : Encoder T) (b : List UInt8) : Encoder T := p.writePrefixed b

def writeListBegin (p : Encoder T) (identifier : TListIdentifier) : Encoder T :=
  (p.writeByte identifier.elementType.toU8).writeI32 (usizeAsI32 identifier.size)

def writeSetBegin (p : Encoder T) (identifier : TSetIdentifier) : Encoder T :=
  (p.writeByte identifier.elementType.toU8).writeI32 (usizeAsI32 identifier.size)

def writeMapBegin (p : Encoder T) (identifier : TMapIdentifier) : Encoder T :=
  ((p.writeByte identifier.keyType.toU8).writeByte identifier.valueType.toU8).writeI32
    (usizeAsI32 identifier.size)

def writeRaws (p : Encoder T) : Plan → Encoder T
  | [] => p
  | (via, bs) :: rest => (p.writeRaw via bs.length bs).writeRaws rest

/-- The bytes the window holds before the cursor. -/
def written (p : Encoder T) : List UInt8 := load p.mem p.buf.ptr p.index

@[simp] theorem writeRaw_index (p : Encoder T) (via : Via) (w : Nat) (bs : List UInt8) :
    (p.writeRaw via w bs).index = p.index + w := rfl
@[simp] theorem writeRaw_buf (p : Encoder T) (via : Via) (w : Nat) (bs : List UInt8) :
    (p.writeRaw via w bs).buf = p.buf := rfl
@[simp] theorem writeRaw_trans (p : Encoder T) (via : Via) (w : Nat) (bs : List UInt8) :
    (p.writeRaw via w bs).trans = p.trans := rfl
@[simp] theorem writeRaw_zeroCopy (p : Encoder T) (via : Via) (w : Nat) (bs : List UInt8) :
    (p.writeRaw via w bs).zeroCopy = p.zeroCopy := rfl
@[simp] theorem writeRaw_log (p : Encoder T) (via : Via) (w : Nat) (bs : List UInt8) :
    (p.writeRaw via w bs).log = p.log ++ [.store ⟨via, p.index, bs, p.buf, p.tail⟩] := rfl
@[simp] theorem writeRaw_mem (p : Encoder T) (via : Via) (w : Nat) (bs : List UInt8) :
    (p.writeRaw via w bs).mem = store p.mem (p.addr via p.index) bs := rfl

@[simp] theorem tail_writeRaw (p : Encoder T) (via : Via) (w : Nat) (bs : List UInt8) :
    (p.writeRaw via w bs).tail = p.tail := rfl

theorem addr_of_aligned (p : Encoder T) (aligned : p.tail.ptr = p.buf.ptr) (via : Via)
    (pos : Nat) : p.addr via pos = p.buf.ptr + pos := by
  cases via <;> simp [addr, aligned]

theorem writeRaws_index (p : Encoder T) (plan : Plan) :
    (p.writeRaws plan).index = p.index + plan.bytes.length := by
  induction plan generalizing p with
  | nil => rfl
  | cons piece rest ih =>
    simp [writeRaws, ih, Plan.bytes, Nat.add_assoc]

theorem writeRaws_frame (p : Encoder T) (plan : Plan) :
    (p.writeRaws plan).buf = p.buf ∧ (p.writeRaws plan).trans = p.trans ∧
      (p.writeRaws plan).zeroCopy = p.zeroCopy := by
  induction plan generalizing p with
  | nil => exact ⟨rfl, rfl, rfl⟩
  | cons piece rest ih => simpa using ih (p.writeRaw piece.1 piece.2.length piece.2)

theorem written_writeRaw (p : Encoder T) (via : Via) (bs : List UInt8)
    (aligned : p.tail.ptr = p.buf.ptr) : (p.writeRaw via bs.length bs).written = p.written ++ bs := by
  simp only [written, writeRaw_mem, writeRaw_buf, writeRaw_index, addr_of_aligned p aligned]
  exact load_store_append _ _ _ _

theorem load_writeRaw_below (p : Encoder T) (via : Via) (w : Nat) (bs : List UInt8) {a n : Nat}
    (belowBuf : a + n ≤ p.buf.ptr) (belowTail : a + n ≤ p.tail.ptr) :
    load (p.writeRaw via w bs).mem a n = load p.mem a n := by
  apply load_store_below
  cases via <;> simp only [addr] <;> omega

theorem writeRaws_written (p : Encoder T) (plan : Plan) (aligned : p.tail.ptr = p.buf.ptr) :
    (p.writeRaws plan).written = p.written ++ plan.bytes := by
  induction plan generalizing p with
  | nil => simp [writeRaws, Plan.bytes]
  | cons piece rest ih =>
    rw [writeRaws, ih _ (by simpa using aligned), written_writeRaw p _ _ aligned]
    simp [Plan.bytes]

theorem writeRaw_pastSlice (p : Encoder T) (via : Via) (bs : List UInt8) (empty : p.tail.len = 0)
    (nonempty : via = .trans → bs ≠ []) (past : TransPastSlice p.log) :
    TransPastSlice (p.writeRaw via bs.length bs).log := by
  rw [writeRaw_log]
  refine transPastSlice_append past fun s member trans => ?_
  rw [List.mem_singleton, Event.store.injEq] at member
  subst member
  have := List.length_pos.mpr (nonempty trans)
  show p.tail.len < p.index + bs.length
  omega

theorem writeRaws_pastSlice (p : Encoder T) (plan : Plan) (empty : p.tail.len = 0)
    (nonempty : ∀ piece ∈ plan, piece.1 = .trans → piece.2 ≠ []) (past : TransPastSlice p.log) :
    TransPastSlice (p.writeRaws plan).log := by
  induction plan generalizing p with
  | nil => exact past
  | cons piece rest ih =>
    obtain ⟨via, bs⟩ := piece
    exact ih _ empty (fun piece member => nonempty piece (List.mem_cons_of_mem _ member))
      (writeRaw_pastSlice p via bs empty (nonempty _ (List.mem_cons_self _ _)) past)

theorem writeRaw_fills (p : Encoder T) (via : Via) (bs : List UInt8)
    (aligned : p.tail.ptr = p.buf.ptr) :
    Fills p (p.writeRaw via bs.length bs) (p.buf.ptr + p.index) bs.length := by
  have addr := addr_of_aligned p aligned via p.index
  refine ⟨⟨_, (writeRaw_log p via _ bs).symm⟩, ?_, ?_, fun j outside => ?_⟩ <;>
    simp only [writeRaw_log, writeRaw_mem, List.drop_left]
  · cases via <;> exact ⟨addr, rfl⟩
  · rw [addr, load_store_self]
    exact (List.append_nil bs).symm
  · simp only [store, addr]
    rw [if_neg (by omega)]

theorem writeRaws_fills (p : Encoder T) (plan : Plan) (aligned : p.tail.ptr = p.buf.ptr) :
    Fills p (p.writeRaws plan) (p.buf.ptr + p.index) plan.bytes.length := by
  induction plan generalizing p with
  | nil => exact Fills.refl p _
  | cons piece rest ih =>
    obtain ⟨via, bs⟩ := piece
    have next := ih (p.writeRaw via bs.length bs) aligned
    rw [writeRaw_buf, writeRaw_index, ← Nat.add_assoc] at next
    simpa only [writeRaws, Plan.bytes, List.flatMap_cons, List.length_append] using
      (writeRaw_fills p via bs aligned).trans next

end Encoder

/-- The stores a call makes when it splices nothing; `uuidVia` is the pointer of `write_uuid`. -/
def WriteCall.plan (uuidVia : Via) : WriteCall → Plan
  | .messageBegin i =>
    [(.trans, toBeBytes (versionWord i.messageType)), (.trans, toBeBytes (usizeAsI32 i.name.length)),
      (.buf, i.name), (.trans, toBeBytes i.sequenceNumber)]
  | .fieldBegin t id => [(.buf, [t.toU8]), (.buf, toBeBytes id)]
  | .fieldStop => [(.buf, [TType.stop.toU8])]
  | .bool b => [(.buf, toBeBytes (if b then (1 : BitVec 8) else 0))]
  | .bytes b | .string b | .faststr b | .bytesVec b =>
    [(.trans, toBeBytes (usizeAsI32 b.length)), (.buf, b)]
  | .byte b => [(.buf, [b])]
  | .uuid u => [(uuidVia, u.toList)]
  | .i8 i => [(.buf, toBeBytes i)]
  | .i16 i => [(.trans, toBeBytes i)]
  | .i32 i => [(.trans, toBeBytes i)]
  | .i64 i => [(.trans, toBeBytes i)]
  | .double d => [(.trans, toBeBytes d)]
  | .listBegin l => [(.buf, [l.elementType.toU8]), (.trans, toBeBytes (usizeAsI32 l.size))]
  | .setBegin l => [(.buf, [l.elementType.toU8]), (.trans, toBeBytes (usizeAsI32 l.size))]
  | .mapBegin m =>
    [(.buf, [m.keyType.toU8]), (.buf, [m.valueType.toU8]), (.trans, toBeBytes (usizeAsI32 m.size))]
  | .messageEnd | .structBegin | .structEnd | .fieldEnd | .listEnd | .setEnd | .mapEnd => []

theorem plan_bytes (uuidVia : Via) (c : WriteCall) : (c.plan uuidVia).bytes = c.encoding := by
  cases c <;> simp only [WriteCall.plan, Plan.bytes, WriteCall.encoding, List.flatMap_cons,
    List.flatMap_nil, toBeBytes_usizeAsI32, toBeBytes_versionWord, List.append_nil,
    List.singleton_append]
  case bool b => cases b <;> decide
  all_goals simp [toBeBytes, be32, TType.toU8]

theorem plan_trans_ne_nil (uuidVia : Via) (c : WriteCall) :
    ∀ piece ∈ c.plan uuidVia, piece.1 = .trans → piece.2 ≠ [] := by
  cases c <;> simp [WriteCall.plan, ← List.length_pos, length_toBeBytes]

end Pilota
