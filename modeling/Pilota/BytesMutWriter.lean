import Pilota.Writer

/-! The contiguous writer, `TOutputProtocol for TBinaryProtocol<&mut BytesMut>`. Every call
stores into the preallocated window, payloads included. Scalars of two bytes and more go
through `trans`, bytes, payloads and the uuid through `buf`. -/

namespace Pilota

namespace BytesMutWriter

open Encoder

/-- `write_uuid`: sixteen bytes through `buf`. -/
def writeUuid (p : Encoder BytesMut) (u : Uuid) : Encoder BytesMut := p.writeRaw .buf 16 u.toList

def writeBytes (p : Encoder BytesMut) (b : List UInt8) : Encoder BytesMut := p.writePrefixed b

def writeFaststr (p : Encoder BytesMut) (s : List UInt8) : Encoder BytesMut := p.writePrefixed s

def writeMessageBegin (p : Encoder BytesMut) (identifier : TMessageIdentifier) :
    Encoder BytesMut :=
  (writeFaststr (p.writeI32 (versionWord identifier.messageType)) identifier.name).writeI32
    identifier.sequenceNumber

/-- One encode call; the end calls and `write_struct_begin` store nothing. -/
def write (p : Encoder BytesMut) : WriteCall → Encoder BytesMut
  | .messageBegin i => writeMessageBegin p i
  | .fieldBegin t id => p.writeFieldBegin t id
  | .fieldStop => p.writeFieldStop
  | .bool b => p.writeBool b
  | .bytes b => writeBytes p b
  | .byte b => p.writeByte b
  | .uuid u => writeUuid p u
  | .i8 i => p.writeI8 i
  | .i16 i => p.writeI16 i
  | .i32 i => p.writeI32 i
  | .i64 i => p.writeI64 i
  | .double d => p.writeDouble d
  | .string s => p.writeString s
  | .faststr s => writeFaststr p s
  | .listBegin l => p.writeListBegin l
  | .setBegin l => p.writeSetBegin l
  | .mapBegin m => p.writeMapBegin m
  | .bytesVec b => p.writeBytesVec b
  | .messageEnd | .structBegin | .structEnd | .fieldEnd | .listEnd | .setEnd | .mapEnd => p

def run (p : Encoder BytesMut) (calls : List WriteCall) : Encoder BytesMut := calls.foldl write p

theorem write_eq (p : Encoder BytesMut) (c : WriteCall) : write p c = p.writeRaws (c.plan .buf) := by
  cases c <;> try rfl
  case bool b => cases b <;> rfl
  case uuid u => show p.writeRaw .buf 16 u.toList = p.writeRaw .buf u.toList.length u.toList
                 rw [Mathlib.Vector.toList_length]

theorem write_index (p : Encoder BytesMut) (c : WriteCall) :
    (write p c).index = p.index + c.encoding.length := by
  rw [write_eq, writeRaws_index, plan_bytes]

theorem write_written (p : Encoder BytesMut) (c : WriteCall) (aligned : p.trans.ptr = p.buf.ptr) :
    (write p c).written = p.written ++ c.encoding := by
  rw [write_eq, writeRaws_written p _ aligned, plan_bytes]

theorem write_aligned (p : Encoder BytesMut) (c : WriteCall) :
    (write p c).buf = p.buf ∧ (write p c).trans = p.trans := by
  rw [write_eq]
  exact ⟨(writeRaws_frame _ _).1, (writeRaws_frame _ _).2.1⟩

@[simp] theorem run_nil (p : Encoder BytesMut) : run p [] = p := rfl

@[simp] theorem run_cons (p : Encoder BytesMut) (c : WriteCall) (calls : List WriteCall) :
    run p (c :: calls) = run (write p c) calls := rfl

theorem run_index (p : Encoder BytesMut) (calls : List WriteCall) :
    (run p calls).index = p.index + (encodingOf calls).length := by
  induction calls generalizing p with
  | nil => rfl
  | cons c cs ih => simp [ih, write_index, Nat.add_assoc]

theorem run_written (p : Encoder BytesMut) (calls : List WriteCall)
    (aligned : p.trans.ptr = p.buf.ptr) : (run p calls).written = p.written ++ encodingOf calls := by
  induction calls generalizing p with
  | nil => simp
  | cons c cs ih =>
    obtain ⟨sameBuf, sameTrans⟩ := write_aligned p c
    rw [run_cons, ih _ (by rw [sameBuf, sameTrans]; exact aligned), write_written p c aligned,
      encodingOf_cons, List.append_assoc]

theorem run_frame (p : Encoder BytesMut) (calls : List WriteCall) :
    (run p calls).buf = p.buf ∧ (run p calls).trans = p.trans := by
  induction calls generalizing p with
  | nil => exact ⟨rfl, rfl⟩
  | cons c cs ih =>
    obtain ⟨sameBuf, sameTrans⟩ := write_aligned p c
    rw [run_cons, (ih _).1, (ih _).2, sameBuf, sameTrans]
    exact ⟨rfl, rfl⟩

theorem run_pastSlice (p : Encoder BytesMut) (calls : List WriteCall) (empty : p.trans.len = 0)
    (past : TransPastSlice p.log) : TransPastSlice (run p calls).log := by
  induction calls generalizing p with
  | nil => exact past
  | cons c cs ih =>
    obtain ⟨-, sameTrans⟩ := write_aligned p c
    refine ih _ (by rw [sameTrans]; exact empty) ?_
    rw [write_eq]
    exact writeRaws_pastSlice p _ empty (plan_trans_ne_nil .buf c) past

theorem write_fills (p : Encoder BytesMut) (c : WriteCall) (aligned : p.trans.ptr = p.buf.ptr) :
    Fills p (write p c) (p.buf.ptr + p.index) c.encoding.length := by
  rw [write_eq, ← plan_bytes .buf c]
  exact writeRaws_fills p _ aligned

theorem run_fills (p : Encoder BytesMut) (calls : List WriteCall) (aligned : p.trans.ptr = p.buf.ptr) :
    Fills p (run p calls) (p.buf.ptr + p.index) (encodingOf calls).length := by
  induction calls generalizing p with
  | nil => exact Fills.refl p _
  | cons c cs ih =>
    obtain ⟨sameBuf, sameTrans⟩ := write_aligned p c
    have next := ih (write p c) (by rw [sameBuf, sameTrans]; exact aligned)
    rw [sameBuf, write_index, ← Nat.add_assoc] at next
    simpa only [run_cons, encodingOf_cons, List.length_append] using (write_fills p c aligned).trans next

/-- Each call moves the cursor by its `write_*_len` and fills exactly the window bytes it moves
over; a sequence fills exactly the `T` bytes of its length pass. -/
theorem length_agreement (threshold : Nat) (lp : TBinaryProtocol BytesMut) (p : Encoder BytesMut)
    (aligned : p.trans.ptr = p.buf.ptr) :
    (∀ done c, (write (run p done) c).index = (run p done).index + (lp.writeLen threshold c).1 ∧
      Fills (run p done) (write (run p done) c) (p.buf.ptr + (run p done).index)
        (lp.writeLen threshold c).1) ∧
    ∀ calls, (run p calls).index = p.index + (lp.lengthPass threshold calls).1 ∧
      Fills p (run p calls) (p.buf.ptr + p.index) (lp.lengthPass threshold calls).1 := by
  refine ⟨fun done c => ?_, fun calls => ?_⟩
  · obtain ⟨sameBuf, sameTrans⟩ := run_frame p done
    rw [TBinaryProtocol.writeLen_eq, write_index, ← sameBuf]
    exact ⟨rfl, write_fills _ c (by rw [sameBuf, sameTrans]; exact aligned)⟩
  · rw [TBinaryProtocol.lengthPass_eq, run_index]
    exact ⟨rfl, run_fills p calls aligned⟩

theorem length_agreement_ping :
    (⟨TBinaryProtocol.new ⟨3, 0, 64⟩ ⟨3, 17⟩ false, fun _ => 0, []⟩ : Encoder BytesMut).trans.ptr =
      (⟨TBinaryProtocol.new ⟨3, 0, 64⟩ ⟨3, 17⟩ false, fun _ => 0, []⟩ : Encoder BytesMut).buf.ptr ∧
    (∀ done c,
      (write (run ⟨TBinaryProtocol.new ⟨3, 0, 64⟩ ⟨3, 17⟩ false, fun _ => 0, []⟩ done) c).index =
          (run ⟨TBinaryProtocol.new ⟨3, 0, 64⟩ ⟨3, 17⟩ false, fun _ => 0, []⟩ done).index +
            ((TBinaryProtocol.new (⟨3, 0, 64⟩ : BytesMut) ⟨3, 17⟩ false).writeLen 0 c).1 ∧
        Fills (run ⟨TBinaryProtocol.new ⟨3, 0, 64⟩ ⟨3, 17⟩ false, fun _ => 0, []⟩ done)
          (write (run ⟨TBinaryProtocol.new ⟨3, 0, 64⟩ ⟨3, 17⟩ false, fun _ => 0, []⟩ done) c)
          (3 + (run ⟨TBinaryProtocol.new ⟨3, 0, 64⟩ ⟨3, 17⟩ false, fun _ => 0, []⟩ done).index)
          ((TBinaryProtocol.new (⟨3, 0, 64⟩ : BytesMut) ⟨3, 17⟩ false).writeLen 0 c).1) ∧
    ∀ calls, (run ⟨TBinaryProtocol.new ⟨3, 0, 64⟩ ⟨3, 17⟩ false, fun _ => 0, []⟩ calls).index =
        0 + ((TBinaryProtocol.new (⟨3, 0, 64⟩ : BytesMut) ⟨3, 17⟩ false).lengthPass 0 calls).1 ∧
      Fills ⟨TBinaryProtocol.new ⟨3, 0, 64⟩ ⟨3, 17⟩ false, fun _ => 0, []⟩
        (run ⟨TBinaryProtocol.new ⟨3, 0, 64⟩ ⟨3, 17⟩ false, fun _ => 0, []⟩ calls) (3 + 0)
        ((TBinaryProtocol.new (⟨3, 0, 64⟩ : BytesMut) ⟨3, 17⟩ false).lengthPass 0 calls).1 :=
  ⟨rfl, length_agreement 0 (TBinaryProtocol.new ⟨3, 0, 64⟩ ⟨3, 17⟩ false)
    ⟨TBinaryProtocol.new ⟨3, 0, 64⟩ ⟨3, 17⟩ false, fun _ => 0, []⟩ rfl⟩

/-- A tail holding one byte: the store through `trans` of `write_i32` lands on it, not in the window. -/
theorem window_not_filled_over_nonempty_tail :
    ((TBinaryProtocol.new (⟨0, 1, 9⟩ : BytesMut) ⟨1, 4⟩ false).lengthPass 0 [.i32 0]).1 = 4 ∧
    ¬Fills (⟨TBinaryProtocol.new ⟨0, 1, 9⟩ ⟨1, 4⟩ false, fun _ => 0xAA, []⟩ : Encoder BytesMut)
      (run ⟨TBinaryProtocol.new ⟨0, 1, 9⟩ ⟨1, 4⟩ false, fun _ => 0xAA, []⟩ [.i32 0]) 1 4 :=
  ⟨rfl, fun fills => absurd fills.holds (by decide)⟩

/-- Over a window at the tail's first byte, the writer leaves the calls' reference layout. -/
theorem bytesMut_writer_layout (trans : BytesMut) (buf : Window) (zeroCopy : Bool)
    (mem : Nat → UInt8) (calls : List WriteCall) (window : buf.ptr = trans.ptr) :
    (run ⟨TBinaryProtocol.new trans buf zeroCopy, mem, []⟩ calls).written = encodingOf calls := by
  rw [run_written _ _ window.symm]
  rfl

theorem bytesMut_writer_layout_ping :
    (⟨3, 17⟩ : Window).ptr = (⟨3, 0, 64⟩ : BytesMut).ptr ∧
      (run ⟨TBinaryProtocol.new ⟨3, 0, 64⟩ ⟨3, 17⟩ false, fun _ => 0, []⟩
        [.messageBegin ⟨[0x70, 0x69, 0x6E, 0x67], .call, 7⟩, .structBegin, .fieldStop,
          .structEnd, .messageEnd]).written =
        encodingOf [.messageBegin ⟨[0x70, 0x69, 0x6E, 0x67], .call, 7⟩, .structBegin, .fieldStop,
          .structEnd, .messageEnd] :=
  ⟨rfl, bytesMut_writer_layout _ _ _ _ _ rfl⟩

example : encodingOf [.messageBegin ⟨[0x70, 0x69, 0x6E, 0x67], .call, 7⟩, .structBegin,
    .fieldStop, .structEnd, .messageEnd] =
    [0x80, 0x01, 0x00, 0x01, 0, 0, 0, 4, 0x70, 0x69, 0x6E, 0x67, 0, 0, 0, 7, 0] := by decide

/-- Every store lies in `[buf.ptr, buf.ptr + T)` for the length pass's `T`, and the stores cover
it: a shorter window is always overrun. -/
theorem stores_cover_length_pass (threshold : Nat) (trans : BytesMut) (buf : Window)
    (zeroCopy : Bool) (mem : Nat → UInt8) (calls : List WriteCall) (window : buf.ptr = trans.ptr) :
    (∀ s, Event.store s ∈ (run ⟨TBinaryProtocol.new trans buf zeroCopy, mem, []⟩ calls).log →
      buf.ptr ≤ s.addr ∧ s.addr + s.bytes.length ≤
        buf.ptr + ((TBinaryProtocol.new trans buf zeroCopy).lengthPass threshold calls).1) ∧
    ∀ a, buf.ptr ≤ a → a < buf.ptr + ((TBinaryProtocol.new trans buf zeroCopy).lengthPass threshold calls).1 →
      ∃ s, Event.store s ∈ (run ⟨TBinaryProtocol.new trans buf zeroCopy, mem, []⟩ calls).log ∧
        s.addr ≤ a ∧ a < s.addr + s.bytes.length := by
  have tiles : Tiles (run ⟨TBinaryProtocol.new trans buf zeroCopy, mem, []⟩ calls).log buf.ptr
      (buf.ptr + (encodingOf calls).length) :=
    (run_fills ⟨TBinaryProtocol.new trans buf zeroCopy, mem, []⟩ calls window.symm).tiles
  rw [TBinaryProtocol.lengthPass_eq]
  exact ⟨fun s member => tiles.within member, fun a lower upper => tiles.cover lower upper⟩

theorem stores_cover_length_pass_short :
    (⟨3, 8⟩ : Window).ptr = (⟨3, 0, 64⟩ : BytesMut).ptr ∧
    (∀ s, Event.store s ∈ (run ⟨TBinaryProtocol.new ⟨3, 0, 64⟩ ⟨3, 8⟩ false, fun _ => 0, []⟩
        [.messageBegin ⟨[0x70, 0x69, 0x6E, 0x67], .call, 7⟩, .fieldStop]).log →
      (⟨3, 8⟩ : Window).ptr ≤ s.addr ∧ s.addr + s.bytes.length ≤ (⟨3, 8⟩ : Window).ptr +
        ((TBinaryProtocol.new (⟨3, 0, 64⟩ : BytesMut) ⟨3, 8⟩ false).lengthPass 0
          [.messageBegin ⟨[0x70, 0x69, 0x6E, 0x67], .call, 7⟩, .fieldStop]).1) ∧
    ∀ a, (⟨3, 8⟩ : Window).ptr ≤ a → a < (⟨3, 8⟩ : Window).ptr +
        ((TBinaryProtocol.new (⟨3, 0, 64⟩ : BytesMut) ⟨3, 8⟩ false).lengthPass 0
          [.messageBegin ⟨[0x70, 0x69, 0x6E, 0x67], .call, 7⟩, .fieldStop]).1 →
      ∃ s, Event.store s ∈ (run ⟨TBinaryProtocol.new ⟨3, 0, 64⟩ ⟨3, 8⟩ false, fun _ => 0, []⟩
          [.messageBegin ⟨[0x70, 0x69, 0x6E, 0x67], .call, 7⟩, .fieldStop]).log ∧
        s.addr ≤ a ∧ a < s.addr + s.bytes.length :=
  ⟨rfl, stores_cover_length_pass 0 ⟨3, 0, 64⟩ ⟨3, 8⟩ false (fun _ => 0)
    [.messageBegin ⟨[0x70, 0x69, 0x6E, 0x67], .call, 7⟩, .fieldStop] rfl⟩

/-- A tail holding one byte: `write_i32` overwrites it through `trans`, and the window does not
hold the encoding. -/
theorem trans_store_overwrites_tail :
    (run ⟨TBinaryProtocol.new ⟨0, 1, 9⟩ ⟨1, 8⟩ false, fun _ => 0xAA, []⟩ [.i32 0]).mem 0 = 0 ∧
    (run ⟨TBinaryProtocol.new ⟨0, 1, 9⟩ ⟨1, 8⟩ false, fun _ => 0xAA, []⟩ [.i32 0]).written ≠
      (WriteCall.i32 0).encoding := by
  decide

end BytesMutWriter

end Pilota
