import Pilota.LinkedBytesWriter
import Pilota.AsyncDecoder

/-! The write side against the read side: what the contiguous writer leaves in its window, and
what the chained writer's chain and tail hold, each reader reads back. Lengths and sizes travel
as `n as i32` and come back as `read_i32() as usize`, which recovers `n` only below `2^31` (or
within `2^31` of `2^64`); of a message header word the readers check only the upper half and
the low nibble. -/

namespace Pilota

namespace RoundTrip

theorem written_eq_encodingOf (trans : BytesMut) (buf : Window) (zeroCopy : Bool)
    (mem : Nat → UInt8) (ops : List WriteCall) (window : buf.ptr = trans.ptr) :
    (BytesMutWriter.run ⟨TBinaryProtocol.new trans buf zeroCopy, mem, []⟩ ops).written =
      encodingOf ops := by
  rw [BytesMutWriter.run_written _ _ window.symm]
  rfl

/-- The round trip through the zero copy reader: over the bytes the contiguous writer wrote for a
call sequence in the format's domain, it returns the values written and consumes all of it. -/
theorem round_trip (threshold : Nat) (trans : BytesMut) (buf : Window) (zeroCopy : Bool)
    (mem : Nat → UInt8) (ops : List WriteCall) (reads : List ReadCall)
    (window : buf.ptr = trans.ptr) (domain : ∀ c ∈ ops, c.WellFormed)
    (matching : List.Forall₂ (fun c r => r ∈ c.reads) ops reads) :
    ∃ d', run (Decoder.protocol threshold) reads
        (Decoder.over (BytesMutWriter.run ⟨TBinaryProtocol.new trans buf zeroCopy, mem, []⟩ ops).written) =
        some (.ok (ops.map WriteCall.value), d') ∧
      d'.consumed =
        (BytesMutWriter.run ⟨TBinaryProtocol.new trans buf zeroCopy, mem, []⟩ ops).written.length := by
  rw [written_eq_encodingOf trans buf zeroCopy mem ops window]
  obtain ⟨d', ran, unread⟩ := decodes_run (Decoder.shared threshold)
    (Decoder.prims_decode threshold _) matching domain _ [] (Decoder.over_unread _)
  exact ⟨d', ran, Decoder.consumed_of_unread_nil _ unread⟩

theorem round_trip_field :
    ((⟨0, 32⟩ : Window).ptr = (⟨0, 0, 32⟩ : BytesMut).ptr ∧
      (∀ c ∈ [WriteCall.fieldBegin .i32 1, .i32 5, .fieldStop], c.WellFormed) ∧
      List.Forall₂ (fun (c : WriteCall) r => r ∈ c.reads)
        [WriteCall.fieldBegin .i32 1, .i32 5, .fieldStop] [.fieldBegin, .i32, .fieldBegin]) ∧
    ∃ d', run (Decoder.protocol 0) [.fieldBegin, .i32, .fieldBegin]
        (Decoder.over (BytesMutWriter.run ⟨TBinaryProtocol.new ⟨0, 0, 32⟩ ⟨0, 32⟩ false, fun _ => 0, []⟩
          [.fieldBegin .i32 1, .i32 5, .fieldStop]).written) =
        some (.ok ([WriteCall.fieldBegin .i32 1, .i32 5, .fieldStop].map WriteCall.value), d') ∧
      d'.consumed = (BytesMutWriter.run ⟨TBinaryProtocol.new ⟨0, 0, 32⟩ ⟨0, 32⟩ false, fun _ => 0, []⟩
          [.fieldBegin .i32 1, .i32 5, .fieldStop]).written.length :=
  ⟨⟨rfl, by decide, .cons (by decide) (.cons (by decide) (.cons (by decide) .nil))⟩,
    round_trip 0 ⟨0, 0, 32⟩ ⟨0, 32⟩ false (fun _ => 0) [.fieldBegin .i32 1, .i32 5, .fieldStop]
      [.fieldBegin, .i32, .fieldBegin] rfl (by decide)
      (.cons (by decide) (.cons (by decide) (.cons (by decide) .nil)))⟩

/-- The round trip through the streaming reader. -/
theorem streaming_round_trip (trans : BytesMut) (buf : Window) (zeroCopy : Bool)
    (mem : Nat → UInt8) (ops : List WriteCall) (reads : List ReadCall)
    (window : buf.ptr = trans.ptr) (domain : ∀ c ∈ ops, c.WellFormed)
    (matching : List.Forall₂ (fun c r => r ∈ c.reads) ops reads) :
    ∃ b', run AsyncDecoder.protocol reads
        ⟨(BytesMutWriter.run ⟨TBinaryProtocol.new trans buf zeroCopy, mem, []⟩ ops).written, 0⟩ =
        some (.ok (ops.map WriteCall.value), b') ∧
      b'.pos = (BytesMutWriter.run ⟨TBinaryProtocol.new trans buf zeroCopy, mem, []⟩ ops).written.length := by
  rw [written_eq_encodingOf trans buf zeroCopy mem ops window]
  obtain ⟨b', ran, _, within, unread⟩ := decodes_run AsyncDecoder.shared
    (AsyncDecoder.prims_decode (encodingOf ops)) matching domain ⟨encodingOf ops, 0⟩ []
    ⟨rfl, Nat.zero_le _, by simp⟩
  exact ⟨b', ran, by have := List.drop_eq_nil_iff.mp unread; omega⟩

theorem streaming_round_trip_field :
    ((⟨0, 32⟩ : Window).ptr = (⟨0, 0, 32⟩ : BytesMut).ptr ∧
      (∀ c ∈ [WriteCall.fieldBegin .i32 1, .i32 5, .fieldStop], c.WellFormed) ∧
      List.Forall₂ (fun (c : WriteCall) r => r ∈ c.reads)
        [WriteCall.fieldBegin .i32 1, .i32 5, .fieldStop] [.fieldBegin, .i32, .fieldBegin]) ∧
    ∃ b', run AsyncDecoder.protocol [.fieldBegin, .i32, .fieldBegin]
        ⟨(BytesMutWriter.run ⟨TBinaryProtocol.new ⟨0, 0, 32⟩ ⟨0, 32⟩ false, fun _ => 0, []⟩
          [.fieldBegin .i32 1, .i32 5, .fieldStop]).written, 0⟩ =
        some (.ok ([WriteCall.fieldBegin .i32 1, .i32 5, .fieldStop].map WriteCall.value), b') ∧
      b'.pos = (BytesMutWriter.run ⟨TBinaryProtocol.new ⟨0, 0, 32⟩ ⟨0, 32⟩ false, fun _ => 0, []⟩
          [.fieldBegin .i32 1, .i32 5, .fieldStop]).written.length :=
  ⟨⟨rfl, by decide, .cons (by decide) (.cons (by decide) (.cons (by decide) .nil))⟩,
    streaming_round_trip ⟨0, 0, 32⟩ ⟨0, 32⟩ false (fun _ => 0) [.fieldBegin .i32 1, .i32 5, .fieldStop]
      [.fieldBegin, .i32, .fieldBegin] rfl (by decide)
      (.cons (by decide) (.cons (by decide) (.cons (by decide) .nil)))⟩

/-- The round trip through the chained writer and the zero copy reader. -/
theorem chained_round_trip (threshold : Nat) (trans : LinkedBytes) (buf : Window) (zeroCopy : Bool)
    (mem : Nat → UInt8) (ops : List WriteCall) (reads : List ReadCall)
    (emptyTail : trans.bytes.len = 0) (emptyChain : trans.list = [])
    (window : buf.ptr = trans.bytes.ptr)
    (reserved : ((TBinaryProtocol.new trans buf zeroCopy).lengthPass threshold ops).1 -
      ((TBinaryProtocol.new trans buf zeroCopy).lengthPass threshold ops).2.zeroCopyLen ≤
        trans.bytes.cap)
    (domain : ∀ c ∈ ops, c.WellFormed)
    (matching : List.Forall₂ (fun c r => r ∈ c.reads) ops reads) :
    ∃ p', LinkedBytesWriter.run threshold ⟨TBinaryProtocol.new trans buf zeroCopy, mem, []⟩ ops =
        some p' ∧
      ∃ d', run (Decoder.protocol threshold) reads (Decoder.over (LinkedBytesWriter.output p')) =
          some (.ok (ops.map WriteCall.value), d') ∧
        d'.consumed = (LinkedBytesWriter.output p').length := by
  obtain ⟨p', ran, out⟩ := LinkedBytesWriter.run_output_of_reserved threshold trans buf zeroCopy
    mem ops emptyTail emptyChain window reserved
  refine ⟨p', ran, ?_⟩
  rw [out]
  obtain ⟨d', decoded, unread⟩ := decodes_run (Decoder.shared threshold)
    (Decoder.prims_decode threshold _) matching domain _ [] (Decoder.over_unread _)
  exact ⟨d', decoded, Decoder.consumed_of_unread_nil _ unread⟩

theorem chained_round_trip_splice :
    ((⟨⟨0, 0, 5⟩, []⟩ : LinkedBytes).bytes.len = 0 ∧ (⟨⟨0, 0, 5⟩, []⟩ : LinkedBytes).list = [] ∧
      (⟨0, 5⟩ : Window).ptr = (⟨⟨0, 0, 5⟩, []⟩ : LinkedBytes).bytes.ptr ∧
      ((TBinaryProtocol.new (⟨⟨0, 0, 5⟩, []⟩ : LinkedBytes) ⟨0, 5⟩ true).lengthPass 4
          [.bytes [1, 2, 3, 4], .byte 7]).1 -
        ((TBinaryProtocol.new (⟨⟨0, 0, 5⟩, []⟩ : LinkedBytes) ⟨0, 5⟩ true).lengthPass 4
          [.bytes [1, 2, 3, 4], .byte 7]).2.zeroCopyLen ≤ 5 ∧
      (∀ c ∈ [WriteCall.bytes [1, 2, 3, 4], .byte 7], c.WellFormed) ∧
      List.Forall₂ (fun (c : WriteCall) r => r ∈ c.reads)
        [WriteCall.bytes [1, 2, 3, 4], .byte 7] [.bytes, .byte]) ∧
    ∃ p', LinkedBytesWriter.run 4 ⟨TBinaryProtocol.new ⟨⟨0, 0, 5⟩, []⟩ ⟨0, 5⟩ true, fun _ => 0, []⟩
        [.bytes [1, 2, 3, 4], .byte 7] = some p' ∧
      ∃ d', run (Decoder.protocol 4) [.bytes, .byte] (Decoder.over (LinkedBytesWriter.output p')) =
          some (.ok ([WriteCall.bytes [1, 2, 3, 4], .byte 7].map WriteCall.value), d') ∧
        d'.consumed = (LinkedBytesWriter.output p').length :=
  ⟨⟨rfl, rfl, rfl, by decide, by decide, .cons (by decide) (.cons (by decide) .nil)⟩,
    chained_round_trip 4 ⟨⟨0, 0, 5⟩, []⟩ ⟨0, 5⟩ true (fun _ => 0) [.bytes [1, 2, 3, 4], .byte 7]
      [.bytes, .byte] rfl rfl rfl (by decide) (by decide)
      (.cons (by decide) (.cons (by decide) .nil))⟩

theorem consumed_of_split {encoding recovered more rest : List UInt8} {consumed : Nat}
    (split : encoding = recovered ++ more)
    (total : consumed + (more ++ rest).length = (encoding ++ rest).length) :
    consumed = recovered.length := by
  subst split
  simp only [List.length_append] at total
  omega

example : (WriteCall.setBegin ⟨.i32, 2 ^ 31⟩).recovered.value = .set ⟨.i32, 2 ^ 64 - 2 ^ 31⟩ := by
  decide

/-- Over a header word, a name and a sequence number, both readers return what `headerVerdict`
decides; the twelve bits between the type and the version are never looked at. -/
theorem message_header_check (threshold : Nat) (w : BitVec 32) (name : List UInt8)
    (short : name.length < 2 ^ 31) (seq : BitVec 32) (rest : List UInt8) :
    (∃ r d', Decoder.readMessageBegin threshold
        (Decoder.over (toBeBytes w ++ ((be32 name.length ++ name) ++ toBeBytes seq) ++ rest)) =
          some (r, d') ∧
      (r.map fun i => (i.name, i.messageType.toU8.toNat, i.sequenceNumber)).mapError
          DecodeError.kind = (headerVerdict w).map fun code => (name, code, seq)) ∧
    (∃ r b', AsyncDecoder.readMessageBegin
        ⟨toBeBytes w ++ ((be32 name.length ++ name) ++ toBeBytes seq) ++ rest, 0⟩ = some (r, b') ∧
      (r.map fun i => (i.name, i.messageType.toU8.toNat, i.sequenceNumber)).mapError
          DecodeError.kind = (headerVerdict w).map fun code => (name, code, seq)) := by
  have prims := Decoder.prims_decode threshold
    (toBeBytes w ++ ((be32 name.length ++ name) ++ toBeBytes seq) ++ rest)
  have streaming := AsyncDecoder.prims_decode
    (toBeBytes w ++ ((be32 name.length ++ name) ++ toBeBytes seq) ++ rest)
  exact ⟨readMessageBegin_header prims.readI32 prims.readFaststr w name short seq _ rest
      ⟨Decoder.over_inv _, by simp [Decoder.consumed, Decoder.over]⟩,
    readMessageBegin_header streaming.readI32 streaming.readFaststr w name short seq _ rest
      ⟨rfl, Nat.zero_le _, by simp⟩⟩

/-- The word `0x80010FF1`, which no writer writes, is accepted as a call. -/
theorem message_header_check_unwritten :
    ([] : List UInt8).length < 2 ^ 31 ∧
    (∃ r d', Decoder.readMessageBegin 0
        (Decoder.over (toBeBytes 0x80010FF1#32 ++ ((be32 ([] : List UInt8).length ++ []) ++
          toBeBytes 7#32) ++ [])) = some (r, d') ∧
      (r.map fun i => (i.name, i.messageType.toU8.toNat, i.sequenceNumber)).mapError
          DecodeError.kind = (headerVerdict 0x80010FF1#32).map fun code => ([], code, 7#32)) ∧
    (∃ r b', AsyncDecoder.readMessageBegin
        ⟨toBeBytes 0x80010FF1#32 ++ ((be32 ([] : List UInt8).length ++ []) ++ toBeBytes 7#32) ++ [],
          0⟩ = some (r, b') ∧
      (r.map fun i => (i.name, i.messageType.toU8.toNat, i.sequenceNumber)).mapError
          DecodeError.kind = (headerVerdict 0x80010FF1#32).map fun code => ([], code, 7#32)) :=
  ⟨by decide, message_header_check 0 0x80010FF1#32 [] (by decide) 7#32 []⟩

example : (Decoder.readMessageBegin 0
    (Decoder.over [0x80, 0x01, 0x0F, 0xF1, 0, 0, 0, 0, 0, 0, 0, 7])).map Prod.fst =
      some (.ok ⟨[], .call, 7#32⟩) := rfl

end RoundTrip

end Pilota
