import Pilota.BytesMutWriter

/-! The chained writer, `TOutputProtocol for TBinaryProtocol<&mut LinkedBytes>`: the contiguous
writer's layout, but with zero copy on a large `bytes` or `faststr` payload is spliced into the
chain by reference. `LinkedBytes` is modelled by the interface the spec gives it. -/

namespace Pilota

/-- A node of the chain: a committed part of an earlier tail, or a payload inserted by reference. -/
inductive Node
  | bytesMut (b : BytesMut)
  | bytes (b : List UInt8)
  | faststr (s : List UInt8)

def Node.data (mem : Nat → UInt8) : Node → List UInt8
  | .bytesMut b => load mem b.ptr b.len
  | .bytes b | .faststr b => b

/-- The collaborator `LinkedBytes`: the writable tail `bytes` and the chain `list` before it. -/
structure LinkedBytes where
  bytes : BytesMut
  list : List Node

instance : Transport LinkedBytes := ⟨LinkedBytes.bytes⟩

/-- `insert` (and `insert_faststr`): the tail's initialised bytes become a node, then the payload's
node follows; the tail keeps the spare capacity. -/
def LinkedBytes.insert (l : LinkedBytes) (node : Node) : LinkedBytes :=
  ⟨l.bytes.split.2, l.list ++ [.bytesMut l.bytes.split.1, node]⟩

namespace LinkedBytesWriter

open Encoder

variable (threshold : Nat)

/-- `advance_mut(index)`, `index = 0`, `insert`, and `buf` re-acquired as
`from_raw_parts_mut(ptr, len)` of the new tail. -/
def splice (p : Encoder LinkedBytes) (node : Node) (payload : List UInt8) :
    Option (Encoder LinkedBytes) := do
  let tail ← p.trans.bytes.advanceMut p.index
  let trans := LinkedBytes.insert ⟨tail, p.trans.list⟩ node
  pure { p with trans := trans, index := 0, buf := ⟨trans.bytes.ptr, trans.bytes.len⟩,
                log := p.log ++ [.splice p.index payload] }

/-- The body `write_bytes` and `write_faststr` share: the prefix, then the payload spliced in when
zero copy is on and it reaches the threshold, copied otherwise. -/
def writeZeroCopy (p : Encoder LinkedBytes) (payload : List UInt8) (node : Node) :
    Option (Encoder LinkedBytes) :=
  let p := p.writeI32 (usizeAsI32 payload.length)
  if p.zeroCopy && threshold ≤ payload.length then splice p node payload
  else some (p.copyPayload payload)

def writeBytes (p : Encoder LinkedBytes) (b : List UInt8) : Option (Encoder LinkedBytes) :=
  writeZeroCopy threshold p b (.bytes b)

def writeFaststr (p : Encoder LinkedBytes) (s : List UInt8) : Option (Encoder LinkedBytes) :=
  writeZeroCopy threshold p s (.faststr s)

/-- `write_uuid`: sixteen bytes through `trans.bytes_mut()`. -/
def writeUuid (p : Encoder LinkedBytes) (u : Uuid) : Encoder LinkedBytes :=
  p.writeRaw .trans 16 u.toList

def writeMessageBegin (p : Encoder LinkedBytes) (identifier : TMessageIdentifier) :
    Option (Encoder LinkedBytes) := do
  let p ← writeFaststr threshold (p.writeI32 (versionWord identifier.messageType)) identifier.name
  pure (p.writeI32 identifier.sequenceNumber)

/-- One encode call; `none` is the panic of `advance_mut` past the capacity. -/
def write (p : Encoder LinkedBytes) : WriteCall → Option (Encoder LinkedBytes)
  | .messageBegin i => writeMessageBegin threshold p i
  | .fieldBegin t id => some (p.writeFieldBegin t id)
  | .fieldStop => some p.writeFieldStop
  | .bool b => some (p.writeBool b)
  | .bytes b => writeBytes threshold p b
  | .byte b => some (p.writeByte b)
  | .uuid u => some (writeUuid p u)
  | .i8 i => some (p.writeI8 i)
  | .i16 i => some (p.writeI16 i)
  | .i32 i => some (p.writeI32 i)
  | .i64 i => some (p.writeI64 i)
  | .double d => some (p.writeDouble d)
  | .string s => some (p.writeString s)
  | .faststr s => writeFaststr threshold p s
  | .listBegin l => some (p.writeListBegin l)
  | .setBegin l => some (p.writeSetBegin l)
  | .mapBegin m => some (p.writeMapBegin m)
  | .bytesVec b => some (p.writeBytesVec b)
  | .messageEnd | .structBegin | .structEnd | .fieldEnd | .listEnd | .setEnd | .mapEnd => some p

def run (p : Encoder LinkedBytes) : List WriteCall → Option (Encoder LinkedBytes)
  | [] => some p
  | c :: cs => (write threshold p c).bind fun p => run p cs

/-- The logical output: the chain's nodes in order, then the window's bytes. -/
def output (p : Encoder LinkedBytes) : List UInt8 :=
  p.trans.list.flatMap (Node.data p.mem) ++ p.written

/-- A step: a piece of a store plan, or a splice (through `insert_faststr` when `faststr`). -/
inductive Step
  | raw (via : Via) (bs : List UInt8)
  | splice (faststr : Bool) (payload : List UInt8)

def payloadNode (faststr : Bool) (payload : List UInt8) : Node :=
  if faststr then .faststr payload else .bytes payload

def Step.bytes : Step → List UInt8
  | .raw _ bs => bs
  | .splice _ payload => payload

def Step.copied : Step → Nat
  | .raw _ bs => bs.length
  | .splice _ _ => 0

def Step.shared : Step → Nat
  | .raw _ _ => 0
  | .splice _ payload => payload.length

def runSteps (p : Encoder LinkedBytes) : List Step → Option (Encoder LinkedBytes)
  | [] => some p
  | .raw via bs :: rest => runSteps (p.writeRaw via bs.length bs) rest
  | .splice faststr payload :: rest =>
    (splice p (payloadNode faststr payload) payload).bind fun p => runSteps p rest

def planSteps (plan : Plan) : List Step := plan.map fun piece => .raw piece.1 piece.2

/-- The steps of a call: its store plan (the uuid through `trans`), except that a payload the chain
takes by reference is spliced in after its length prefix. -/
def stepsOf (zeroCopy : Bool) (c : WriteCall) : List Step :=
  match c with
  | .bytes b =>
    if zeroCopy && threshold ≤ b.length then
      [.raw .trans (toBeBytes (usizeAsI32 b.length)), .splice false b]
    else planSteps (c.plan .trans)
  | .faststr s =>
    if zeroCopy && threshold ≤ s.length then
      [.raw .trans (toBeBytes (usizeAsI32 s.length)), .splice true s]
    else planSteps (c.plan .trans)
  | .messageBegin i =>
    if zeroCopy && threshold ≤ i.name.length then
      [.raw .trans (toBeBytes (versionWord i.messageType)),
        .raw .trans (toBeBytes (usizeAsI32 i.name.length)), .splice true i.name,
        .raw .trans (toBeBytes i.sequenceNumber)]
    else planSteps (c.plan .trans)
  | _ => planSteps (c.plan .trans)

theorem runSteps_planSteps (p : Encoder LinkedBytes) (plan : Plan) :
    runSteps p (planSteps plan) = some (p.writeRaws plan) := by
  induction plan generalizing p with
  | nil => rfl
  | cons piece rest ih => exact ih _

theorem tail_eq (p : Encoder LinkedBytes) : p.tail = p.trans.bytes := rfl

@[simp] theorem zeroCopy_writeI32 (p : Encoder LinkedBytes) (i : BitVec 32) :
    (p.writeI32 i).zeroCopy = p.zeroCopy := rfl

theorem write_eq (p : Encoder LinkedBytes) (c : WriteCall) :
    write threshold p c = runSteps p (stepsOf threshold p.zeroCopy c) := by
  cases c <;> simp only [stepsOf, runSteps_planSteps]
  case bool b => cases b <;> rfl
  case uuid u =>
    show some (p.writeRaw .trans 16 u.toList) = some (p.writeRaw .trans u.toList.length u.toList)
    rw [Mathlib.Vector.toList_length]
  case bytes b =>
    show writeZeroCopy threshold p b _ = _
    by_cases spliced : (p.zeroCopy && threshold ≤ b.length) = true <;>
      simp only [writeZeroCopy, zeroCopy_writeI32, spliced, ↓reduceIte]
    · simp only [runSteps, payloadNode, ↓reduceIte, Bool.false_eq_true, Option.bind_some]
      rfl
    · rfl
  case faststr b =>
    show writeZeroCopy threshold p b _ = _
    by_cases spliced : (p.zeroCopy && threshold ≤ b.length) = true <;>
      simp only [writeZeroCopy, zeroCopy_writeI32, spliced, ↓reduceIte]
    · simp only [runSteps, payloadNode, ↓reduceIte, Bool.false_eq_true, Option.bind_some]
      rfl
    · rfl
  case messageBegin i =>
    show (writeZeroCopy threshold _ i.name _).bind _ = _
    by_cases spliced : (p.zeroCopy && threshold ≤ i.name.length) = true <;>
      simp only [writeZeroCopy, zeroCopy_writeI32, spliced, ↓reduceIte] <;> rfl
  all_goals rfl

def copiedOf : List Step → Nat
  | [] => 0
  | st :: rest => st.copied + copiedOf rest

def sharedOf : List Step → Nat
  | [] => 0
  | st :: rest => st.shared + sharedOf rest

theorem stepsOf_bytes (zeroCopy : Bool) (c : WriteCall) :
    (stepsOf threshold zeroCopy c).flatMap Step.bytes = c.encoding := by
  have planned : ∀ plan : Plan, (planSteps plan).flatMap Step.bytes = plan.bytes := by
    intro plan
    induction plan with
    | nil => rfl
    | cons piece rest ih => simp [planSteps, Step.bytes, Plan.bytes] at ih ⊢; rw [ih]
  cases c <;> simp only [stepsOf] <;> (try split) <;>
    simp only [planned, plan_bytes, List.flatMap_cons, List.flatMap_nil, Step.bytes,
      WriteCall.encoding, toBeBytes_usizeAsI32, toBeBytes_versionWord, List.append_nil,
      List.append_assoc]
  all_goals rfl

theorem stepsOf_shared (zeroCopy : Bool) (c : WriteCall) :
    sharedOf (stepsOf threshold zeroCopy c) = c.zeroCopyBytes threshold zeroCopy := by
  have planned : ∀ plan : Plan, sharedOf (planSteps plan) = 0 := by
    intro plan
    induction plan with
    | nil => rfl
    | cons piece rest ih => simpa [sharedOf, planSteps, Step.shared] using ih
  cases c <;> simp only [stepsOf, WriteCall.zeroCopyBytes] <;> (try split_ifs) <;>
    simp only [planned, sharedOf, Step.shared, Nat.zero_add, Nat.add_zero]

theorem copiedOf_add_sharedOf (steps : List Step) :
    copiedOf steps + sharedOf steps = (steps.flatMap Step.bytes).length := by
  induction steps with
  | nil => rfl
  | cons st rest ih =>
    cases st <;> simp [copiedOf, sharedOf, Step.copied, Step.shared, Step.bytes] at ih ⊢ <;> omega

theorem stepsOf_copied (zeroCopy : Bool) (c : WriteCall) :
    copiedOf (stepsOf threshold zeroCopy c) + c.zeroCopyBytes threshold zeroCopy =
      c.encoding.length := by
  rw [← stepsOf_shared, copiedOf_add_sharedOf, stepsOf_bytes]

theorem splice_eq (p : Encoder LinkedBytes) (node : Node) (payload : List UInt8)
    (room : p.index ≤ p.tail.cap - p.tail.len) :
    splice p node payload = some { p with
      trans := ⟨⟨p.tail.ptr + (p.tail.len + p.index), 0, p.tail.cap - (p.tail.len + p.index)⟩,
        p.trans.list ++ [.bytesMut ⟨p.tail.ptr, p.tail.len + p.index, p.tail.len + p.index⟩, node]⟩,
      index := 0,
      buf := ⟨p.tail.ptr + (p.tail.len + p.index), 0⟩,
      log := p.log ++ [.splice p.index payload] } := by
  have fits : p.index ≤ p.trans.bytes.cap - p.trans.bytes.len := room
  simp [splice, BytesMut.advanceMut, fits, LinkedBytes.insert, BytesMut.split, tail_eq]

def committedBytes : List Event → Nat
  | [] => 0
  | .splice committed _ :: es => committed + committedBytes es
  | .store _ :: es => committedBytes es

def splicedBytes : List Event → Nat
  | [] => 0
  | .splice _ payload :: es => payload.length + splicedBytes es
  | .store _ :: es => splicedBytes es

def StoresWithinRoom (log : List Event) : Prop :=
  ∀ s, Event.store s ∈ log → s.pos + s.bytes.length ≤ s.tail.cap - s.tail.len

theorem splice_spec (p : Encoder LinkedBytes) (node : Node) (payload : List UInt8)
    (room : p.index ≤ p.tail.cap - p.tail.len) :
    ∃ q, splice p node payload = some q ∧ q.index = 0 ∧ q.zeroCopy = p.zeroCopy ∧
      q.tail.cap - q.tail.len = p.tail.cap - p.tail.len - p.index ∧
      q.log = p.log ++ [.splice p.index payload] := by
  refine ⟨_, splice_eq p node payload room, rfl, rfl, ?_, rfl⟩
  show p.tail.cap - (p.tail.len + p.index) - 0 = _
  omega

theorem splice_none (p : Encoder LinkedBytes) (node : Node) (payload : List UInt8)
    (full : ¬ p.index ≤ p.tail.cap - p.tail.len) : splice p node payload = none := by
  have over : ¬ p.index ≤ p.trans.bytes.cap - p.trans.bytes.len := full
  simp [splice, BytesMut.advanceMut, over]

theorem committedBytes_append (es fs : List Event) :
    committedBytes (es ++ fs) = committedBytes es + committedBytes fs := by
  induction es with
  | nil => simp [committedBytes]
  | cons e es ih => cases e <;> simp [committedBytes, ih, Nat.add_assoc]

theorem splicedBytes_append (es fs : List Event) :
    splicedBytes (es ++ fs) = splicedBytes es + splicedBytes fs := by
  induction es with
  | nil => simp [splicedBytes]
  | cons e es ih => cases e <;> simp [splicedBytes, ih, Nat.add_assoc]

theorem storesWithinRoom_append {es fs : List Event} (first : StoresWithinRoom es)
    (second : StoresWithinRoom fs) : StoresWithinRoom (es ++ fs) := by
  intro s member
  rcases List.mem_append.mp member with member | member
  · exact first s member
  · exact second s member

theorem runSteps_accounting (p : Encoder LinkedBytes) (steps : List Step) (slack : Nat)
    (reserved : p.tail.cap - p.tail.len = p.index + copiedOf steps + slack) :
    ∃ p', runSteps p steps = some p' ∧ p'.zeroCopy = p.zeroCopy ∧
      p'.tail.cap - p'.tail.len = p'.index + slack ∧
      ∃ new, p'.log = p.log ++ new ∧ StoresWithinRoom new ∧
        committedBytes new + p'.index = p.index + copiedOf steps ∧
        splicedBytes new = sharedOf steps := by
  induction steps generalizing p with
  | nil =>
    exact ⟨p, rfl, rfl, by simpa [copiedOf] using reserved, [], by simp,
      fun _ member => (nomatch member), by simp [committedBytes, copiedOf], rfl⟩
  | cons st rest ih =>
    cases st with
    | raw via bs =>
      have fits : p.index + bs.length ≤ p.tail.cap - p.tail.len := by
        simp only [copiedOf, Step.copied] at reserved
        omega
      obtain ⟨p', ran, sameCopy, room, new, log, within, committed, spliced⟩ :=
        ih (p.writeRaw via bs.length bs) (by
          simp only [copiedOf, Step.copied, tail_writeRaw,
            writeRaw_index] at reserved ⊢
          omega)
      refine ⟨p', ran, sameCopy, room, .store ⟨via, p.index, bs, p.buf, p.tail⟩ :: new,
        by simp [log], ?_, ?_, by simpa [splicedBytes, sharedOf, Step.shared] using spliced⟩
      · intro s member
        rcases List.mem_cons.mp member with same | member
        · cases same
          exact fits
        · exact within s member
      · simp only [committedBytes, copiedOf, Step.copied] at committed ⊢
        simp only [writeRaw_index] at committed
        omega
    | splice faststr payload =>
      have fits : p.index ≤ p.tail.cap - p.tail.len := by
        simp only [copiedOf, Step.copied] at reserved
        omega
      obtain ⟨q, spliced, qindex, qcopy, qroom, qlog⟩ :=
        splice_spec p (payloadNode faststr payload) payload fits
      obtain ⟨p', ran, sameCopy, room, new, log, within, committed, shared⟩ :=
        ih q (by
          simp only [copiedOf, Step.copied] at reserved ⊢
          omega)
      refine ⟨p', by simp only [runSteps, spliced, Option.bind_some]; exact ran,
        sameCopy.trans qcopy, room, .splice p.index payload :: new, by simp [log, qlog],
        fun s member => ?_, ?_, ?_⟩
      · rcases List.mem_cons.mp member with same | member
        · cases same
        · exact within s member
      · simp only [committedBytes, copiedOf, Step.copied] at committed ⊢
        omega
      · simp [splicedBytes, sharedOf, Step.shared, shared]

theorem run_accounting (p : Encoder LinkedBytes) (calls : List WriteCall) (slack : Nat)
    (reserved : p.tail.cap - p.tail.len = p.index +
      ((encodingOf calls).length - zeroCopyBytesOf threshold p.zeroCopy calls) + slack) :
    ∃ p', run threshold p calls = some p' ∧ p'.tail.cap - p'.tail.len = p'.index + slack ∧
      ∃ new, p'.log = p.log ++ new ∧ StoresWithinRoom new ∧
        committedBytes new + p'.index =
          p.index + ((encodingOf calls).length - zeroCopyBytesOf threshold p.zeroCopy calls) ∧
        splicedBytes new = zeroCopyBytesOf threshold p.zeroCopy calls := by
  induction calls generalizing p with
  | nil =>
    exact ⟨p, rfl, by simpa using reserved, [], by simp, fun _ member => (nomatch member),
      by simp [committedBytes], rfl⟩
  | cons c cs ih =>
    have callCopied := stepsOf_copied threshold p.zeroCopy c
    have restWithin := zeroCopyBytesOf_le threshold p.zeroCopy cs
    simp only [encodingOf_cons, zeroCopyBytesOf_cons, List.length_append] at reserved ⊢
    obtain ⟨q, wrote, qcopy, qroom, new, log, within, committed, shared⟩ :=
      runSteps_accounting p (stepsOf threshold p.zeroCopy c)
        ((encodingOf cs).length - zeroCopyBytesOf threshold p.zeroCopy cs + slack) (by omega)
    obtain ⟨p', ran, room, new', log', within', committed', shared'⟩ :=
      ih q (by rw [qcopy]; omega)
    rw [qcopy] at committed' shared'
    refine ⟨p', by simp only [run, write_eq, wrote, Option.bind_some]; exact ran, room,
      new ++ new', by simp [log', log], storesWithinRoom_append within within', ?_, ?_⟩
    · rw [committedBytes_append]
      clear reserved qroom room
      omega
    · rw [splicedBytes_append, shared, stepsOf_shared, shared']

/-- The chained writer while every window starts at its tail: nothing initialised in the tail, and
every committed segment below it. -/
structure Aligned (p : Encoder LinkedBytes) : Prop where
  empty : p.tail.len = 0
  window : p.buf.ptr = p.tail.ptr
  below : ∀ b, Node.bytesMut b ∈ p.trans.list → b.ptr + b.len ≤ p.tail.ptr

theorem chain_data_congr {mem mem' : Nat → UInt8} (nodes : List Node)
    (same : ∀ b, Node.bytesMut b ∈ nodes → load mem' b.ptr b.len = load mem b.ptr b.len) :
    nodes.flatMap (Node.data mem') = nodes.flatMap (Node.data mem) := by
  induction nodes with
  | nil => rfl
  | cons n ns ih =>
    simp only [List.flatMap_cons]
    rw [ih fun b member => same b (List.mem_cons_of_mem _ member)]
    cases n with
    | bytesMut b => rw [Node.data, Node.data, same b (List.mem_cons_self _ _)]
    | bytes b | faststr b => rfl

theorem writeRaw_output (p : Encoder LinkedBytes) (via : Via) (bs : List UInt8)
    (aligned : Aligned p) :
    Aligned (p.writeRaw via bs.length bs) ∧ output (p.writeRaw via bs.length bs) = output p ++ bs := by
  refine ⟨⟨aligned.empty, aligned.window, aligned.below⟩, ?_⟩
  have committed : p.trans.list.flatMap (Node.data (p.writeRaw via bs.length bs).mem) =
      p.trans.list.flatMap (Node.data p.mem) :=
    chain_data_congr p.trans.list fun b member => by
      have := aligned.below b member
      exact load_writeRaw_below p via _ bs (by rw [aligned.window]; exact this) this
  simp only [output, writeRaw_trans, committed, written_writeRaw p via bs aligned.window.symm,
    List.append_assoc]

theorem splice_output (p q : Encoder LinkedBytes) (faststr : Bool) (payload : List UInt8)
    (aligned : Aligned p) (spliced : splice p (payloadNode faststr payload) payload = some q) :
    Aligned q ∧ output q = output p ++ payload := by
  by_cases room : p.index ≤ p.tail.cap - p.tail.len
  · rw [splice_eq p _ _ room, Option.some.injEq] at spliced
    subst spliced
    obtain ⟨empty, window, below⟩ := aligned
    refine ⟨⟨rfl, rfl, fun b member => ?_⟩, ?_⟩
    · simp only [List.mem_append, List.mem_cons, List.not_mem_nil, or_false] at member
      rcases member with old | segment | node
      · have := below b old
        show _ ≤ p.tail.ptr + (p.tail.len + p.index)
        omega
      · cases segment
        rfl
      · cases faststr <;> cases node
    · cases faststr <;>
        simp [output, written, Node.data, payloadNode, load, empty, window]
  · rw [splice_none p _ _ room] at spliced
    cases spliced

theorem runSteps_output (p p' : Encoder LinkedBytes) (steps : List Step) (aligned : Aligned p)
    (ran : runSteps p steps = some p') :
    Aligned p' ∧ output p' = output p ++ steps.flatMap Step.bytes := by
  induction steps generalizing p with
  | nil =>
    cases Option.some.inj ran
    simpa using aligned
  | cons st rest ih =>
    cases st with
    | raw via bs =>
      obtain ⟨stepAligned, stepOutput⟩ := writeRaw_output p via bs aligned
      obtain ⟨restAligned, restOutput⟩ := ih _ stepAligned ran
      simp [restAligned, restOutput, stepOutput, Step.bytes]
    | splice faststr payload =>
      obtain ⟨q, spliced, ran⟩ := Option.bind_eq_some.mp ran
      obtain ⟨stepAligned, stepOutput⟩ := splice_output p q faststr payload aligned spliced
      obtain ⟨restAligned, restOutput⟩ := ih q stepAligned ran
      simp [restAligned, restOutput, stepOutput, Step.bytes]

theorem run_output (p p' : Encoder LinkedBytes) (calls : List WriteCall) (aligned : Aligned p)
    (ran : run threshold p calls = some p') :
    Aligned p' ∧ output p' = output p ++ encodingOf calls := by
  induction calls generalizing p with
  | nil =>
    cases Option.some.inj ran
    simpa using aligned
  | cons c cs ih =>
    obtain ⟨q, wrote, ran⟩ := Option.bind_eq_some.mp ran
    rw [write_eq] at wrote
    obtain ⟨callAligned, callOutput⟩ := runSteps_output p q _ aligned wrote
    obtain ⟨restAligned, restOutput⟩ := ih q callAligned ran
    rw [restOutput, callOutput, stepsOf_bytes, encodingOf_cons, List.append_assoc]
    exact ⟨restAligned, rfl⟩

theorem run_output_of_reserved (trans : LinkedBytes) (buf : Window) (zeroCopy : Bool)
    (mem : Nat → UInt8) (calls : List WriteCall)
    (emptyTail : trans.bytes.len = 0) (emptyChain : trans.list = [])
    (window : buf.ptr = trans.bytes.ptr)
    (reserved : ((TBinaryProtocol.new trans buf zeroCopy).lengthPass threshold calls).1 -
      ((TBinaryProtocol.new trans buf zeroCopy).lengthPass threshold calls).2.zeroCopyLen ≤
        trans.bytes.cap) :
    ∃ p', run threshold ⟨TBinaryProtocol.new trans buf zeroCopy, mem, []⟩ calls = some p' ∧
      output p' = encodingOf calls := by
  rw [TBinaryProtocol.lengthPass_eq] at reserved
  simp only [TBinaryProtocol.new, Nat.zero_add] at reserved
  obtain ⟨p', ran, -⟩ :=
    run_accounting threshold ⟨TBinaryProtocol.new trans buf zeroCopy, mem, []⟩ calls
      (trans.bytes.cap - ((encodingOf calls).length - zeroCopyBytesOf threshold zeroCopy calls))
      (by
        show trans.bytes.cap - trans.bytes.len =
          0 + ((encodingOf calls).length - zeroCopyBytesOf threshold zeroCopy calls) + _
        omega)
  have start : Aligned ⟨TBinaryProtocol.new trans buf zeroCopy, mem, []⟩ :=
    ⟨emptyTail, window, fun b member => by
      simp only [TBinaryProtocol.new, emptyChain, List.not_mem_nil] at member⟩
  refine ⟨p', ran, ?_⟩
  rw [(run_output threshold _ p' calls start ran).2]
  simp [output, written, load, emptyChain, TBinaryProtocol.new]

/-- With the room the length pass prescribes, the chained writer completes and its logical output
is what the contiguous writer leaves in its window for the same calls. -/
theorem chained_output_eq_contiguous (trans : LinkedBytes) (buf : Window) (zeroCopy : Bool)
    (mem : Nat → UInt8) (flat : BytesMut) (flatBuf : Window) (flatZeroCopy : Bool)
    (flatMem : Nat → UInt8) (calls : List WriteCall)
    (emptyTail : trans.bytes.len = 0) (emptyChain : trans.list = [])
    (window : buf.ptr = trans.bytes.ptr) (flatWindow : flatBuf.ptr = flat.ptr)
    (reserved : ((TBinaryProtocol.new trans buf zeroCopy).lengthPass threshold calls).1 -
      ((TBinaryProtocol.new trans buf zeroCopy).lengthPass threshold calls).2.zeroCopyLen ≤
        trans.bytes.cap) :
    ∃ p', run threshold ⟨TBinaryProtocol.new trans buf zeroCopy, mem, []⟩ calls = some p' ∧
      output p' =
        (BytesMutWriter.run ⟨TBinaryProtocol.new flat flatBuf flatZeroCopy, flatMem, []⟩ calls).written := by
  obtain ⟨p', ran, out⟩ :=
    run_output_of_reserved threshold trans buf zeroCopy mem calls emptyTail emptyChain window reserved
  rw [BytesMutWriter.run_written _ _ flatWindow.symm]
  exact ⟨p', ran, out⟩

theorem chained_output_eq_contiguous_splice :
    ((⟨⟨0, 0, 5⟩, []⟩ : LinkedBytes).bytes.len = 0 ∧ (⟨⟨0, 0, 5⟩, []⟩ : LinkedBytes).list = [] ∧
      (⟨0, 5⟩ : Window).ptr = (⟨⟨0, 0, 5⟩, []⟩ : LinkedBytes).bytes.ptr ∧
      (⟨0, 9⟩ : Window).ptr = (⟨0, 0, 9⟩ : BytesMut).ptr ∧
      ((TBinaryProtocol.new (⟨⟨0, 0, 5⟩, []⟩ : LinkedBytes) ⟨0, 5⟩ true).lengthPass 4
          [.bytes [1, 2, 3, 4], .byte 7]).1 -
        ((TBinaryProtocol.new (⟨⟨0, 0, 5⟩, []⟩ : LinkedBytes) ⟨0, 5⟩ true).lengthPass 4
          [.bytes [1, 2, 3, 4], .byte 7]).2.zeroCopyLen ≤ 5) ∧
    ∃ p', run 4 ⟨TBinaryProtocol.new ⟨⟨0, 0, 5⟩, []⟩ ⟨0, 5⟩ true, fun _ => 0, []⟩
        [.bytes [1, 2, 3, 4], .byte 7] = some p' ∧
      output p' = (BytesMutWriter.run ⟨TBinaryProtocol.new ⟨0, 0, 9⟩ ⟨0, 9⟩ false, fun _ => 0, []⟩
        [.bytes [1, 2, 3, 4], .byte 7]).written :=
  ⟨⟨rfl, rfl, rfl, rfl, by decide⟩, chained_output_eq_contiguous 4 ⟨⟨0, 0, 5⟩, []⟩ ⟨0, 5⟩ true
    (fun _ => 0) ⟨0, 0, 9⟩ ⟨0, 9⟩ false (fun _ => 0) [.bytes [1, 2, 3, 4], .byte 7]
    rfl rfl rfl rfl (by decide)⟩

/-- After a splice, `buf` is re-acquired over the tail's length, which the split has reset to 0:
the next byte is stored at position 0 of a window of length 0. -/
theorem buf_store_outside_reacquired_window :
    ((TBinaryProtocol.new (⟨⟨0, 0, 5⟩, []⟩ : LinkedBytes) ⟨0, 5⟩ true).lengthPass 4
        [.bytes [1, 2, 3, 4], .byte 7]).1 -
      ((TBinaryProtocol.new (⟨⟨0, 0, 5⟩, []⟩ : LinkedBytes) ⟨0, 5⟩ true).lengthPass 4
        [.bytes [1, 2, 3, 4], .byte 7]).2.zeroCopyLen = 5 ∧
    ∃ p', run 4 ⟨TBinaryProtocol.new ⟨⟨0, 0, 5⟩, []⟩ ⟨0, 5⟩ true, fun _ => 0, []⟩
        [.bytes [1, 2, 3, 4], .byte 7] = some p' ∧
      ∃ s, Event.store s ∈ p'.log ∧ s.via = .buf ∧ s.window.len < s.pos + s.bytes.length :=
  ⟨rfl, _, rfl, ⟨.buf, 0, [7], ⟨4, 0⟩, ⟨4, 0, 1⟩⟩, .tail _ (.tail _ (.head _)), rfl, by decide⟩

/-! Where the chained writer stores. -/

/-- The chained writer inside the allocation `start` it began in, with every store so far inside it. -/
structure InAllocation (start : BytesMut) (p : Encoder LinkedBytes) : Prop where
  empty : p.tail.len = 0
  window : p.buf.ptr = p.tail.ptr
  lower : start.ptr ≤ p.tail.ptr
  upper : p.tail.ptr + p.tail.cap = start.ptr + start.cap
  stores : ∀ s, Event.store s ∈ p.log → s.tail.len = 0 ∧ s.window.ptr = s.tail.ptr ∧
    start.ptr ≤ s.tail.ptr ∧ s.tail.ptr + s.tail.cap = start.ptr + start.cap

theorem writeRaw_inAllocation {start : BytesMut} {p : Encoder LinkedBytes} (via : Via)
    (bs : List UInt8) (inside : InAllocation start p) :
    InAllocation start (p.writeRaw via bs.length bs) := by
  refine ⟨inside.empty, inside.window, inside.lower, inside.upper, fun s member => ?_⟩
  rw [writeRaw_log] at member
  rcases List.mem_append.mp member with old | new
  · exact inside.stores s old
  · cases List.mem_singleton.mp new
    exact ⟨inside.empty, inside.window, inside.lower, inside.upper⟩

theorem splice_inAllocation {start : BytesMut} {p q : Encoder LinkedBytes} {node : Node}
    {payload : List UInt8} (inside : InAllocation start p)
    (spliced : splice p node payload = some q) : InAllocation start q := by
  by_cases room : p.index ≤ p.tail.cap - p.tail.len
  · rw [splice_eq p node payload room, Option.some.injEq] at spliced
    subst spliced
    have empty := inside.empty
    have lower := inside.lower
    have upper := inside.upper
    refine ⟨rfl, rfl, ?_, ?_, fun s member => ?_⟩
    · show start.ptr ≤ p.tail.ptr + (p.tail.len + p.index)
      omega
    · show p.tail.ptr + (p.tail.len + p.index) + (p.tail.cap - (p.tail.len + p.index)) = _
      omega
    · rcases List.mem_append.mp member with old | spliceEvent
      · exact inside.stores s old
      · cases List.mem_singleton.mp spliceEvent
  · rw [splice_none p _ _ room] at spliced
    cases spliced

theorem runSteps_inAllocation {start : BytesMut} (p p' : Encoder LinkedBytes) (steps : List Step)
    (inside : InAllocation start p) (ran : runSteps p steps = some p') : InAllocation start p' := by
  induction steps generalizing p with
  | nil =>
    cases Option.some.inj ran
    exact inside
  | cons st rest ih =>
    cases st with
    | raw via bs => exact ih _ (writeRaw_inAllocation via bs inside) ran
    | splice faststr payload =>
      obtain ⟨q, spliced, ran⟩ := Option.bind_eq_some.mp ran
      exact ih q (splice_inAllocation inside spliced) ran

theorem run_inAllocation {start : BytesMut} (p p' : Encoder LinkedBytes) (calls : List WriteCall)
    (inside : InAllocation start p) (ran : run threshold p calls = some p') :
    InAllocation start p' := by
  induction calls generalizing p with
  | nil =>
    cases Option.some.inj ran
    exact inside
  | cons c cs ih =>
    obtain ⟨q, wrote, ran⟩ := Option.bind_eq_some.mp ran
    rw [write_eq] at wrote
    exact ih q (runSteps_inAllocation p q _ inside wrote) ran

/-- With the room the length pass prescribes, every store of the chained writer lies inside the
tail's allocation, also those through a re-acquired `buf` of length 0. -/
theorem stores_inside_tail_allocation (trans : LinkedBytes) (buf : Window) (zeroCopy : Bool)
    (mem : Nat → UInt8) (calls : List WriteCall) (emptyTail : trans.bytes.len = 0)
    (window : buf.ptr = trans.bytes.ptr)
    (reserved : ((TBinaryProtocol.new trans buf zeroCopy).lengthPass threshold calls).1 -
      ((TBinaryProtocol.new trans buf zeroCopy).lengthPass threshold calls).2.zeroCopyLen ≤
        trans.bytes.cap) :
    ∃ p', run threshold ⟨TBinaryProtocol.new trans buf zeroCopy, mem, []⟩ calls = some p' ∧
      ∀ s, Event.store s ∈ p'.log →
        trans.bytes.ptr ≤ s.addr ∧ s.addr + s.bytes.length ≤ trans.bytes.ptr + trans.bytes.cap := by
  rw [TBinaryProtocol.lengthPass_eq] at reserved
  simp only [TBinaryProtocol.new, Nat.zero_add] at reserved
  obtain ⟨p', ran, -, new, log, within, -⟩ :=
    run_accounting threshold ⟨TBinaryProtocol.new trans buf zeroCopy, mem, []⟩ calls
      (trans.bytes.cap - ((encodingOf calls).length - zeroCopyBytesOf threshold zeroCopy calls))
      (by
        show trans.bytes.cap - trans.bytes.len =
          0 + ((encodingOf calls).length - zeroCopyBytesOf threshold zeroCopy calls) + _
        omega)
  have start : InAllocation trans.bytes ⟨TBinaryProtocol.new trans buf zeroCopy, mem, []⟩ :=
    ⟨emptyTail, window, le_refl _, rfl, fun _ member => nomatch member⟩
  have inside := run_inAllocation threshold _ p' calls start ran
  refine ⟨p', ran, fun s member => ?_⟩
  obtain ⟨empty, sameStart, lower, upper⟩ := inside.stores s member
  have room := within s (by simpa [log] using member)
  unfold Store.addr
  split <;> omega

theorem stores_inside_tail_allocation_splice :
    (⟨⟨0, 0, 5⟩, []⟩ : LinkedBytes).bytes.len = 0 ∧ (⟨0, 5⟩ : Window).ptr = (⟨0, 0, 5⟩ : BytesMut).ptr ∧
    ((TBinaryProtocol.new (⟨⟨0, 0, 5⟩, []⟩ : LinkedBytes) ⟨0, 5⟩ true).lengthPass 4
        [.bytes [1, 2, 3, 4], .byte 7]).1 -
      ((TBinaryProtocol.new (⟨⟨0, 0, 5⟩, []⟩ : LinkedBytes) ⟨0, 5⟩ true).lengthPass 4
        [.bytes [1, 2, 3, 4], .byte 7]).2.zeroCopyLen ≤ 5 ∧
    ∃ p', run 4 ⟨TBinaryProtocol.new ⟨⟨0, 0, 5⟩, []⟩ ⟨0, 5⟩ true, fun _ => 0, []⟩
        [.bytes [1, 2, 3, 4], .byte 7] = some p' ∧
      ∀ s, Event.store s ∈ p'.log → 0 ≤ s.addr ∧ s.addr + s.bytes.length ≤ 0 + 5 :=
  ⟨rfl, rfl, by decide, stores_inside_tail_allocation 4 ⟨⟨0, 0, 5⟩, []⟩ ⟨0, 5⟩ true (fun _ => 0)
    [.bytes [1, 2, 3, 4], .byte 7] rfl rfl (by decide)⟩

theorem runSteps_frame (p p' : Encoder LinkedBytes) (steps : List Step)
    (ran : runSteps p steps = some p') : p.log <+: p'.log ∧ p'.zeroCopy = p.zeroCopy := by
  induction steps generalizing p with
  | nil =>
    cases Option.some.inj ran
    exact ⟨List.prefix_refl _, rfl⟩
  | cons st rest ih =>
    cases st with
    | raw via bs =>
      obtain ⟨prefixed, same⟩ := ih _ ran
      exact ⟨(List.prefix_append _ _).trans prefixed, same⟩
    | splice faststr payload =>
      obtain ⟨q, spliced, ran⟩ := Option.bind_eq_some.mp ran
      by_cases room : p.index ≤ p.tail.cap - p.tail.len
      · obtain ⟨q', spliced', -, sameCopy, -, log⟩ := splice_spec p (payloadNode faststr payload) payload room
        rw [spliced'] at spliced
        cases spliced
        obtain ⟨prefixed, same⟩ := ih _ ran
        rw [log] at prefixed
        exact ⟨(List.prefix_append _ _).trans prefixed, same.trans sameCopy⟩
      · rw [splice_none p _ _ room] at spliced
        cases spliced

theorem run_frame (p p' : Encoder LinkedBytes) (calls : List WriteCall)
    (ran : run threshold p calls = some p') : p.log <+: p'.log := by
  induction calls generalizing p with
  | nil =>
    cases Option.some.inj ran
    exact List.prefix_refl _
  | cons c cs ih =>
    obtain ⟨q, wrote, ran⟩ := Option.bind_eq_some.mp ran
    rw [write_eq] at wrote
    exact (runSteps_frame p q _ wrote).1.trans (ih q ran)

theorem runSteps_room (p p' : Encoder LinkedBytes) (steps : List Step)
    (fits : p.index ≤ p.tail.cap - p.tail.len) (ran : runSteps p steps = some p')
    (within : StoresWithinRoom p'.log) :
    p'.index ≤ p'.tail.cap - p'.tail.len ∧
      p'.tail.cap - p'.tail.len - p'.index + copiedOf steps = p.tail.cap - p.tail.len - p.index := by
  induction steps generalizing p with
  | nil =>
    cases Option.some.inj ran
    exact ⟨fits, rfl⟩
  | cons st rest ih =>
    cases st with
    | raw via bs =>
      have stored : p.index + bs.length ≤ p.tail.cap - p.tail.len :=
        within ⟨via, p.index, bs, p.buf, p.tail⟩
          ((runSteps_frame _ p' rest ran).1.subset (by simp))
      obtain ⟨fits', room⟩ := ih _ (by simpa using stored) ran
      simp only [copiedOf, Step.copied, tail_writeRaw, writeRaw_index] at room ⊢
      exact ⟨fits', by omega⟩
    | splice faststr payload =>
      obtain ⟨q, spliced, ran⟩ := Option.bind_eq_some.mp ran
      obtain ⟨q', spliced', qindex, -, qroom, -⟩ :=
        splice_spec p (payloadNode faststr payload) payload fits
      rw [spliced'] at spliced
      cases spliced
      obtain ⟨fits', room⟩ := ih q (by omega) ran
      simp only [copiedOf, Step.copied] at room ⊢
      exact ⟨fits', by omega⟩

theorem run_room (p p' : Encoder LinkedBytes) (calls : List WriteCall)
    (fits : p.index ≤ p.tail.cap - p.tail.len) (ran : run threshold p calls = some p')
    (within : StoresWithinRoom p'.log) :
    p'.tail.cap - p'.tail.len - p'.index +
        ((encodingOf calls).length - zeroCopyBytesOf threshold p.zeroCopy calls) =
      p.tail.cap - p.tail.len - p.index := by
  induction calls generalizing p with
  | nil =>
    cases Option.some.inj ran
    simp
  | cons c cs ih =>
    obtain ⟨q, wrote, ran⟩ := Option.bind_eq_some.mp ran
    rw [write_eq] at wrote
    have withinQ : StoresWithinRoom q.log := fun s member => within s ((run_frame _ q p' cs ran).subset member)
    obtain ⟨fitsQ, room⟩ := runSteps_room p q _ fits wrote withinQ
    have rest := ih q fitsQ ran
    have callCopied := stepsOf_copied threshold p.zeroCopy c
    have restWithin := zeroCopyBytesOf_le threshold p.zeroCopy cs
    rw [(runSteps_frame p q _ wrote).2] at rest
    simp only [encodingOf_cons, zeroCopyBytesOf_cons, List.length_append]
    omega

/-- With less room than `T - Z`, a run either panics in `advance_mut` or stores past the end of the
tail's allocation. -/
theorem short_room_overruns_allocation (trans : LinkedBytes) (buf : Window) (zeroCopy : Bool)
    (mem : Nat → UInt8) (calls : List WriteCall) (emptyTail : trans.bytes.len = 0)
    (window : buf.ptr = trans.bytes.ptr)
    (short : trans.bytes.cap <
      ((TBinaryProtocol.new trans buf zeroCopy).lengthPass threshold calls).1 -
        ((TBinaryProtocol.new trans buf zeroCopy).lengthPass threshold calls).2.zeroCopyLen)
    (p' : Encoder LinkedBytes)
    (ran : run threshold ⟨TBinaryProtocol.new trans buf zeroCopy, mem, []⟩ calls = some p') :
    ∃ s, Event.store s ∈ p'.log ∧ trans.bytes.ptr + trans.bytes.cap < s.addr + s.bytes.length := by
  rw [TBinaryProtocol.lengthPass_eq] at short
  simp only [TBinaryProtocol.new, Nat.zero_add] at short
  have inside := run_inAllocation threshold _ p' calls
    (⟨emptyTail, window, le_refl _, rfl, fun _ member => nomatch member⟩ :
      InAllocation trans.bytes ⟨TBinaryProtocol.new trans buf zeroCopy, mem, []⟩) ran
  by_contra overrun
  have within : StoresWithinRoom p'.log := by
    intro s member
    have safe := Nat.not_lt.mp fun past => overrun ⟨s, member, past⟩
    obtain ⟨empty, sameStart, lower, upper⟩ := inside.stores s member
    unfold Store.addr at safe
    split at safe <;> omega
  have room : p'.tail.cap - p'.tail.len - p'.index +
      ((encodingOf calls).length - zeroCopyBytesOf threshold zeroCopy calls) =
        trans.bytes.cap - trans.bytes.len - 0 :=
    run_room threshold _ p' calls (Nat.zero_le _) ran within
  omega

theorem short_room_overruns_allocation_splice :
    (⟨⟨0, 0, 4⟩, []⟩ : LinkedBytes).bytes.len = 0 ∧ (⟨0, 4⟩ : Window).ptr = (⟨0, 0, 4⟩ : BytesMut).ptr ∧
    (⟨0, 0, 4⟩ : BytesMut).cap <
      ((TBinaryProtocol.new (⟨⟨0, 0, 4⟩, []⟩ : LinkedBytes) ⟨0, 4⟩ true).lengthPass 4
          [.bytes [1, 2, 3, 4], .byte 7]).1 -
        ((TBinaryProtocol.new (⟨⟨0, 0, 4⟩, []⟩ : LinkedBytes) ⟨0, 4⟩ true).lengthPass 4
          [.bytes [1, 2, 3, 4], .byte 7]).2.zeroCopyLen ∧
    ∃ p', run 4 ⟨TBinaryProtocol.new ⟨⟨0, 0, 4⟩, []⟩ ⟨0, 4⟩ true, fun _ => 0, []⟩
        [.bytes [1, 2, 3, 4], .byte 7] = some p' ∧
      ∃ s, Event.store s ∈ p'.log ∧ (⟨0, 0, 4⟩ : BytesMut).ptr + (⟨0, 0, 4⟩ : BytesMut).cap <
        s.addr + s.bytes.length :=
  ⟨rfl, rfl, by decide, _, rfl, short_room_overruns_allocation 4 ⟨⟨0, 0, 4⟩, []⟩ ⟨0, 4⟩ true
    (fun _ => 0) [.bytes [1, 2, 3, 4], .byte 7] rfl rfl (by decide) _ rfl⟩

/-! Committed segments. -/

/-- The chained writer with its tail at or above the address `k`. -/
structure Above (k : Nat) (p : Encoder LinkedBytes) : Prop where
  empty : p.tail.len = 0
  window : p.buf.ptr = p.tail.ptr
  lower : k ≤ p.tail.ptr

def StoresFrom (k : Nat) (log : List Event) : Prop :=
  ∀ s, Event.store s ∈ log → k ≤ s.addr

theorem writeRaw_above {k : Nat} {p : Encoder LinkedBytes} (via : Via) (bs : List UInt8)
    (above : Above k p) :
    Above k (p.writeRaw via bs.length bs) ∧ k ≤ Store.addr ⟨via, p.index, bs, p.buf, p.tail⟩ := by
  refine ⟨⟨above.empty, above.window, above.lower⟩, ?_⟩
  have lower := above.lower
  have window := above.window
  cases via with
  | buf => show k ≤ p.buf.ptr + p.index; omega
  | trans => show k ≤ p.tail.ptr + p.index; omega

theorem splice_above {k : Nat} {p q : Encoder LinkedBytes} {node : Node} {payload : List UInt8}
    (above : Above k p) (spliced : splice p node payload = some q) :
    Above k q ∧ q.log = p.log ++ [.splice p.index payload] := by
  by_cases room : p.index ≤ p.tail.cap - p.tail.len
  · rw [splice_eq p node payload room, Option.some.injEq] at spliced
    subst spliced
    have lower := above.lower
    exact ⟨⟨rfl, rfl, show k ≤ p.tail.ptr + (p.tail.len + p.index) by omega⟩, rfl⟩
  · rw [splice_none p _ _ room] at spliced
    cases spliced

theorem runSteps_above {k : Nat} (p p' : Encoder LinkedBytes) (steps : List Step)
    (above : Above k p) (ran : runSteps p steps = some p') :
    Above k p' ∧ ∃ later, p'.log = p.log ++ later ∧ StoresFrom k later := by
  induction steps generalizing p with
  | nil =>
    cases Option.some.inj ran
    exact ⟨above, [], (List.append_nil _).symm, fun _ member => nomatch member⟩
  | cons st rest ih =>
    cases st with
    | raw via bs =>
      obtain ⟨aboveQ, stored⟩ := writeRaw_above via bs above
      obtain ⟨kept, later, log, stores⟩ := ih _ aboveQ ran
      refine ⟨kept, _ :: later, by rw [log, writeRaw_log, List.append_assoc]; rfl, fun s member => ?_⟩
      rcases List.mem_cons.mp member with here | there
      · cases here
        exact stored
      · exact stores s there
    | splice faststr payload =>
      obtain ⟨q, spliced, ran⟩ := Option.bind_eq_some.mp ran
      obtain ⟨aboveQ, logQ⟩ := splice_above above spliced
      obtain ⟨kept, later, log, stores⟩ := ih q aboveQ ran
      refine ⟨kept, _ :: later, by rw [log, logQ, List.append_assoc]; rfl, fun s member => ?_⟩
      rcases List.mem_cons.mp member with here | there
      · cases here
      · exact stores s there

theorem run_above {k : Nat} (p p' : Encoder LinkedBytes) (calls : List WriteCall)
    (above : Above k p) (ran : run threshold p calls = some p') :
    ∃ later, p'.log = p.log ++ later ∧ StoresFrom k later := by
  induction calls generalizing p with
  | nil =>
    cases Option.some.inj ran
    exact ⟨[], (List.append_nil _).symm, fun _ member => nomatch member⟩
  | cons c cs ih =>
    obtain ⟨q, wrote, ran⟩ := Option.bind_eq_some.mp ran
    rw [write_eq] at wrote
    obtain ⟨kept, first, log, stores⟩ := runSteps_above p q _ above wrote
    obtain ⟨rest, log', stores'⟩ := ih q kept ran
    refine ⟨first ++ rest, by rw [log', log, List.append_assoc], fun s member => ?_⟩
    rcases List.mem_append.mp member with early | late
    · exact stores s early
    · exact stores' s late

/-- A segment committed to the chain is never written again: every store of a later run lies at
or past its end. -/
theorem committed_segments_never_rewritten (trans : LinkedBytes) (buf : Window) (zeroCopy : Bool)
    (mem : Nat → UInt8) (first second : List WriteCall) (emptyTail : trans.bytes.len = 0)
    (emptyChain : trans.list = []) (window : buf.ptr = trans.bytes.ptr) (p₁ p₂ : Encoder LinkedBytes)
    (ranFirst : run threshold ⟨TBinaryProtocol.new trans buf zeroCopy, mem, []⟩ first = some p₁)
    (ranSecond : run threshold p₁ second = some p₂) :
    ∃ later, p₂.log = p₁.log ++ later ∧
      ∀ b, Node.bytesMut b ∈ p₁.trans.list → ∀ s, Event.store s ∈ later → b.ptr + b.len ≤ s.addr := by
  have start : Aligned ⟨TBinaryProtocol.new trans buf zeroCopy, mem, []⟩ :=
    ⟨emptyTail, window, fun b member => by
      simp only [TBinaryProtocol.new, emptyChain, List.not_mem_nil] at member⟩
  have aligned := (run_output threshold _ p₁ first start ranFirst).1
  obtain ⟨later, log, stores⟩ :=
    run_above threshold p₁ p₂ second ⟨aligned.empty, aligned.window, le_refl _⟩ ranSecond
  exact ⟨later, log, fun b member s store => (aligned.below b member).trans (stores s store)⟩

theorem committed_segments_never_rewritten_splice :
    ∃ p₁ p₂, run 4 ⟨TBinaryProtocol.new ⟨⟨0, 0, 8⟩, []⟩ ⟨0, 8⟩ true, fun _ => 0, []⟩
        [.bytes [1, 2, 3, 4]] = some p₁ ∧ run 4 p₁ [.byte 7] = some p₂ ∧
      ∃ later, p₂.log = p₁.log ++ later ∧
        ∀ b, Node.bytesMut b ∈ p₁.trans.list → ∀ s, Event.store s ∈ later → b.ptr + b.len ≤ s.addr :=
  ⟨_, _, rfl, rfl, committed_segments_never_rewritten 4 ⟨⟨0, 0, 8⟩, []⟩ ⟨0, 8⟩ true (fun _ => 0)
    [.bytes [1, 2, 3, 4]] [.byte 7] rfl rfl rfl _ _ rfl rfl⟩

/-! Stores through the tail. -/

theorem stepsOf_trans_ne_nil (zeroCopy : Bool) (c : WriteCall) (bs : List UInt8)
    (member : Step.raw .trans bs ∈ stepsOf threshold zeroCopy c) : bs ≠ [] := by
  have planned : Step.raw .trans bs ∈ planSteps (c.plan .trans) → bs ≠ [] := fun planStep => by
    obtain ⟨⟨via, bs'⟩, inPlan, same⟩ := List.mem_map.mp planStep
    rw [Step.raw.injEq] at same
    obtain ⟨rfl, rfl⟩ := same
    exact plan_trans_ne_nil .trans c _ inPlan rfl
  unfold stepsOf at member
  split at member <;> try exact planned member
  all_goals
    split at member
    · simp only [List.mem_cons, List.not_mem_nil, or_false, false_or, Step.raw.injEq, true_and,
        reduceCtorEq] at member
      rcases member with rfl | rfl | rfl <;> simp [← List.length_pos]
    · exact planned member

theorem runSteps_pastSlice (p p' : Encoder LinkedBytes) (steps : List Step) (empty : p.tail.len = 0)
    (nonempty : ∀ bs, Step.raw .trans bs ∈ steps → bs ≠ []) (past : TransPastSlice p.log)
    (ran : runSteps p steps = some p') : p'.tail.len = 0 ∧ TransPastSlice p'.log := by
  induction steps generalizing p with
  | nil =>
    cases Option.some.inj ran
    exact ⟨empty, past⟩
  | cons st rest ih =>
    have later := fun bs member => nonempty bs (List.mem_cons_of_mem _ member)
    cases st with
    | raw via bs =>
      refine ih (p.writeRaw via bs.length bs) empty later (writeRaw_pastSlice p via bs empty ?_ past) ran
      rintro rfl
      exact nonempty bs (List.mem_cons_self _ _)
    | splice faststr payload =>
      obtain ⟨q, spliced, ran⟩ := Option.bind_eq_some.mp ran
      by_cases room : p.index ≤ p.tail.cap - p.tail.len
      · rw [splice_eq p _ _ room, Option.some.injEq] at spliced
        subst spliced
        refine ih _ ?_ later (transPastSlice_append past fun s member => ?_) ran
        · rfl
        · cases member with
          | tail _ empty => cases empty
      · rw [splice_none p _ _ room] at spliced
        cases spliced

theorem run_pastSlice (p p' : Encoder LinkedBytes) (calls : List WriteCall) (empty : p.tail.len = 0)
    (past : TransPastSlice p.log) (ran : run threshold p calls = some p') : TransPastSlice p'.log := by
  induction calls generalizing p with
  | nil =>
    cases Option.some.inj ran
    exact past
  | cons c cs ih =>
    obtain ⟨q, wrote, ran⟩ := Option.bind_eq_some.mp ran
    rw [write_eq] at wrote
    obtain ⟨emptyQ, pastQ⟩ :=
      runSteps_pastSlice p q _ empty (stepsOf_trans_ne_nil threshold _ c) past wrote
    exact ih q emptyQ pastQ ran

/-- Over an empty tail, every store either writer makes through `trans` reaches past the tail's
initialised bytes, the slice that `get_unchecked_mut` indexes. -/
theorem trans_stores_past_initialised_slice (tail : BytesMut) (chain : List Node) (buf : Window)
    (zeroCopy : Bool) (mem : Nat → UInt8) (calls : List WriteCall) (empty : tail.len = 0) :
    TransPastSlice (BytesMutWriter.run ⟨TBinaryProtocol.new tail buf zeroCopy, mem, []⟩ calls).log ∧
    ∀ p', run threshold ⟨TBinaryProtocol.new ⟨tail, chain⟩ buf zeroCopy, mem, []⟩ calls = some p' →
      TransPastSlice p'.log :=
  ⟨BytesMutWriter.run_pastSlice _ calls empty (fun _ member => nomatch member),
    fun p' ran => run_pastSlice threshold ⟨TBinaryProtocol.new ⟨tail, chain⟩ buf zeroCopy, mem, []⟩ p'
      calls empty (fun _ member => nomatch member) ran⟩

theorem trans_stores_past_initialised_slice_ping :
    (⟨3, 0, 64⟩ : BytesMut).len = 0 ∧
    (Event.store ⟨.trans, 0, toBeBytes (versionWord .call), ⟨3, 17⟩, ⟨3, 0, 64⟩⟩ ∈
      (BytesMutWriter.run ⟨TBinaryProtocol.new ⟨3, 0, 64⟩ ⟨3, 17⟩ false, fun _ => 0, []⟩
        [.messageBegin ⟨[0x70, 0x69, 0x6E, 0x67], .call, 7⟩, .fieldStop]).log) ∧
    TransPastSlice (BytesMutWriter.run ⟨TBinaryProtocol.new ⟨3, 0, 64⟩ ⟨3, 17⟩ false, fun _ => 0, []⟩
        [.messageBegin ⟨[0x70, 0x69, 0x6E, 0x67], .call, 7⟩, .fieldStop]).log ∧
    ∀ p', run 0 ⟨TBinaryProtocol.new ⟨⟨3, 0, 64⟩, []⟩ ⟨3, 17⟩ false, fun _ => 0, []⟩
        [.messageBegin ⟨[0x70, 0x69, 0x6E, 0x67], .call, 7⟩, .fieldStop] = some p' →
      TransPastSlice p'.log :=
  ⟨rfl, List.Mem.head _, trans_stores_past_initialised_slice 0 ⟨3, 0, 64⟩ [] ⟨3, 17⟩ false
    (fun _ => 0) [.messageBegin ⟨[0x70, 0x69, 0x6E, 0x67], .call, 7⟩, .fieldStop] rfl⟩

end LinkedBytesWriter

end Pilota
