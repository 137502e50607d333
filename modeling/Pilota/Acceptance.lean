import Pilota.AsyncDecoder

/-! What the readers accept, the converse of the round trips: the bytes a read consumed are a
layout of an encode call that it matches, the writers' own except for a bool and a message
header word. Stated for each reader's primitives, it lifts to every call sequence. -/

namespace Pilota

/-- The layouts the readers accept for an encode call: its reference layout, except that a bool
may be any byte but 0 for `true` and a header word need only carry `VERSION_1` and the type. -/
def WriteCall.Admits : WriteCall → List UInt8 → Prop
  | .messageBegin i, bs => ∃ w : BitVec 32,
      w.toNat / 65536 = 0x8001 ∧ w.toNat % 16 = i.messageType.toU8.toNat ∧
      bs = toBeBytes w ++ (be32 i.name.length ++ i.name ++ be32 i.sequenceNumber.toNat)
  | .bool b, bs => ∃ x : BitVec 8, (x != 0) = b ∧ bs = toBeBytes x
  | c, bs => bs = c.encoding

def WriteCall.Loose : WriteCall → Bool
  | .messageBegin _ | .bool _ => true
  | _ => false

def AdmitsAll : List WriteCall → List UInt8 → Prop
  | [], bs => bs = []
  | c :: cs, bs => ∃ bs₁ bs₂, c.Admits bs₁ ∧ AdmitsAll cs bs₂ ∧ bs = bs₁ ++ bs₂

theorem admits_encoding (c : WriteCall) : c.Admits c.encoding := by
  cases c
  case messageBegin i =>
    obtain ⟨name, t, seq⟩ := i
    refine ⟨versionWord t, by cases t <;> decide,
      show (versionWord t).toNat % 16 = t.toU8.toNat by cases t <;> decide, ?_⟩
    simp only [WriteCall.encoding, toBeBytes_versionWord, List.append_assoc]
  case bool b => exact ⟨if b then 1 else 0, by cases b <;> decide, by cases b <;> rfl⟩
  all_goals rfl

theorem admitsAll_encodingOf (ops : List WriteCall) : AdmitsAll ops (encodingOf ops) := by
  induction ops with
  | nil => rfl
  | cons c cs ih => exact ⟨c.encoding, encodingOf cs, admits_encoding c, ih, rfl⟩

/-- Apart from a bool and a message header, the readers accept a call's layout only. -/
theorem WriteCall.Admits.eq_encoding {c : WriteCall} {bs : List UInt8} (strict : c.Loose = false)
    (admitted : c.Admits bs) : bs = c.encoding := by
  cases c <;> first | exact admitted | cases strict

theorem AdmitsAll.eq_encodingOf {ops : List WriteCall} {bs : List UInt8}
    (strict : ∀ c ∈ ops, c.Loose = false) (admitted : AdmitsAll ops bs) : bs = encodingOf ops := by
  induction ops generalizing bs with
  | nil => exact admitted
  | cons c cs ih =>
    obtain ⟨bs₁, bs₂, first, rest, rfl⟩ := admitted
    rw [encodingOf_cons, first.eq_encoding (strict c (.head _)),
      ih (fun c' member => strict c' (.tail _ member)) rest]

/-- `bs` is an admitted layout of an encode call that `r` matches and whose value is `v`. -/
def ReadCall.Accepted (r : ReadCall) (v : Value) (bs : List UInt8) : Prop :=
  ∃ c : WriteCall, r ∈ c.reads ∧ c.value = v ∧ c.Admits bs

section Acceptance

variable {σ α β : Type} (At : σ → List UInt8 → Prop)

/-- `x` accepts only the layouts `L`: wherever it returns `v`, it has consumed a prefix `bs` of
the unread input with `L v bs`. -/
def Accepts (x : ReadM σ α) (L : α → List UInt8 → Prop) : Prop :=
  ∀ s rest v s', At s rest → x s = some (.ok v, s') →
    ∃ bs rest', rest = bs ++ rest' ∧ At s' rest' ∧ L v bs

variable {At}

theorem accepts_pure (a : α) : Accepts At (pure a) fun v bs => v = a ∧ bs = [] := by
  intro s rest v s' unread ran
  cases ran
  exact ⟨[], rest, rfl, unread, rfl, rfl⟩

theorem accepts_throw (e : DecodeError) (L : α → List UInt8 → Prop) :
    Accepts At (ReadM.throw e) L := by
  intro s rest v s' _ ran
  cases ran

theorem Accepts.mono {x : ReadM σ α} {L L' : α → List UInt8 → Prop} (accepts : Accepts At x L)
    (weaker : ∀ v bs, L v bs → L' v bs) : Accepts At x L' := by
  intro s rest v s' unread ran
  obtain ⟨bs, rest', split, unread', layout⟩ := accepts s rest v s' unread ran
  exact ⟨bs, rest', split, unread', weaker v bs layout⟩

theorem Accepts.bind {x : ReadM σ α} {f : α → ReadM σ β} {L : α → List UInt8 → Prop}
    {M : α → β → List UInt8 → Prop} (first : Accepts At x L) (rest : ∀ a, Accepts At (f a) (M a)) :
    Accepts At (x >>= f) fun b bs => ∃ a bs₁ bs₂, L a bs₁ ∧ M a b bs₂ ∧ bs = bs₁ ++ bs₂ := by
  intro s more v s' unread ran
  rw [ReadM.bind_apply] at ran
  obtain ⟨⟨r, s₁⟩, ranFirst, ranRest⟩ := Option.bind_eq_some.mp ran
  cases r with
  | error e => cases ranRest
  | ok a =>
    obtain ⟨bs₁, more₁, split₁, unread₁, layout₁⟩ := first s more a s₁ unread ranFirst
    obtain ⟨bs₂, more₂, split₂, unread₂, layout₂⟩ := rest a s₁ more₁ v s' unread₁ ranRest
    exact ⟨bs₁ ++ bs₂, more₂, by rw [split₁, split₂, List.append_assoc], unread₂,
      a, bs₁, bs₂, layout₁, layout₂, rfl⟩

theorem Accepts.map {x : ReadM σ α} (f : α → β) {L : β → List UInt8 → Prop}
    (accepts : Accepts At x fun a bs => L (f a) bs) : Accepts At (f <$> x) L :=
  (accepts.bind fun a => accepts_pure (f a)).mono
    fun _ _ ⟨a, bs₁, bs₂, layout, ⟨same, empty⟩, split⟩ => by
      rw [split, empty, List.append_nil, same]
      exact layout

/-! The shared bodies, over accepting primitives. -/

theorem accepts_readTType {byte : ReadM σ UInt8} (oneByte : Accepts At byte fun b bs => bs = [b]) :
    Accepts At (readTType byte) fun t bs => bs = [t.toU8] := by
  refine (oneByte.bind (M := fun n t bs => fieldTypeFromU8 n = .ok t ∧ bs = []) fun n => ?_).mono ?_
  · dsimp only
    split
    · rename_i t named
      exact (accepts_pure t).mono fun _ _ ⟨same, empty⟩ => ⟨same ▸ named, empty⟩
    · exact accepts_throw _ _
  · rintro t bs ⟨n, bs₁, bs₂, rfl, ⟨named, rfl⟩, rfl⟩
    rw [toU8_of_fieldTypeFromU8 named]
    rfl

theorem accepts_readBool {i8 : ReadM σ (BitVec 8)} (int : Accepts At i8 fun x bs => bs = toBeBytes x) :
    Accepts At (readBool i8) fun b bs => (WriteCall.bool b).Admits bs :=
  (int.bind fun x => accepts_pure (x != 0)).mono
    fun _ _ ⟨x, bs₁, bs₂, layout, ⟨same, empty⟩, split⟩ =>
      ⟨x, same.symm, by rw [split, empty, List.append_nil, layout]⟩

theorem accepts_readFieldBegin {byte : ReadM σ UInt8} {i16 : ReadM σ (BitVec 16)}
    (oneByte : Accepts At byte fun b bs => bs = [b])
    (int : Accepts At i16 fun x bs => bs = toBeBytes x) :
    Accepts At (readFieldBegin byte i16) fun f bs => ReadCall.fieldBegin.Accepted (.field f) bs := by
  refine (oneByte.bind (M := fun b f bs => ReadCall.fieldBegin.Accepted (.field f) (b :: bs))
    fun b => ?_).mono ?_
  · dsimp only
    split
    · exact accepts_throw _ _
    · rename_i t named
      have code := TType.toU8_of_tryFrom named
      by_cases stop : t = .stop
      · subst stop
        simp only [if_true]
        refine ((accepts_pure 0).bind fun id => accepts_pure _).mono ?_
        rintro f bs ⟨id, bs₁, bs₂, ⟨rfl, rfl⟩, ⟨rfl, rfl⟩, rfl⟩
        exact ⟨.fieldStop, .head _, rfl, by rw [← code]; rfl⟩
      · simp only [stop, if_false]
        refine (int.bind fun id => accepts_pure _).mono ?_
        rintro f bs ⟨id, bs₁, bs₂, rfl, ⟨rfl, rfl⟩, rfl⟩
        exact ⟨.fieldBegin t id, .head _, rfl, by rw [← code, List.append_nil]; rfl⟩
  · rintro f bs ⟨b, bs₁, bs₂, rfl, accepted, rfl⟩
    exact accepted

theorem accepts_readListBegin {byte : ReadM σ UInt8} {i32 : ReadM σ (BitVec 32)}
    (oneByte : Accepts At byte fun b bs => bs = [b])
    (int : Accepts At i32 fun x bs => bs = toBeBytes x) :
    Accepts At (readListBegin byte i32) fun l bs => bs = (WriteCall.listBegin l).encoding :=
  ((accepts_readTType oneByte).bind fun _ => int.bind fun _ => accepts_pure _).mono
    fun _ _ ⟨t, _, _, first, ⟨size, _, _, word, ⟨same, empty⟩, rest⟩, split⟩ => by
      rw [split, rest, empty, first, word, List.append_nil, same, ← beBytes_i32AsUsize]
      rfl

theorem accepts_readSetBegin {byte : ReadM σ UInt8} {i32 : ReadM σ (BitVec 32)}
    (oneByte : Accepts At byte fun b bs => bs = [b])
    (int : Accepts At i32 fun x bs => bs = toBeBytes x) :
    Accepts At (readSetBegin byte i32) fun l bs => bs = (WriteCall.setBegin l).encoding :=
  ((accepts_readTType oneByte).bind fun _ => int.bind fun _ => accepts_pure _).mono
    fun _ _ ⟨t, _, _, first, ⟨size, _, _, word, ⟨same, empty⟩, rest⟩, split⟩ => by
      rw [split, rest, empty, first, word, List.append_nil, same, ← beBytes_i32AsUsize]
      rfl

theorem accepts_readMapBegin {byte : ReadM σ UInt8} {i32 : ReadM σ (BitVec 32)}
    (oneByte : Accepts At byte fun b bs => bs = [b])
    (int : Accepts At i32 fun x bs => bs = toBeBytes x) :
    Accepts At (readMapBegin byte i32) fun m bs => bs = (WriteCall.mapBegin m).encoding :=
  ((accepts_readTType oneByte).bind fun _ => (accepts_readTType oneByte).bind fun _ =>
      int.bind fun _ => accepts_pure _).mono
    fun _ _ ⟨k, _, _, first, ⟨v, _, _, second, ⟨size, _, _, word, ⟨same, empty⟩, rest⟩, rest'⟩,
      split⟩ => by
      rw [split, rest', rest, empty, first, second, word, List.append_nil, same,
        ← beBytes_i32AsUsize]
      rfl

theorem accepts_readMessageBegin {i32 : ReadM σ (BitVec 32)} {faststr : ReadM σ (List UInt8)}
    (int : Accepts At i32 fun x bs => bs = toBeBytes x)
    (str : Accepts At faststr fun b bs => bs = be32 b.length ++ b) :
    Accepts At (readMessageBegin i32 faststr) fun i bs => (WriteCall.messageBegin i).Admits bs := by
  refine (int.bind (M := fun w i bs => w.toNat / 65536 = 0x8001 ∧
      w.toNat % 16 = i.messageType.toU8.toNat ∧
      bs = be32 i.name.length ++ i.name ++ be32 i.sequenceNumber.toNat) fun w => ?_).mono ?_
  · dsimp only
    split
    · exact accepts_throw _ _
    · split
      · exact accepts_throw _ _
      · rename_i t named
        split
        · exact accepts_throw _ _
        · rename_i version
          refine (str.bind fun name => int.bind fun seq => accepts_pure _).mono ?_
          rintro i bs ⟨name, bs₁, bs₂, rfl, ⟨seq, bs₃, bs₄, rfl, ⟨rfl, rfl⟩, rfl⟩, rfl⟩
          refine ⟨(and_versionMask_eq_version1 w).mp (not_not.mp version),
            (tryFrom_nibble w t).mp named, ?_⟩
          simp only [List.append_nil, List.append_assoc]
          rfl
  · rintro i bs ⟨w, bs₁, bs₂, rfl, ⟨upper, nibble, rest⟩, rfl⟩
    exact ⟨w, upper, nibble, by rw [rest]⟩

variable (At)

/-- What acceptance needs of a reader's primitives. -/
structure PrimsAccept (P : TInputProtocol σ) : Prop where
  readByte : Accepts At P.readByte fun b bs => bs = [b]
  readI8 : Accepts At P.readI8 fun x bs => bs = toBeBytes x
  readI16 : Accepts At P.readI16 fun x bs => bs = toBeBytes x
  readI32 : Accepts At P.readI32 fun x bs => bs = toBeBytes x
  readI64 : Accepts At P.readI64 fun x bs => bs = toBeBytes x
  readDouble : Accepts At P.readDouble fun x bs => bs = toBeBytes x
  readUuid : Accepts At P.readUuid fun u bs => bs = u.toList
  readString : Accepts At P.readString fun b bs => bs = be32 b.length ++ b
  readFaststr : Accepts At P.readFaststr fun b bs => bs = be32 b.length ++ b
  readBytes : Accepts At P.readBytes fun b bs => bs = be32 b.length ++ b
  readBytesVec : Accepts At P.readBytesVec fun b bs => bs = be32 b.length ++ b

variable {At} {P : TInputProtocol σ}

theorem accepts_dispatch (shared : P.Shared) (prims : PrimsAccept At P) (r : ReadCall) :
    Accepts At (dispatch P r) r.Accepted := by
  cases r <;> simp only [dispatch, shared.messageBegin, shared.messageEnd, shared.structBegin,
      shared.structEnd, shared.fieldBegin, shared.fieldEnd, shared.bool, shared.listBegin,
      shared.listEnd, shared.setBegin, shared.setEnd, shared.mapBegin, shared.mapEnd] <;>
    apply Accepts.map
  case messageBegin =>
    exact (accepts_readMessageBegin prims.readI32 prims.readFaststr).mono
      fun i _ admitted => ⟨.messageBegin i, .head _, rfl, admitted⟩
  case fieldBegin => exact accepts_readFieldBegin prims.readByte prims.readI16
  case bool => exact (accepts_readBool prims.readI8).mono fun b _ admitted => ⟨.bool b, .head _, rfl, admitted⟩
  case listBegin =>
    exact (accepts_readListBegin prims.readByte prims.readI32).mono
      fun l _ layout => ⟨.listBegin l, .head _, rfl, layout⟩
  case setBegin =>
    exact (accepts_readSetBegin prims.readByte prims.readI32).mono
      fun l _ layout => ⟨.setBegin l, .head _, rfl, layout⟩
  case mapBegin =>
    exact (accepts_readMapBegin prims.readByte prims.readI32).mono
      fun m _ layout => ⟨.mapBegin m, .head _, rfl, layout⟩
  case bytes => exact prims.readBytes.mono fun b _ layout => ⟨.bytes b, .head _, rfl, layout⟩
  case bytesVec =>
    exact prims.readBytesVec.mono fun b _ layout => ⟨.bytesVec b, .tail _ (.head _), rfl, layout⟩
  case string => exact prims.readString.mono fun b _ layout => ⟨.string b, .head _, rfl, layout⟩
  case faststr =>
    exact prims.readFaststr.mono fun b _ layout => ⟨.faststr b, .tail _ (.head _), rfl, layout⟩
  case uuid => exact prims.readUuid.mono fun u _ layout => ⟨.uuid u, .head _, rfl, layout⟩
  case byte => exact prims.readByte.mono fun b _ layout => ⟨.byte b, .head _, rfl, layout⟩
  case i8 => exact prims.readI8.mono fun x _ layout => ⟨.i8 x, .head _, rfl, layout⟩
  case i16 => exact prims.readI16.mono fun x _ layout => ⟨.i16 x, .head _, rfl, layout⟩
  case i32 => exact prims.readI32.mono fun x _ layout => ⟨.i32 x, .head _, rfl, layout⟩
  case i64 => exact prims.readI64.mono fun x _ layout => ⟨.i64 x, .head _, rfl, layout⟩
  case double => exact prims.readDouble.mono fun x _ layout => ⟨.double x, .head _, rfl, layout⟩
  case structBegin =>
    exact (accepts_pure none).mono fun _ _ ⟨same, empty⟩ =>
      ⟨.structBegin, .head _, by rw [same]; rfl, empty⟩
  case messageEnd =>
    exact (accepts_pure ()).mono fun _ _ ⟨_, empty⟩ => ⟨.messageEnd, .head _, rfl, empty⟩
  case structEnd =>
    exact (accepts_pure ()).mono fun _ _ ⟨_, empty⟩ => ⟨.structEnd, .head _, rfl, empty⟩
  case fieldEnd =>
    exact (accepts_pure ()).mono fun _ _ ⟨_, empty⟩ => ⟨.fieldEnd, .head _, rfl, empty⟩
  case listEnd =>
    exact (accepts_pure ()).mono fun _ _ ⟨_, empty⟩ => ⟨.listEnd, .head _, rfl, empty⟩
  case setEnd =>
    exact (accepts_pure ()).mono fun _ _ ⟨_, empty⟩ => ⟨.setEnd, .head _, rfl, empty⟩
  case mapEnd =>
    exact (accepts_pure ()).mono fun _ _ ⟨_, empty⟩ => ⟨.mapEnd, .head _, rfl, empty⟩

theorem accepts_run (shared : P.Shared) (prims : PrimsAccept At P) (calls : List ReadCall) :
    Accepts At (run P calls) fun vs bs => ∃ ops : List WriteCall,
      List.Forall₂ (fun c r => r ∈ c.reads) ops calls ∧ ops.map WriteCall.value = vs ∧
        AdmitsAll ops bs := by
  induction calls with
  | nil => exact (accepts_pure []).mono fun _ _ ⟨same, empty⟩ => ⟨[], .nil, same.symm, empty⟩
  | cons r rs ih =>
    refine ((accepts_dispatch shared prims r).bind fun v =>
      ih.bind fun vs => accepts_pure (v :: vs)).mono ?_
    rintro _ _ ⟨v, bs₁, bs₂, ⟨c, matching, rfl, admitted⟩,
      ⟨vs, bs₃, bs₄, ⟨ops, matched, values, all⟩, ⟨rfl, rfl⟩, rfl⟩, rfl⟩
    exact ⟨c :: ops, .cons matching matched, by rw [List.map_cons, values],
      bs₁, bs₃, admitted, all, by rw [List.append_nil]⟩

end Acceptance

namespace Decoder

variable {s : List UInt8}

theorem accepts_of_takes {x : ReadM Decoder (List UInt8)} {n : Nat} (takes : AsyncDecoder.Takes x n) :
    Accepts (Unread s) x fun v bs => bs = v ∧ v.length = n := by
  rintro d rest v d' ⟨holds, unread⟩ ran
  have input := holds.input
  subst input
  obtain ⟨result, holds', consumed', within⟩ := takes d (.ok v) d' holds ran
  cases result
  subst unread
  refine ⟨_, _, (List.take_append_drop n _).symm, ⟨holds', ?_⟩, rfl, ?_⟩
  · rw [consumed', ← List.drop_drop]
  · rw [List.length_take, List.length_drop]
    omega

theorem accepts_fixed (w : Nat) (whole : w % 8 = 0) :
    Accepts (Unread s) (fromBeBytes w <$> loadBuf (w / 8)) fun x bs => bs = toBeBytes x :=
  Accepts.map _ ((accepts_of_takes (AsyncDecoder.loadBuf_takes _)).mono
    fun v _ ⟨same, sized⟩ => by rw [toBeBytes_fromBeBytes v sized whole, same])

theorem accepts_prefixed (payload : Nat → ReadM Decoder (List UInt8))
    (takes : ∀ n, AsyncDecoder.Takes (payload n) n) :
    Accepts (Unread s) (readI32 >>= fun len => payload (i32AsUsize len))
      fun b bs => bs = be32 b.length ++ b :=
  ((accepts_fixed 32 rfl).bind fun _ => accepts_of_takes (takes _)).mono
    fun _ _ ⟨len, _, _, word, ⟨same, sized⟩, split⟩ => by
      rw [split, word, same, sized, be32, beBytes_i32AsUsize]

theorem accepts_readUuid : Accepts (Unread s) readUuid fun u bs => bs = u.toList := by
  rintro d rest u d' ⟨holds, unread⟩ ran
  have kept := readUuid_preserves s d _ d' holds ran
  obtain ⟨room, result, rfl⟩ := readUuid_eq_some.mp ran
  cases result
  have ends := holds.ends
  have next : (d.data.drop (d.trans.ptr + d.index)).take 16 = rest.take 16 := by
    rw [holds.input, ← unread]
    rfl
  have sized : (rest.take 16).length = 16 := by
    rw [List.length_take, ← unread, List.length_drop]
    simp only [consumed]
    omega
  refine ⟨_, rest.drop 16, (List.take_append_drop 16 rest).symm, ⟨kept, ?_⟩,
    by rw [next]; exact (Uuid.toList_ofBytes sized).symm⟩
  show s.drop (d.trans.ptr + (d.index + 16)) = _
  rw [← Nat.add_assoc, ← List.drop_drop, ← consumed, unread]

variable (s)

theorem prims_accept (threshold : Nat) : PrimsAccept (Unread s) (protocol threshold) where
  readByte := Accepts.map _ ((accepts_of_takes (AsyncDecoder.loadBuf_takes 1)).mono
    fun v _ ⟨same, sized⟩ => by
      obtain ⟨b, rfl⟩ := List.length_eq_one.mp sized
      rw [same, ofBeBytes_singleton, uint8_ofNat_toNat])
  readI8 := accepts_fixed 8 rfl
  readI16 := accepts_fixed 16 rfl
  readI32 := accepts_fixed 32 rfl
  readI64 := accepts_fixed 64 rfl
  readDouble := accepts_fixed 64 rfl
  readUuid := accepts_readUuid
  readString := accepts_prefixed loadBuf AsyncDecoder.loadBuf_takes
  readFaststr := accepts_prefixed (fun n => if threshold ≤ n then splitPayload n else loadBuf n)
    fun n => by
      dsimp only
      split
      · exact AsyncDecoder.splitPayload_takes n
      · exact AsyncDecoder.loadBuf_takes n
  readBytes := accepts_prefixed splitPayload AsyncDecoder.splitPayload_takes
  readBytesVec := accepts_prefixed splitPayload AsyncDecoder.splitPayload_takes

/-- The bytes the zero copy reader consumed for returned values are admitted layouts of encode
calls the reads match, the writers' own unless a call is a bool or a message header;
conversely every writer layout is admitted (`admitsAll_encodingOf`). -/
theorem zero_copy_accepts_only_layouts (t : Nat) (s : List UInt8) (calls : List ReadCall)
    (vs : List Value) (d : Decoder) (ran : run (protocol t) calls (over s) = some (.ok vs, d)) :
    ∃ ops : List WriteCall, List.Forall₂ (fun c r => r ∈ c.reads) ops calls ∧
      ops.map WriteCall.value = vs ∧ AdmitsAll ops (s.take d.consumed) ∧
      ((∀ c ∈ ops, c.Loose = false) → s.take d.consumed = encodingOf ops) := by
  obtain ⟨bs, rest, whole, ⟨holds, unread⟩, ops, matched, values, admitted⟩ :=
    accepts_run (shared t) (prims_accept s t) calls (over s) (s ++ []) vs d (over_unread s) ran
  rw [List.append_nil] at whole
  have sized : bs.length = d.consumed := by
    have ends := holds.ends
    have cursor := holds.cursor
    have sizes := congrArg List.length unread
    have total := congrArg List.length whole
    simp only [List.length_drop, List.length_append, consumed] at sizes total ⊢
    omega
  have taken : s.take d.consumed = bs := by
    rw [whole]
    exact List.take_left' sized
  rw [taken]
  exact ⟨ops, matched, values, admitted, fun strict => admitted.eq_encodingOf strict⟩

/-- A bool byte 2, which no writer produces, reads as `true`. -/
theorem zero_copy_accepts_only_layouts_two :
    ∃ vs d, run (protocol 0) [.bool] (over [2]) = some (.ok vs, d) ∧
      ∃ ops : List WriteCall, List.Forall₂ (fun c r => r ∈ c.reads) ops [.bool] ∧
        ops.map WriteCall.value = vs ∧ AdmitsAll ops ([2].take d.consumed) ∧
        ((∀ c ∈ ops, c.Loose = false) → [2].take d.consumed = encodingOf ops) :=
  ⟨_, _, rfl, zero_copy_accepts_only_layouts 0 [2] [.bool] _ _ rfl⟩

end Decoder

namespace AsyncDecoder

variable {s : List UInt8}

theorem accepts_readExact (n : Nat) :
    Accepts (Unread s) (readExact n) fun v bs => bs = v ∧ v.length = n := by
  rintro b rest v b' ⟨rfl, within, unread⟩ ran
  by_cases fits : b.pos + n ≤ b.data.length
  · rw [readExact_of_le fits] at ran
    cases ran
    refine ⟨_, rest.drop n, (List.take_append_drop n rest).symm,
      ⟨rfl, by simp only; omega, by simp only [← List.drop_drop, unread]⟩, by rw [unread], ?_⟩
    rw [List.length_take, List.length_drop]
    omega
  · rw [readExact_of_not_le fits] at ran
    cases ran

theorem accepts_fixed (w : Nat) (whole : w % 8 = 0) :
    Accepts (Unread s) (fromBeBytes w <$> readExact (w / 8)) fun x bs => bs = toBeBytes x :=
  Accepts.map _ ((accepts_readExact _).mono
    fun v _ ⟨same, sized⟩ => by rw [toBeBytes_fromBeBytes v sized whole, same])

theorem accepts_readString : Accepts (Unread s) readString fun b bs => bs = be32 b.length ++ b := by
  have zeroed : ∀ len, Accepts (Unread s) (vecZeroed len) fun _ bs => bs = [] := by
    intro len b rest _ b' unread ran
    unfold vecZeroed at ran
    split at ran
    · cases ran
      exact ⟨[], rest, rfl, unread, rfl⟩
    · cases ran
  refine ((accepts_fixed 32 rfl).bind fun len =>
    (zeroed (i32AsUsize len)).bind fun _ => accepts_readExact (i32AsUsize len)).mono ?_
  rintro _ _ ⟨len, _, _, word, ⟨_, _, _, empty, ⟨same, sized⟩, rest⟩, split⟩
  rw [split, rest, empty, word, same, sized, List.nil_append, be32, beBytes_i32AsUsize]

variable (s)

theorem prims_accept : PrimsAccept (Unread s) protocol where
  readByte := Accepts.map _ ((accepts_readExact 1).mono
    fun v _ ⟨same, sized⟩ => by
      obtain ⟨b, rfl⟩ := List.length_eq_one.mp sized
      rw [same, ofBeBytes_singleton, uint8_ofNat_toNat])
  readI8 := accepts_fixed 8 rfl
  readI16 := accepts_fixed 16 rfl
  readI32 := accepts_fixed 32 rfl
  readI64 := accepts_fixed 64 rfl
  readDouble := accepts_fixed 64 rfl
  readUuid := Accepts.map _ ((accepts_readExact 16).mono
    fun v _ ⟨same, sized⟩ => by rw [Uuid.toList_ofBytes sized, same])
  readString := accepts_readString
  readFaststr := accepts_readString
  readBytes := accepts_readString
  readBytesVec := accepts_readString

/-- The same for the streaming reader over a source. -/
theorem streaming_accepts_only_layouts (s : List UInt8) (calls : List ReadCall) (vs : List Value)
    (b : ByteSource) (ran : run protocol calls ⟨s, 0⟩ = some (.ok vs, b)) :
    ∃ ops : List WriteCall, List.Forall₂ (fun c r => r ∈ c.reads) ops calls ∧
      ops.map WriteCall.value = vs ∧ AdmitsAll ops (s.take b.pos) ∧
      ((∀ c ∈ ops, c.Loose = false) → s.take b.pos = encodingOf ops) := by
  obtain ⟨bs, rest, whole, ⟨-, within, unread⟩, ops, matched, values, admitted⟩ :=
    accepts_run shared (prims_accept s) calls ⟨s, 0⟩ s vs b ⟨rfl, Nat.zero_le _, rfl⟩ ran
  have sized : bs.length = b.pos := by
    have sizes := congrArg List.length unread
    have total := congrArg List.length whole
    simp only [List.length_drop, List.length_append] at sizes total
    omega
  have taken : s.take b.pos = bs := by
    rw [whole]
    exact List.take_left' sized
  rw [taken]
  exact ⟨ops, matched, values, admitted, fun strict => admitted.eq_encodingOf strict⟩

/-- A header word with bits set between its type and its version half, which no writer produces,
reads as a call. -/
theorem streaming_accepts_only_layouts_header :
    ∃ vs b, run protocol [.messageBegin]
        ⟨[0x80, 0x01, 0x12, 0x01, 0, 0, 0, 0, 0, 0, 0, 7], 0⟩ = some (.ok vs, b) ∧
      ∃ ops : List WriteCall, List.Forall₂ (fun c r => r ∈ c.reads) ops [.messageBegin] ∧
        ops.map WriteCall.value = vs ∧
        AdmitsAll ops (([0x80, 0x01, 0x12, 0x01, 0, 0, 0, 0, 0, 0, 0, 7] : List UInt8).take b.pos) ∧
        ((∀ c ∈ ops, c.Loose = false) →
          ([0x80, 0x01, 0x12, 0x01, 0, 0, 0, 0, 0, 0, 0, 7] : List UInt8).take b.pos = encodingOf ops) :=
  ⟨_, _, rfl, streaming_accepts_only_layouts _ [.messageBegin] _ _ rfl⟩

end AsyncDecoder

end Pilota
