import Pilota.Reader

/-! Properties of pairs of reads that the shared bodies keep, proved for the primitives of two
readers and lifted here, once, to every call sequence: a simulation up to excused errors, and
a classification of the errors a reader returns. -/

namespace Pilota

/-- The errors the shared bodies raise. -/
inductive BodyError : DecodeError → Prop
  | missingVersion : BodyError ⟨.badVersion, "Missing version in ReadMessageBegin"⟩
  | badVersion : BodyError ⟨.badVersion, "Bad version in ReadMessageBegin"⟩
  | invalidMessageType (b : UInt8) : BodyError ⟨.invalidData, "invalid message type " ++ toString b⟩
  | invalidTType (b : UInt8) : BodyError ⟨.invalidData, "invalid ttype " ++ toString b⟩

theorem bodyError_ofProtocolError {n : UInt8} {e : ProtocolError}
    (failed : fieldTypeFromU8 n = .error e) : BodyError (.ofProtocolError e) := by
  unfold fieldTypeFromU8 at failed
  split at failed
  · cases failed
  · cases failed
    exact .invalidTType n

section Lifting

variable {σ τ : Type} (Q : ∀ {α : Type}, ReadM σ α → ReadM τ α → Prop)

/-- `Q` is kept by the combinators of the shared bodies: `pure`, their errors, and `?`. -/
structure Lifts : Prop where
  pure : ∀ {α : Type} (a : α), Q (Pure.pure a) (Pure.pure a)
  throw : ∀ {α : Type} (e : DecodeError), BodyError e →
    Q (ReadM.throw e : ReadM σ α) (ReadM.throw e)
  bind : ∀ {α β : Type} {x : ReadM σ α} {y : ReadM τ α} {f : α → ReadM σ β} {g : α → ReadM τ β},
    Q x y → (∀ a, Q (f a) (g a)) → Q (x >>= f) (y >>= g)

/-- `Q` holds of the primitives of two readers. -/
structure Prims (P : TInputProtocol σ) (P' : TInputProtocol τ) : Prop where
  readByte : Q P.readByte P'.readByte
  readI8 : Q P.readI8 P'.readI8
  readI16 : Q P.readI16 P'.readI16
  readI32 : Q P.readI32 P'.readI32
  readI64 : Q P.readI64 P'.readI64
  readDouble : Q P.readDouble P'.readDouble
  readUuid : Q P.readUuid P'.readUuid
  readString : Q P.readString P'.readString
  readFaststr : Q P.readFaststr P'.readFaststr
  readBytes : Q P.readBytes P'.readBytes
  readBytesVec : Q P.readBytesVec P'.readBytesVec

theorem lift_ite {α : Type} {c : Prop} [Decidable c] {a b : ReadM σ α} {a' b' : ReadM τ α}
    (yes : c → Q a a') (no : ¬c → Q b b') : Q (if c then a else b) (if c then a' else b') := by
  by_cases h : c
  · simpa only [if_pos h] using yes h
  · simpa only [if_neg h] using no h

variable {Q} (lifts : Lifts Q)
include lifts

theorem Lifts.map {α β : Type} {x : ReadM σ α} {y : ReadM τ α} (f : α → β) (same : Q x y) :
    Q (f <$> x) (f <$> y) :=
  lifts.bind same fun a => lifts.pure (f a)

/-! The shared bodies, over primitives that `Q` holds of. -/

theorem Lifts.readMessageBegin {i32 : ReadM σ (BitVec 32)} {i32' : ReadM τ (BitVec 32)}
    {faststr : ReadM σ (List UInt8)} {faststr' : ReadM τ (List UInt8)}
    (int : Q i32 i32') (str : Q faststr faststr') :
    Q (Pilota.readMessageBegin i32 faststr) (Pilota.readMessageBegin i32' faststr') := by
  refine lifts.bind int fun size => lift_ite Q (fun _ => lifts.throw _ .missingVersion) fun _ => ?_
  dsimp only
  cases TMessageType.tryFrom (UInt8.ofNat (size &&& 0xf#32).toNat) with
  | none => exact lifts.throw _ (.invalidMessageType _)
  | some messageType =>
    exact lift_ite Q (fun _ => lifts.throw _ .badVersion) fun _ =>
      lifts.bind str fun _ => lifts.bind int fun _ => lifts.pure _

theorem Lifts.readFieldBegin {byte : ReadM σ UInt8} {byte' : ReadM τ UInt8}
    {i16 : ReadM σ (BitVec 16)} {i16' : ReadM τ (BitVec 16)}
    (oneByte : Q byte byte') (int : Q i16 i16') :
    Q (Pilota.readFieldBegin byte i16) (Pilota.readFieldBegin byte' i16') := by
  refine lifts.bind oneByte fun fieldTypeByte => ?_
  split
  · exact lifts.throw _ (.invalidTType _)
  · exact lifts.bind (lift_ite Q (fun _ => lifts.pure _) fun _ => int) fun _ => lifts.pure _

theorem Lifts.readBool {i8 : ReadM σ (BitVec 8)} {i8' : ReadM τ (BitVec 8)} (int : Q i8 i8') :
    Q (Pilota.readBool i8) (Pilota.readBool i8') :=
  lifts.bind int fun _ => lifts.pure _

theorem Lifts.readTType {byte : ReadM σ UInt8} {byte' : ReadM τ UInt8} (oneByte : Q byte byte') :
    Q (Pilota.readTType byte) (Pilota.readTType byte') := by
  refine lifts.bind oneByte fun n => ?_
  split
  · exact lifts.pure _
  · exact lifts.throw _ (bodyError_ofProtocolError ‹_›)

theorem Lifts.readListBegin {byte : ReadM σ UInt8} {byte' : ReadM τ UInt8}
    {i32 : ReadM σ (BitVec 32)} {i32' : ReadM τ (BitVec 32)} (oneByte : Q byte byte')
    (int : Q i32 i32') : Q (Pilota.readListBegin byte i32) (Pilota.readListBegin byte' i32') :=
  lifts.bind (lifts.readTType oneByte) fun _ => lifts.bind int fun _ => lifts.pure _

theorem Lifts.readSetBegin {byte : ReadM σ UInt8} {byte' : ReadM τ UInt8}
    {i32 : ReadM σ (BitVec 32)} {i32' : ReadM τ (BitVec 32)} (oneByte : Q byte byte')
    (int : Q i32 i32') : Q (Pilota.readSetBegin byte i32) (Pilota.readSetBegin byte' i32') :=
  lifts.bind (lifts.readTType oneByte) fun _ => lifts.bind int fun _ => lifts.pure _

theorem Lifts.readMapBegin {byte : ReadM σ UInt8} {byte' : ReadM τ UInt8}
    {i32 : ReadM σ (BitVec 32)} {i32' : ReadM τ (BitVec 32)} (oneByte : Q byte byte')
    (int : Q i32 i32') : Q (Pilota.readMapBegin byte i32) (Pilota.readMapBegin byte' i32') :=
  lifts.bind (lifts.readTType oneByte) fun _ =>
    lifts.bind (lifts.readTType oneByte) fun _ => lifts.bind int fun _ => lifts.pure _

variable {P : TInputProtocol σ} {P' : TInputProtocol τ}

theorem Lifts.dispatch (sharedP : P.Shared) (sharedP' : P'.Shared) (prims : Prims Q P P')
    (c : ReadCall) : Q (Pilota.dispatch P c) (Pilota.dispatch P' c) := by
  cases c <;> simp only [Pilota.dispatch, sharedP.messageBegin, sharedP'.messageBegin,
    sharedP.messageEnd, sharedP'.messageEnd, sharedP.structBegin, sharedP'.structBegin,
    sharedP.structEnd, sharedP'.structEnd, sharedP.fieldBegin, sharedP'.fieldBegin,
    sharedP.fieldEnd, sharedP'.fieldEnd, sharedP.bool, sharedP'.bool, sharedP.listBegin,
    sharedP'.listBegin, sharedP.listEnd, sharedP'.listEnd, sharedP.setBegin, sharedP'.setBegin,
    sharedP.setEnd, sharedP'.setEnd, sharedP.mapBegin, sharedP'.mapBegin, sharedP.mapEnd,
    sharedP'.mapEnd] <;> apply lifts.map
  case messageBegin => exact lifts.readMessageBegin prims.readI32 prims.readFaststr
  case fieldBegin => exact lifts.readFieldBegin prims.readByte prims.readI16
  case bool => exact lifts.readBool prims.readI8
  case listBegin => exact lifts.readListBegin prims.readByte prims.readI32
  case setBegin => exact lifts.readSetBegin prims.readByte prims.readI32
  case mapBegin => exact lifts.readMapBegin prims.readByte prims.readI32
  case bytes => exact prims.readBytes
  case uuid => exact prims.readUuid
  case string => exact prims.readString
  case faststr => exact prims.readFaststr
  case byte => exact prims.readByte
  case i8 => exact prims.readI8
  case i16 => exact prims.readI16
  case i32 => exact prims.readI32
  case i64 => exact prims.readI64
  case double => exact prims.readDouble
  case bytesVec => exact prims.readBytesVec
  all_goals exact lifts.pure _

theorem Lifts.run (calls : ∀ c, Q (Pilota.dispatch P c) (Pilota.dispatch P' c))
    (cs : List ReadCall) : Q (Pilota.run P cs) (Pilota.run P' cs) := by
  induction cs with
  | nil => exact lifts.pure []
  | cons c cs ih => exact lifts.bind (calls c) fun _ => lifts.bind ih fun _ => lifts.pure _

end Lifting

section Simulation

variable {σ τ α β : Type} (R : σ → τ → Prop) (Bad : DecodeError → Prop)

def Avoids (r : Except DecodeError α) : Prop := ∀ e, r = .error e → ¬Bad e

@[simp] theorem avoids_ok (a : α) : Avoids Bad (.ok a) := fun _ => nofun

@[simp] theorem avoids_error (e : DecodeError) : Avoids Bad (.error e : Except DecodeError α) ↔ ¬Bad e :=
  ⟨fun avoids => avoids e rfl, fun good _ same => by cases same; exact good⟩

/-- `y` simulates `x` under `R` up to the errors `Bad`. -/
def Sim (x : ReadM σ α) (y : ReadM τ α) : Prop :=
  ∀ s t r s', R s t → x s = some (r, s') → Avoids Bad r → ∃ t', y t = some (r, t') ∧ R s' t'

variable {Bad}

theorem sim_pure (a : α) : Sim R Bad (pure a) (pure a) := by
  intro s t r s' related ran _
  cases ran
  exact ⟨t, rfl, related⟩

theorem sim_throw (e : DecodeError) : Sim R Bad (ReadM.throw e : ReadM σ α) (ReadM.throw e) := by
  intro s t r s' related ran _
  cases ran
  exact ⟨t, rfl, related⟩

theorem sim_bind {x : ReadM σ α} {y : ReadM τ α} {f : α → ReadM σ β} {g : α → ReadM τ β}
    (first : Sim R Bad x y) (rest : ∀ a, Sim R Bad (f a) (g a)) :
    Sim R Bad (x >>= f) (y >>= g) := by
  intro s t r s' related ran avoids
  rw [ReadM.bind_apply] at ran
  obtain ⟨⟨r₁, s₁⟩, ranFirst, ranRest⟩ := Option.bind_eq_some.mp ran
  cases r₁ with
  | error e =>
    cases ranRest
    obtain ⟨t₁, simFirst, related₁⟩ :=
      first s t _ _ related ranFirst ((avoids_error Bad e).mpr ((avoids_error Bad e).mp avoids))
    exact ⟨t₁, by rw [ReadM.bind_apply, simFirst]; rfl, related₁⟩
  | ok a =>
    obtain ⟨t₁, simFirst, related₁⟩ := first s t _ s₁ related ranFirst (avoids_ok Bad a)
    obtain ⟨t', simRest, related'⟩ := rest a s₁ t₁ r s' related₁ ranRest avoids
    exact ⟨t', by rw [ReadM.bind_apply, simFirst]; exact simRest, related'⟩

variable (Bad)

theorem sim_lifts : Lifts fun {α} => @Sim σ τ α R Bad :=
  ⟨sim_pure R, fun e _ => sim_throw R e, sim_bind R⟩

variable {Bad}

/-- A simulation turned around where the second reader is defined. -/
theorem sim_flip {x : ReadM σ α} {y : ReadM τ α} (forward : Sim R (fun _ => False) x y)
    (defined : ∀ s t r t', R s t → y t = some (r, t') → Avoids Bad r → ∃ r' s', x s = some (r', s')) :
    Sim (flip R) Bad y x := by
  intro t s r t' related ran avoids
  obtain ⟨r', s', ranX⟩ := defined s t r t' related ran avoids
  obtain ⟨t'', ranY, related'⟩ := forward s t r' s' related ranX fun _ _ => id
  rw [ranY] at ran
  cases ran
  exact ⟨s', ranX, related'⟩

variable {P : TInputProtocol σ} {Q : TInputProtocol τ}

/-- Simulating readers trace a call sequence alike. -/
theorem sim_trace (calls : ∀ c, Sim R Bad (dispatch P c) (dispatch Q c))
    (consumedP : σ → Nat) (consumedQ : τ → Nat)
    (agree : ∀ s t, R s t → consumedP s = consumedQ t) (cs : List ReadCall) :
    ∀ s t ts, R s t → trace P consumedP cs s = some ts → (∀ p ∈ ts, Avoids Bad p.1) →
      trace Q consumedQ cs t = some ts := by
  induction cs with
  | nil => exact fun _ _ _ _ traced _ => traced
  | cons c cs ih =>
    intro s t ts related traced avoids
    obtain ⟨⟨r, s'⟩, stepped, rest⟩ := Option.bind_eq_some.mp traced
    cases r with
    | ok v =>
      obtain ⟨ts', restTraced, rfl⟩ := Option.map_eq_some'.mp rest
      obtain ⟨t', simStep, related'⟩ := calls c s t _ s' related stepped (avoids_ok Bad v)
      simp only [trace, simStep, Option.some_bind]
      simp [ih s' t' ts' related' restTraced fun p member => avoids p (.tail _ member),
        agree s' t' related']
    | error e =>
      cases rest
      obtain ⟨t', simStep, related'⟩ := calls c s t _ s' related stepped (avoids _ (.head _))
      simp [trace, simStep, agree s' t' related']

end Simulation

section Invariant

variable {σ α : Type} (Inv : σ → Prop)

/-- `x` keeps `Inv`: from a state where it holds, wherever `x` is defined, it holds after. -/
def Preserves (x : ReadM σ α) : Prop :=
  ∀ s r s', Inv s → x s = some (r, s') → Inv s'

def Diagonal (s t : σ) : Prop := Inv s ∧ s = t

theorem sim_diagonal {Bad : DecodeError → Prop} {x : ReadM σ α} (keeps : Preserves Inv x) :
    Sim (Diagonal Inv) Bad x x := by
  rintro s _ r s' ⟨holds, rfl⟩ ran _
  exact ⟨s', ran, keeps s r s' holds ran, rfl⟩

theorem preserves_of_sim {x : ReadM σ α} (same : Sim (Diagonal Inv) (fun _ => False) x x) :
    Preserves Inv x := by
  intro s r s' holds ran
  obtain ⟨_, _, holds', _⟩ := same s s r s' ⟨holds, rfl⟩ ran fun _ _ => id
  exact holds'

end Invariant

section Errors

variable {σ α β : Type} (Good : DecodeError → Prop)

def ErrorsIn (x : ReadM σ α) : Prop := ∀ s e s', x s = some (.error e, s') → Good e

variable {Good}

theorem errorsIn_pure (a : α) : ErrorsIn Good (pure a : ReadM σ α) := by
  intro s e s' ran
  cases ran

theorem errorsIn_throw {e : DecodeError} (good : Good e) :
    ErrorsIn Good (ReadM.throw e : ReadM σ α) := by
  intro s e' s' ran
  cases ran
  exact good

theorem errorsIn_bind {x : ReadM σ α} {f : α → ReadM σ β} (first : ErrorsIn Good x)
    (rest : ∀ a, ErrorsIn Good (f a)) : ErrorsIn Good (x >>= f) := by
  intro s e s' ran
  rw [ReadM.bind_apply] at ran
  obtain ⟨⟨r₁, s₁⟩, ranFirst, ranRest⟩ := Option.bind_eq_some.mp ran
  cases r₁ with
  | error e₁ =>
    cases ranRest
    exact first s e _ ranFirst
  | ok a => exact rest a s₁ e s' ranRest

theorem errorsIn_lifts (body : ∀ e, BodyError e → Good e) :
    Lifts fun {α} (x y : ReadM σ α) => ErrorsIn Good x ∧ ErrorsIn Good y :=
  ⟨fun a => ⟨errorsIn_pure a, errorsIn_pure a⟩,
    fun _ bodyError => ⟨errorsIn_throw (body _ bodyError), errorsIn_throw (body _ bodyError)⟩,
    fun first rest => ⟨errorsIn_bind first.1 fun a => (rest a).1,
      errorsIn_bind first.2 fun a => (rest a).2⟩⟩

end Errors

end Pilota
