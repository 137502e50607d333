import Pilota.AsyncDecoder

/-! What the zero copy reader looks at: the bytes after its cursor, and of those only the ones
it consumes. Each primitive takes the next bytes, and the simulation lifts that to every call
sequence. -/

namespace Pilota

namespace Framing

open AsyncDecoder

/-- Two zero copy readers in step, the second `k` bytes further on and with at least the
first's unread bytes; what lies before the cursors is not compared. -/
structure Extends (k : Nat) (d e : Decoder) : Prop where
  left : d.Inv d.data
  right : e.Inv e.data
  consumed : d.consumed + k = e.consumed
  unread : d.data.drop d.consumed <+: e.data.drop e.consumed

structure SameUnread (d e : Decoder) : Prop where
  left : d.Inv d.data
  right : e.Inv e.data
  consumed : d.consumed = e.consumed
  unread : d.data.drop d.consumed = e.data.drop e.consumed

theorem SameUnread.extends {d e : Decoder} (same : SameUnread d e) :
    Extends 0 d e ∧ Extends 0 e d :=
  ⟨⟨same.left, same.right, same.consumed, same.unread ▸ List.prefix_refl _⟩,
    ⟨same.right, same.left, same.consumed.symm, same.unread ▸ List.prefix_refl _⟩⟩

theorem consumed_le_length {d : Decoder} (holds : d.Inv d.data) : d.consumed ≤ d.data.length := by
  have ends := holds.ends
  have cursor := holds.cursor
  simp only [Decoder.consumed]
  omega

theorem Extends.take {k : Nat} {d e : Decoder} (ext : Extends k d e) {n : Nat}
    (within : d.consumed + n ≤ d.data.length) :
    (e.data.drop e.consumed).take n = (d.data.drop d.consumed).take n := by
  have longer := ext.unread.length_le
  simp only [List.length_drop] at longer
  refine ((ext.unread.take n).eq_of_length ?_).symm
  simp only [List.length_take, List.length_drop]
  omega

theorem sim_takes_ext {k : Nat} {x y : ReadM Decoder (List UInt8)} {n : Nat} (takesX : Takes x n)
    (takesY : Takes y n) (givesY : Gives y n) : Sim (Extends k) (fun _ => False) x y := by
  rintro d e r d' ext ran _
  obtain ⟨rfl, left', consumed', within⟩ := takesX d r d' ext.left ran
  have longer := ext.unread.length_le
  have below := consumed_le_length ext.right
  have consumed := ext.consumed
  simp only [List.length_drop] at longer
  obtain ⟨r', e', ranY⟩ := givesY e ext.right (by omega)
  obtain ⟨rfl, right', consumedE, -⟩ := takesY e r' e' ext.right ranY
  refine ⟨e', by rw [ranY, ext.take within], ?_, ?_, ?_, ?_⟩
  · rwa [left'.input]
  · rwa [right'.input]
  · omega
  · rw [left'.input, right'.input, consumed', consumedE, ← List.drop_drop, ← List.drop_drop]
    exact ext.unread.drop n

theorem sim_readUuid_ext (k : Nat) :
    Sim (Extends k) (fun _ => False) Decoder.readUuid Decoder.readUuid := by
  rintro d e r d' ext ran _
  have kept := Decoder.readUuid_preserves _ d r d' ext.left ran
  obtain ⟨room, rfl, rfl⟩ := Decoder.readUuid_eq_some.mp ran
  have longer := ext.unread.length_le
  have endsD := ext.left.ends
  have endsE := ext.right.ends
  have consumed := ext.consumed
  have taken := ext.take (n := 16)
  simp only [List.length_drop, Decoder.consumed] at longer consumed taken
  refine ⟨_, Decoder.readUuid_eq_some.mpr ⟨by omega, by rw [taken (by omega)], rfl⟩, kept,
    Decoder.readUuid_preserves _ e _ _ ext.right (Decoder.readUuid_eq_some.mpr ⟨by omega, rfl, rfl⟩),
    by simp only [Decoder.consumed]; omega, ?_⟩
  show d.data.drop (d.trans.ptr + (d.index + 16)) <+: e.data.drop (e.trans.ptr + (e.index + 16))
  rw [← Nat.add_assoc, ← Nat.add_assoc, ← List.drop_drop 16 (d.trans.ptr + d.index),
    ← List.drop_drop 16 (e.trans.ptr + e.index)]
  exact ext.unread.drop 16

theorem prims_extends (k t t' : Nat) :
    Prims (Sim (Extends k) fun _ => False) (Decoder.protocol t) (Decoder.protocol t') := by
  have lifts := sim_lifts (Extends k) fun _ => False
  have load := fun n =>
    sim_takes_ext (k := k) (loadBuf_takes n) (loadBuf_takes n) (loadBuf_gives n)
  have split := fun n =>
    sim_takes_ext (k := k) (splitPayload_takes n) (splitPayload_takes n) (splitPayload_gives n)
  have int : Sim (Extends k) (fun _ => False) Decoder.readI32 Decoder.readI32 :=
    lifts.map _ (load 4)
  refine ⟨lifts.map _ (load 1), lifts.map _ (load 1), lifts.map _ (load 2), int,
    lifts.map _ (load 8), lifts.map _ (load 8), sim_readUuid_ext k, lifts.bind int fun _ => load _,
    lifts.bind int fun _ => ?_, lifts.bind int fun _ => split _, lifts.bind int fun _ => split _⟩
  dsimp only
  split <;> split
  · exact split _
  · exact sim_takes_ext (splitPayload_takes _) (loadBuf_takes _) (loadBuf_gives _)
  · exact sim_takes_ext (loadBuf_takes _) (splitPayload_takes _) (splitPayload_gives _)
  · exact load _

theorem trace_of_extends (t t' : Nat) {d e : Decoder} (calls : List ReadCall)
    {ts : List (Except DecodeError Value × Nat)} (ext : Extends 0 d e)
    (traced : trace (Decoder.protocol t) Decoder.consumed calls d = some ts) :
    trace (Decoder.protocol t') Decoder.consumed calls e = some ts :=
  sim_trace (Extends 0)
    ((sim_lifts (Extends 0) _).dispatch (Decoder.shared t) (Decoder.shared t')
      (prims_extends 0 t t'))
    Decoder.consumed Decoder.consumed (fun _ _ ext => ext.consumed) calls _ _ ts ext traced
    fun _ _ _ _ => id

/-- The zero copy reader never looks behind its cursor, and the threshold only decides split or
copy: readers with the same unread bytes trace every call sequence alike. -/
theorem trace_determined_by_unread_input (t t' : Nat) (d e : Decoder) (calls : List ReadCall)
    (same : SameUnread d e) :
    trace (Decoder.protocol t) Decoder.consumed calls d =
      trace (Decoder.protocol t') Decoder.consumed calls e := by
  obtain ⟨forward, backward⟩ := same.extends
  cases traced : trace (Decoder.protocol t) Decoder.consumed calls d with
  | some ts => exact (trace_of_extends t t' calls forward traced).symm
  | none =>
    cases traced' : trace (Decoder.protocol t') Decoder.consumed calls e with
    | none => rfl
    | some ts =>
      rw [trace_of_extends t' t calls backward traced'] at traced
      cases traced

/-- Readers that passed or split off a byte, over inputs that differ in it, read a field alike. -/
theorem trace_determined_by_unread_input_split :
    SameUnread ⟨[9, 8, 0, 1], ⟨0, 4, 4⟩, ⟨0, 4⟩, 1⟩ ⟨[5, 8, 0, 1], ⟨1, 3, 3⟩, ⟨1, 3⟩, 0⟩ ∧
      trace (Decoder.protocol 0) Decoder.consumed [.fieldBegin] ⟨[9, 8, 0, 1], ⟨0, 4, 4⟩, ⟨0, 4⟩, 1⟩ =
        trace (Decoder.protocol 100) Decoder.consumed [.fieldBegin]
          ⟨[5, 8, 0, 1], ⟨1, 3, 3⟩, ⟨1, 3⟩, 0⟩ :=
  have same : SameUnread ⟨[9, 8, 0, 1], ⟨0, 4, 4⟩, ⟨0, 4⟩, 1⟩ ⟨[5, 8, 0, 1], ⟨1, 3, 3⟩, ⟨1, 3⟩, 0⟩ :=
    ⟨⟨rfl, rfl, by decide, rfl⟩, ⟨rfl, rfl, by decide, rfl⟩, rfl, rfl⟩
  ⟨same, trace_determined_by_unread_input 0 100 _ _ [.fieldBegin] same⟩

/-- Nor does it look past what it consumes: a trace over an input is the trace over that input
followed by any bytes. -/
theorem trace_of_longer_input (t t' : Nat) (s rest : List UInt8) (calls : List ReadCall)
    (ts : List (Except DecodeError Value × Nat))
    (traced : trace (Decoder.protocol t) Decoder.consumed calls (Decoder.over s) = some ts) :
    trace (Decoder.protocol t') Decoder.consumed calls (Decoder.over (s ++ rest)) = some ts :=
  trace_of_extends t t' calls
    (⟨Decoder.over_inv s, Decoder.over_inv _, rfl, List.prefix_append s rest⟩ :
      Extends 0 (Decoder.over s) (Decoder.over (s ++ rest))) traced

theorem trace_of_longer_input_field :
    ∃ ts, trace (Decoder.protocol 0) Decoder.consumed [.fieldBegin]
        (Decoder.over [8, 0, 1]) = some ts ∧
      trace (Decoder.protocol 100) Decoder.consumed [.fieldBegin]
        (Decoder.over ([8, 0, 1] ++ [255])) = some ts :=
  ⟨_, rfl, trace_of_longer_input 0 100 [8, 0, 1] [255] [.fieldBegin] _ rfl⟩

/-- Two messages back to back in one buffer read as each alone. -/
theorem back_to_back_messages (t t₁ t₂ : Nat) (s₁ s₂ : List UInt8) (calls₁ calls₂ : List ReadCall)
    (vs₁ : List Value) (r₂ : Except DecodeError (List Value)) (d₁ d₂ : Decoder)
    (first : run (Decoder.protocol t₁) calls₁ (Decoder.over s₁) = some (.ok vs₁, d₁))
    (whole : d₁.consumed = s₁.length)
    (second : run (Decoder.protocol t₂) calls₂ (Decoder.over s₂) = some (r₂, d₂)) :
    ∃ d, run (Decoder.protocol t) (calls₁ ++ calls₂) (Decoder.over (s₁ ++ s₂)) =
        some ((vs₁ ++ ·) <$> r₂, d) ∧ d.consumed = d₂.consumed + s₁.length := by
  have runs := fun k u u' => (sim_lifts (Extends k) fun _ => False).run
    ((sim_lifts (Extends k) _).dispatch (Decoder.shared u) (Decoder.shared u')
      (prims_extends k u u'))
  obtain ⟨e₁, first', ext₁⟩ := runs 0 t₁ t calls₁ _ _ _ _
    (⟨Decoder.over_inv s₁, Decoder.over_inv _, rfl, List.prefix_append s₁ s₂⟩ :
      Extends 0 (Decoder.over s₁) (Decoder.over (s₁ ++ s₂))) first fun _ _ => id
  have input : e₁.data = s₁ ++ s₂ :=
    (Decoder.run_preserves t (s₁ ++ s₂) calls₁ _ _ _ (Decoder.over_inv _) first').input
  have passed : e₁.consumed = s₁.length := by
    have := ext₁.consumed
    omega
  have next : Extends s₁.length (Decoder.over s₂) e₁ :=
    ⟨Decoder.over_inv s₂, ext₁.right, by rw [passed]; exact Nat.zero_add _,
      by rw [input, passed, List.drop_left]; exact List.prefix_refl s₂⟩
  obtain ⟨e₂, second', ext₂⟩ := runs s₁.length t₂ t calls₂ _ _ _ _ next second fun _ _ => id
  exact ⟨e₂, by rw [run_append_of_ok _ calls₂ first', second']; rfl, ext₂.consumed.symm⟩

theorem back_to_back_messages_fields :
    ∃ vs₁ r₂ d₁ d₂,
      run (Decoder.protocol 0) [.fieldBegin] (Decoder.over [8, 0, 1]) = some (.ok vs₁, d₁) ∧
      d₁.consumed = [8, 0, 1].length ∧
      run (Decoder.protocol 0) [.fieldBegin] (Decoder.over [0]) = some (r₂, d₂) ∧
      ∃ d, run (Decoder.protocol 0) ([.fieldBegin] ++ [.fieldBegin])
          (Decoder.over ([8, 0, 1] ++ [0])) = some ((vs₁ ++ ·) <$> r₂, d) ∧
        d.consumed = d₂.consumed + [8, 0, 1].length :=
  ⟨_, _, _, _, rfl, rfl, rfl, back_to_back_messages 0 0 0 [8, 0, 1] [0] [.fieldBegin] [.fieldBegin]
    _ _ _ _ rfl rfl rfl⟩

end Framing

end Pilota
