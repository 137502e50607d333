import Mathlib.Data.List.Range
import Mathlib.Order.Basic

/-! The memory the unchecked pointers address, and the two handles the codec holds into it:
the raw window `buf` and the `BytesMut` behind `trans`. Addresses are offsets from the start
of one allocation; stores are not bounds checked, so a store lands wherever its address says
and what it may touch is stated separately. -/

namespace Pilota

/-- A raw slice `(ptr, len)`, as `slice::from_raw_parts_mut` builds `buf`. -/
structure Window where
  ptr : Nat
  len : Nat
  deriving DecidableEq, Repr

/-- The handle of a `BytesMut`: its first byte, its initialised length and its capacity. -/
structure BytesMut where
  ptr : Nat
  len : Nat
  cap : Nat
  deriving DecidableEq, Repr

namespace BytesMut

/-- `advance(cnt)`; it panics past `len`. -/
def advance (b : BytesMut) (cnt : Nat) : Option BytesMut :=
  if cnt ≤ b.len then some ⟨b.ptr + cnt, b.len - cnt, b.cap - cnt⟩ else none

/-- `split_to(at)`; it panics past `len`. -/
def splitTo (b : BytesMut) (n : Nat) : Option (BytesMut × BytesMut) :=
  if n ≤ b.len then some (⟨b.ptr, n, n⟩, ⟨b.ptr + n, b.len - n, b.cap - n⟩) else none

/-- `split()`: the initialised bytes split off, the spare capacity stays. -/
def split (b : BytesMut) : BytesMut × BytesMut :=
  (⟨b.ptr, b.len, b.len⟩, ⟨b.ptr + b.len, 0, b.cap - b.len⟩)

/-- `advance_mut(cnt)`; it panics past the capacity. -/
def advanceMut (b : BytesMut) (cnt : Nat) : Option BytesMut :=
  if cnt ≤ b.cap - b.len then some { b with len := b.len + cnt } else none

end BytesMut

/-- Memory after `bs` is stored from address `a` on; no bound is checked. -/
def store (mem : Nat → UInt8) (a : Nat) (bs : List UInt8) : Nat → UInt8 :=
  fun j => if a ≤ j ∧ j < a + bs.length then bs.getD (j - a) 0 else mem j

def load (mem : Nat → UInt8) (a n : Nat) : List UInt8 :=
  (List.range n).map fun j => mem (a + j)

@[simp] theorem length_load (mem : Nat → UInt8) (a n : Nat) : (load mem a n).length = n := by
  simp [load]

theorem load_add (mem : Nat → UInt8) (a m n : Nat) :
    load mem a (m + n) = load mem a m ++ load mem (a + m) n := by
  simp [load, List.range_add, Nat.add_assoc]

theorem load_congr {mem mem' : Nat → UInt8} {a n : Nat}
    (same : ∀ j, a ≤ j → j < a + n → mem' j = mem j) : load mem' a n = load mem a n := by
  simp only [load, List.map_inj_left, List.mem_range]
  intro j hj
  exact same _ (Nat.le_add_right _ _) (by omega)

theorem load_store_self (mem : Nat → UInt8) (a : Nat) (bs : List UInt8) :
    load (store mem a bs) a bs.length = bs := by
  apply List.ext_getElem (by simp)
  intro j _ hj
  simp [load, store, hj]

theorem load_store_below (mem : Nat → UInt8) {a a' n : Nat} (bs : List UInt8) (below : a' + n ≤ a) :
    load (store mem a bs) a' n = load mem a' n :=
  load_congr fun j _ hj => by simp only [store]; rw [if_neg (by omega)]

theorem load_store_append (mem : Nat → UInt8) (a i : Nat) (bs : List UInt8) :
    load (store mem (a + i) bs) a (i + bs.length) = load mem a i ++ bs := by
  rw [load_add, load_store_below _ _ (Nat.le_refl _), load_store_self]

end Pilota
