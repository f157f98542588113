import Myts.Lib.Bytes
import Myts.Lib.Go

open List

-- A slice of bytes that is filled from its start.
structure ByteBuffer where
  bytes : Bytes
  pos : Nat

namespace ByteBuffer

def put (b : ByteBuffer) (x : Bytes) : Go ByteBuffer :=
  if b.pos + x.length ≤ b.bytes.length then
    .ok {
      bytes := b.bytes.take b.pos ++ x ++ b.bytes.drop (b.pos + x.length),
      pos := b.pos + x.length }
  else
    Go.panic

def copy (b : ByteBuffer) (x : Bytes) : ByteBuffer :=
  let x := x.take (b.bytes.length - b.pos)
  { bytes := b.bytes.take b.pos ++ x ++ b.bytes.drop (b.pos + x.length), pos := b.pos + x.length }

structure Holds (b : ByteBuffer) (out : Bytes) (room : Nat) : Prop where
  out : b.bytes.take b.pos = out
  room : b.pos + room ≤ b.bytes.length

def Writes (f : ByteBuffer → Go ByteBuffer) (x : Bytes) : Prop :=
  ∀ b out room, Holds b out (x.length + room) → ∃ b', f b = .ok b' ∧ Holds b' (out ++ x) room

namespace Writes

theorem put (x : Bytes) : Writes (·.put x) x := by
  intro b out room h
  have hl := h.room
  refine ⟨_, if_pos (by omega), ?_, ?_⟩
  · have hn : b.pos + x.length = (b.bytes.take b.pos ++ x).length := by
      rw [length_append, length_take_of_le (by omega)]
    dsimp only
    rw [hn, List.take_left, h.out]
  · simp only [length_append, length_take, length_drop]
    omega

theorem copy (x : Bytes) : Writes (fun b => return b.copy x) x := by
  intro b out room h
  have hx : x.take (b.bytes.length - b.pos) = x := take_of_length_le <| by
    have := h.room
    omega
  obtain ⟨b', hb, hh⟩ := put x b out room h
  have hc : b.copy x = b' := by
    dsimp only at hb
    rw [ByteBuffer.put, if_pos (by have := h.room; omega)] at hb
    cases hb
    simp [ByteBuffer.copy, hx]
  exact ⟨b', congrArg pure hc, hh⟩

theorem nil : Writes pure [] := by
  intro b out room h
  refine ⟨b, rfl, ?_⟩
  simpa using h

theorem bind (hf : Writes f x) (hg : Writes g y) : Writes (fun b => f b >>= g) (x ++ y) := by
  intro b out room h
  rw [length_append, Nat.add_assoc] at h
  obtain ⟨b₁, h₁, hb₁⟩ := hf _ _ _ h
  obtain ⟨b₂, h₂, hb₂⟩ := hg _ _ _ hb₁
  refine ⟨b₂, ?_, append_assoc out x y ▸ hb₂⟩
  dsimp only
  rw [h₁]
  exact h₂

theorem foldlM {f : ByteBuffer → α → Go ByteBuffer} {x : α → Bytes} {l : List α}
    (hf : ∀ a ∈ l, Writes (f · a) (x a)) : Writes (fun b => l.foldlM f b) (l.flatMap x) := by
  induction l
  case nil => exact nil
  case cons a l hi =>
    simp only [foldlM_cons, flatMap_cons]
    exact (hf a mem_cons_self).bind (hi fun a ha => hf a <| mem_cons_of_mem _ ha)

theorem fill (hf : Writes f x) {b : Bytes} (h : x.length ≤ b.length) :
    ∃ b', f { bytes := b, pos := 0 } = .ok b' ∧ b'.bytes.take b'.pos = x ∧
      b'.pos ≤ b'.bytes.length := by
  have hb : Holds { bytes := b, pos := 0 } [] (x.length + 0) := ⟨rfl, by simpa using h⟩
  obtain ⟨b', h', hh⟩ := hf _ _ _ hb
  exact ⟨b', h', by simpa using hh.out, by simpa using hh.room⟩

end Writes

end ByteBuffer

namespace Bytes

def slice (n : Nat) (b : Bytes) : Go (Bytes × Bytes) :=
  if n ≤ b.length then .ok (b.take n, b.drop n) else Go.panic

theorem slice_append (h : x.length = n) : slice n (x ++ rest) = .ok (x, rest) := by
  subst h
  rw [slice, if_pos (by simp), List.take_left, drop_left]

theorem safe_slice : (slice n b).Safe ↔ n ≤ b.length := by
  rw [slice]
  split <;> simp_all

theorem slice_eq_ok : slice n b = .ok (x, rest) ↔ x.length = n ∧ b = x ++ rest where
  mp h := by
    rw [slice] at h
    split at h <;> cases h
    exact ⟨length_take_of_le ‹_›, (take_append_drop n b).symm⟩
  mpr h := by
    rw [h.2, slice_append h.1]

def sliceAt (b : Bytes) (i j : Int) : Go Bytes :=
  if 0 ≤ i ∧ i ≤ j ∧ j ≤ b.length then .ok ((b.take j.toNat).drop i.toNat) else Go.panic

def sliceFrom (b : Bytes) (i : Int) : Go Bytes :=
  sliceAt b i b.length

def byteAt (b : Bytes) (i : Int) : Go UInt8 :=
  if 0 ≤ i then Go.deref b[i.toNat]? else Go.panic

theorem sliceAt_eq {x y rest : Bytes} {i j : Int} (hb : b = x ++ (y ++ rest)) (hi : i = x.length)
    (hj : j = i + y.length) : sliceAt b i j = .ok y := by
  subst hb hi hj
  have hl : 0 ≤ (x.length : Int) ∧ (x.length : Int) ≤ x.length + y.length ∧
      (x.length + y.length : Int) ≤ (x ++ (y ++ rest)).length := by
    simp only [length_append]
    omega
  have ht : (x.length + y.length : Int).toNat = (x ++ y).length := by
    rw [length_append]
    omega
  rw [sliceAt, if_pos hl, ht, ← append_assoc, List.take_left, Int.toNat_natCast,
    drop_left]

theorem sliceAt_of_le {i j : Nat} (hi : i ≤ j) (hj : j ≤ b.length) :
    sliceAt b i j = .ok ((b.drop i).take (j - i)) := by
  rw [sliceAt, if_pos (by omega), Int.toNat_natCast, Int.toNat_natCast, drop_take]

theorem sliceAt_of_neg {i j : Int} (h : i < 0) : sliceAt b i j = Go.panic :=
  if_neg fun hs => absurd hs.left (not_le.mpr h)

theorem sliceAt_of_neg_right {i j : Int} (h : j < 0) : sliceAt b i j = Go.panic :=
  if_neg fun hs => absurd (hs.left.trans hs.right.left) (not_le.mpr h)

theorem sliceFrom_of_le {i : Nat} (h : i ≤ b.length) : sliceFrom b i = .ok (b.drop i) := by
  rw [sliceFrom, sliceAt_of_le h (le_refl _), take_of_length_le (by simp)]

theorem byteAt_of_lt {i : Nat} (h : i < b.length) : ∃ c, byteAt b i = .ok c := by
  refine ⟨b[i], ?_⟩
  rw [byteAt, if_pos (Int.natCast_nonneg i), Int.toNat_natCast, getElem?_eq_getElem h]
  rfl

theorem sliceFrom_eq {x rest : Bytes} {i : Int} (hb : b = x ++ rest) (hi : i = x.length) :
    sliceFrom b i = .ok rest := by
  rw [← append_nil rest] at hb
  exact sliceAt_eq hb hi (by simp [hb, hi])

theorem byteAt_eq {x rest : Bytes} {i : Int} (hb : b = x ++ c :: rest) (hi : i = x.length) :
    byteAt b i = .ok c := by
  subst hb hi
  simp [byteAt, Go.deref]

end Bytes

namespace Go

def int32 (n : Int) : Int :=
  n.bmod (2 ^ 32)

theorem int32_eq (h : -2147483648 ≤ n) (h' : n < 2147483648) : int32 n = n :=
  Int.bmod_eq_of_le (by omega) (by omega)

def require (p : Prop) [Decidable p] (e : String) : Go Unit :=
  if p then .ok () else fail e

theorem require_pos {p : Prop} [Decidable p] (h : p) : require p e = .ok () :=
  if_pos h

@[simp]
theorem require_eq_ok {p : Prop} [Decidable p] : require p e = .ok u ↔ p := by
  rw [require]
  split <;> simp_all [fail]

end Go
