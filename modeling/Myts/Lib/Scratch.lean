import Myts.Lib.Bytes

open List

-- A slice of bytes that is used again and again, and that is replaced when it is too small.
structure Scratch where
  replaced : List Bytes
  b : Bytes

namespace Scratch

def make (n : Nat) : Scratch where
  replaced := []
  b := List.replicate n 0

def put (x b : Bytes) : Bytes :=
  x ++ b.drop x.length

def read (w : Scratch) (x : Bytes) : Scratch :=
  { w with b := put x w.b }

def grow (w : Scratch) (n : Nat) : Scratch :=
  if w.b.length < n then
    { replaced := w.replaced ++ [w.b], b := List.replicate n 0 }
  else
    w

structure Slice where
  buffer : Nat
  len : Nat

def slice (w : Scratch) (n : Nat) : Slice where
  buffer := w.replaced.length
  len := n

def buffers (w : Scratch) : List Bytes :=
  w.replaced ++ [w.b]

def bytes (w : Scratch) (k : Slice) : Bytes :=
  (w.buffers[k.buffer]?.getD []).take k.len

@[simp]
theorem length_put {x b : Bytes} (h : x.length ≤ b.length) : (put x b).length = b.length := by
  rw [put, length_append, length_drop]
  omega

theorem getElem?_put_lt {x b : Bytes} (h : i < x.length) : (put x b)[i]? = x[i]? := by
  rw [put, getElem?_append_left h]

theorem getElem?_put_ge {x b : Bytes} (h : x.length ≤ i) : (put x b)[i]? = b[i]? := by
  rw [put, getElem?_append_right h, getElem?_drop]
  congr 1
  omega

theorem take_put {x b : Bytes} (h : n ≤ x.length) : (put x b).take n = x.take n := by
  rw [put, take_append_of_le_length h]

theorem take_put_length {x b : Bytes} (h : x.length = n) : (put x b).take n = x := by
  rw [take_put h.ge, ← h, take_length]

theorem buffers_current (w : Scratch) : w.buffers[w.replaced.length]? = some w.b := by
  rw [buffers, getElem?_append_right le_rfl]
  simp

theorem bytes_slice (w : Scratch) (n : Nat) : w.bytes (w.slice n) = w.b.take n := by
  rw [bytes, slice, buffers_current]
  rfl

end Scratch
