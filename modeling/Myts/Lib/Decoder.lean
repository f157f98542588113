import Myts.Lib.Bytes
import Myts.Lib.Go

-- A decoder that is given bytes, and is used again for other ones.
structure Decoder (σ β : Type) where
  init : Bytes → σ → Except String σ
  next : σ → Go (Bool × σ)
  read : σ → Go (β × σ)
  err : σ → Option String

namespace Decoder

variable {D : Decoder σ β} {d d' : σ}

def drain (D : Decoder σ β) : (k : Nat) → σ → Go (List β × Option (Option String))
  | 0, _ => return ([], none)
  | k + 1, d => do
    let (more, d) ← D.next d
    if more then
      let (v, d) ← D.read d
      let (vs, e) ← D.drain k d
      return (v :: vs, e)
    else
      return ([], some (D.err d))

def decode (D : Decoder σ β) (b : Bytes) (k : Nat) (d : σ) :
    Go (List β × Option (Option String)) :=
  match D.init b d with
  | .error e => return ([], some (some e))
  | .ok d => D.drain k d

def rounds (D : Decoder σ β) : (k : Nat) → σ → Go σ
  | 0, d => return d
  | k + 1, d => do
    let (more, d) ← D.next d
    if more then
      let (_, d) ← D.read d
      D.rounds k d
    else
      return d

def Agrees (D : Decoder σ β) (d d' : σ) (b : Bytes) : Prop :=
  ∀ k, D.decode b k d = D.decode b k d'

def Alike (R : σ → σ → Prop) (x x' : Go (α × σ)) : Prop :=
  (∃ e, x = .error e ∧ x' = .error e) ∨
    ∃ a d d', x = .ok (a, d) ∧ x' = .ok (a, d') ∧ R d d'

theorem drain_congr {R : σ → σ → Prop} (h : R d d') (he : ∀ d d', R d d' → D.err d = D.err d')
    (hn : ∀ d d', R d d' → Alike R (D.next d) (D.next d'))
    (hr : ∀ d e e', D.next d = .ok (true, e) → R e e' → Alike R (D.read e) (D.read e')) (k : Nat) :
    D.drain k d = D.drain k d' := by
  induction k generalizing d d'
  case zero => rfl
  case succ k hi =>
    rw [drain, drain]
    rcases hn d d' h with ⟨e, h₁, h₂⟩ | ⟨more, e, e', h₁, h₂, hs⟩
    · rw [h₁, h₂]
    · rw [h₁, h₂, Go.ok_bind, Go.ok_bind]
      dsimp only
      cases more
      case false =>
        rw [he e e' hs]
        rfl
      case true =>
        rw [if_pos rfl, if_pos rfl]
        rcases hr d e e' h₁ hs with ⟨x, h₁, h₂⟩ | ⟨v, f, f', h₁, h₂, hf⟩
        · rw [h₁, h₂]
        · rw [h₁, h₂, Go.ok_bind, Go.ok_bind]
          dsimp only
          rw [hi hf]

theorem agrees_of_init (h : D.init b d = D.init b d') : D.Agrees d d' b := by
  intro k
  rw [decode, decode, h]

theorem drain_of_next (h : D.next d = .ok (false, d')) (k : Nat) :
    D.drain k d = .ok ([], if k = 0 then none else some (D.err d')) := by
  cases k
  case zero => rfl
  case succ k => rw [drain, h, Go.ok_bind]; rfl

end Decoder
