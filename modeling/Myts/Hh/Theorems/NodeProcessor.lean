import Myts.Hh.NodeProcessor
import Myts.Hh.Theorems.History

open List

namespace Hh

open View

theorem marshalWrite_ne_nil (models : Models Point) (shardID : Nat) (points : List Point) :
    marshalWrite models shardID points ≠ [] := by
  intro h
  have hl := congrArg List.length h
  simp [marshalWrite] at hl

namespace View

def front (vs : List View) : Option Bytes :=
  vs.head?.bind (·.todo.head?)

theorem front_append (h : front vs = some b) : front (vs ++ ws) = some b := by
  cases vs
  case nil => contradiction
  case cons => exact h

theorem front_eq_some (h : front vs = some b) : ∃ bs, pending vs = b :: bs := by
  cases vs
  case nil => contradiction
  case cons v vs =>
    have ⟨bs, hv⟩ := head?_eq_some_iff.mp (h : v.todo.head? = some b)
    exact ⟨bs ++ pending vs, by rw [pending_cons, hv, cons_append]⟩

end View

theorem Effect.front_append (he : Effect q m (.append b) vs vs' f f') (h : front vs = some buf) :
    front vs' = some buf := by
  cases he
  case rejected => exact h
  case rolled => exact View.front_append h
  case oversize => exact View.front_append h
  case fits vs v _ =>
    cases vs
    case cons => exact h
    case nil =>
      have ⟨bs, hv⟩ := head?_eq_some_iff.mp (h : v.todo.head? = some buf)
      simp [front, push, hv]

namespace NodeProcessor

variable {models : Models Point} {n : NodeProcessor} {vs : List View} {f : Fifo Bytes}

inductive Synced (vs : List View) (f : Fifo Bytes) : Phase → List Bytes → Prop
  | idle : Synced vs f .idle f.gone
  | active : Synced vs f .active f.gone
  | read : front vs = some buf → Synced vs f (.read buf) f.gone
  | done : front vs = some buf → Synced vs f (.done buf) (f.gone ++ [buf])

structure Inv (n : NodeProcessor) (vs : List View) (f : Fifo Bytes) : Prop where
  refines : n.history.Refines defaultSegmentSize vs f
  synced : Synced vs f n.phase n.delivered

theorem Synced.append (hs : Synced vs f p d) (he : Effect q m (.append b) vs vs' f f') :
    Synced vs' f' p d := by
  have hg : f'.gone = f.gone := by cases he <;> rfl
  cases hs
  case idle => exact hg ▸ .idle
  case active => exact hg ▸ .active
  case read h => exact hg ▸ .read (he.front_append h)
  case done h => exact hg ▸ .done (he.front_append h)

theorem Synced.current (hr : Queue.Repr q m vs) :
    Synced vs f (q.current?.elim .idle .read) f.gone := by
  obtain _ | ⟨v, vs⟩ := vs
  case nil => exact absurd rfl hr.nonempty
  rw [hr.current?_eq]
  cases hv : v.todo
  case nil => exact .idle
  case cons => exact .read <| by simp [front, hv]

theorem Synced.advance (hb : front vs = some buf) (hp : f.pending = pending vs)
    (he : Effect q m .advance vs vs' f f') : f'.gone = f.gone ++ [buf] := by
  cases he
  case advance v vs =>
    have ⟨bs, hv⟩ := head?_eq_some_iff.mp (hb : v.todo.head? = some buf)
    simp [hp, hv]

theorem Inv.step (hi : Inv n vs f) (e : Event Point) :
    ∃ vs' f', Inv (n.step models e) vs' f' := by
  obtain ⟨h, p, d⟩ := n
  obtain ⟨hr, hs⟩ := hi
  cases e
  case writeShard shardID points =>
    have ⟨vs', f', he, hr'⟩ := hr.append (marshalWrite_ne_nil models shardID points)
    exact ⟨vs', f', hr', hs.append he⟩
  case dataNode answer =>
    cases hs
    case idle =>
      match answer with
      | some true => exact ⟨vs, f, hr, .active⟩
      | some false => exact ⟨vs, f, hr, .idle⟩
      | none => exact ⟨vs, f, hr, .idle⟩
    all_goals exact ⟨vs, f, hr, by constructor <;> assumption⟩
  case current =>
    cases hs
    case active => exact ⟨vs, f, hr.current, .current hr.repr⟩
    all_goals exact ⟨vs, f, hr, by constructor <;> assumption⟩
  case remote answer =>
    cases hs
    case read buf hb =>
      simp only [NodeProcessor.step]
      split
      case h_1 => exact ⟨vs, f, hr, .done hb⟩
      case h_2 =>
        cases answer
        case true => exact ⟨vs, f, hr, .done hb⟩
        case false => exact ⟨vs, f, hr, .idle⟩
    all_goals exact ⟨vs, f, hr, by constructor <;> assumption⟩
  case advance =>
    cases hs
    case done buf hb =>
      have ⟨vs', f', he, hr'⟩ := hr.advance
      have hs : Synced vs' f' .idle (f.gone ++ [buf]) := Synced.advance hb hr.pending he ▸ .idle
      exact ⟨vs', f', hr', hs⟩
    all_goals exact ⟨vs, f, hr, by constructor <;> assumption⟩

theorem Inv.run (hr : Run (NodeProcessor.step models) (fun _ _ => True) («open» maxSize) n) :
    ∃ vs f, Inv n vs f := by
  refine hr.invariant (I := fun n => ∃ vs f, Inv n vs f) ?_ fun ⟨vs, f, hi⟩ _ => hi.step _
  have ⟨v, q, ho, hq, hd, ht⟩ := Queue.open_newQueue maxSize
  refine ⟨[v], .empty, ⟨?_, ?_, rfl, rfl⟩, .idle⟩
  · rwa [NodeProcessor.open, after_ok ho]
  · simp [ht]

theorem delivered_in_order (hr : Run (step models) (fun _ _ => True) («open» maxSize) n) :
    n.delivered <+: n.history.accepted ∧
    ∀ buf, n.phase = .done buf →
      n.history.queue.readable = buf :: (after Queue.advance n.history.queue).readable := by
  have ⟨vs, f, hi, hs⟩ := Inv.run hr
  obtain ⟨h, p, d⟩ := n
  dsimp only at hi hs ⊢
  have hc := f.conserved
  rw [← hi.accepted] at hc
  constructor
  · rw [hc]
    cases hs
    case done buf hb =>
      have ⟨rest, hp⟩ := front_eq_some hb
      rw [hi.pending, hp]
      exact ⟨rest, by simp⟩
    all_goals exact prefix_append _ _
  · rintro buf rfl
    cases hs
    case done hb =>
      have ⟨v, vs, hv⟩ : ∃ v ws, vs = v :: ws := exists_cons_of_ne_nil hi.repr.nonempty
      subst hv
      have ⟨bs, hv⟩ := head?_eq_some_iff.mp (hb : v.todo.head? = some buf)
      rw [hi.repr.readable_eq, hi.repr.after_advance.readable_eq, pending_advance, hv]
      rfl

def lineModels : Models Bytes where
  string := id
  parsePoints b :=
    let points := (b.splitOn 10).filter (· ≠ [])
    if points.all fun p => p.takeWhile (· ≠ 32) ≠ [] ∧ 61 ∈ p.dropWhile (· ≠ 32) then some points
    else none

theorem delivered_in_order_interleaved :
    let n := [.writeShard 1 [[99, 32, 118, 61, 49]], .dataNode (some true), .current,
      .writeShard 2 [[99]],
      .remote true, .advance, .dataNode (some true), .current, .remote false].foldl
        (step lineModels) («open» 1000)
    n.delivered =
      [marshalWrite lineModels 1 [[99, 32, 118, 61, 49]], marshalWrite lineModels 2 [[99]]] ∧
    n.delivered <+: n.history.accepted ∧
    n.history.queue.readable =
      marshalWrite lineModels 2 [[99]] :: (after Queue.advance n.history.queue).readable := by
  intro n
  have hr : Run (step lineModels) (fun _ _ => True) («open» 1000) n := .foldl (by decide +kernel)
  have ⟨hd, hb⟩ := delivered_in_order hr
  exact ⟨by decide +kernel, hd, hb _ (by decide +kernel)⟩

end NodeProcessor
end Hh
