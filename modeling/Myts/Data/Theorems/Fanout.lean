import Myts.Data.Fanout

open Goroutines

namespace ShardMappings

open State

section FieldDimensions

variable {d : Dimensions} {l : List Assignment}

variable {c : Calls n Found} {s : State n Assignment}

end FieldDimensions

section CreateIterator

end CreateIterator

section IteratorCost

open DataService (IteratorCost)

variable {c : Calls n IteratorCost}

theorem iteratorCostRun_of_not_ownFails (h : ¬c.OwnFails) :
    iteratorCostRun c es = es.foldl (step (iteratorCostJob c)) .init := by
  unfold iteratorCostRun
  split
  case h_1 e he => exact absurd ⟨_, he, e, rfl⟩ h
  case h_2 => rfl

end IteratorCost

section Schedules

def prompt : List (Event 2) :=
  [.start, .run 0, .start, .run 1, .enter (some 1), .leave (some 1), .enter (some 0), .leave (some 0)]

end Schedules

section Partial

open RemoteShardMapping (Expr Conversation)

theorem createIterator_eq (expr : Option Expr) (c : Conversation I) :
    RemoteShardMapping.createIterator expr c = (do
      Go.ofError c.dial
      Go.ofError c.send
      let _ ← Go.ofExcept c.response
      let t ← RemoteShardMapping.iteratorType expr
      pure (c.reader t)) := by
  unfold RemoteShardMapping.createIterator
  congr! 6
  split <;> rfl

theorem not_safe_createIterator_iff {c : Conversation I} :
    ¬(RemoteShardMapping.createIterator expr c).Safe ↔ c.Answers ∧ expr = some .other := by
  have ht : (RemoteShardMapping.iteratorType expr).Safe ↔ expr ≠ some .other := by
    cases expr
    case none => simp [RemoteShardMapping.iteratorType]
    case some e => cases e <;> simp [RemoteShardMapping.iteratorType]
  simp only [createIterator_eq, Go.safe_bind_iff, Go.safe_ofError, Go.safe_ofExcept, true_and,
    Go.ofError_eq_ok, Go.ofExcept_eq_ok, ht, Go.safe_pure, implies_true, and_true]
  constructor
  case mp =>
    intro h
    by_contra hn
    exact h fun _ hd _ hs resp hr he => hn ⟨⟨hd, hs, resp, hr⟩, he⟩
  case mpr =>
    rintro ⟨⟨hd, hs, resp, hr⟩, he⟩ h
    exact h () hd () hs resp hr he

variable {merge : List (Option I) → Except String (Option I)} {expr : Option Expr}
  {conv : Fin n → Fin n → Conversation I} {own : Option (Except String (Option I))}

theorem createIterator_eq_ok_iff : createIterator merge expr conv s = .ok itr ↔
    (¬∃ i j, s.reads i = some j ∧ (conv i j).Answers ∧ expr = some .other) ∧
      merge s.log = .ok itr := by
  simp only [← not_safe_createIterator_iff]
  rw [createIterator]
  split
  case isTrue h => exact iff_of_false nofun fun h' => h'.1 h
  case isFalse h => rw [Go.ofExcept_eq_ok, and_iff_right h]

def AllSucceed (expr : Option Expr) (conv : Fin n → Fin n → Conversation I)
    (own : Option (Except String (Option I))) (es : List (Event n)) : Prop :=
  (∀ r ∈ own, ∃ input, r = .ok input) ∧ (∀ i, (conv i i).Succeeds) ∧
    Run.All (step (createIteratorJob (calls expr conv own))) Prompt .init es

theorem notPartial_iff {es : List (Event n)} {s : State n (Option I)}
    (he : es.foldl (step (createIteratorJob (calls expr conv own))) .init = s)
    (hf : s.Finished (createIteratorJob (calls expr conv own))) :
    NotPartial merge expr conv own s ↔ AllSucceed expr conv own es ∨
      (∃ e, merge s.log = .error e) ∨
      ∃ i j, s.reads i = some j ∧ (conv i j).Answers ∧ expr = some .other := by
  subst he
  have hc := coherent_foldl (J := createIteratorJob (calls expr conv own)) es
  simp only [NotPartial, createIterator_eq_ok_iff]
  rw [AllSucceed, ← straight_foldl_iff]
  constructor
  case mp =>
    intro h
    by_contra hn
    obtain ⟨hall, hm, hp⟩ : _ ∧ _ ∧ _ := by simpa only [not_or] using hn
    cases hi : merge (es.foldl (step (createIteratorJob (calls expr conv own))) .init).log
    case error e => exact hm ⟨e, hi⟩
    case ok itr =>
      obtain ⟨ho, hr, hs⟩ := h itr ⟨hp, hi⟩
      have hst := (hc.once_iff hf).mp <| hf.once_of_forall_exists hs
      exact hall ⟨ho, fun i => hr i i (hf.reads_eq_of_straight hst i), hst⟩
  case mpr =>
    rintro (⟨ho, hr, hst⟩ | ⟨e, he⟩ | hp) itr ⟨hp', hm⟩
    case inl =>
      refine ⟨ho, fun i j hj => ?_, fun j => ⟨j, hf.reads_eq_of_straight hst j⟩⟩
      obtain rfl := hst i j hj
      exact hr j
    case inr.inl => cases he.symm.trans hm
    case inr.inr => exact absurd hp hp'

theorem not_partial_iff {es : List (Event n)} {s : State n (Option I)}
    (he : es.foldl (step (createIteratorJob (calls expr conv own))) .init = s)
    (hf : s.Finished (createIteratorJob (calls expr conv own))) :
    (∀ merge, NotPartial merge expr conv own s ↔ AllSucceed expr conv own es ∨
      (∃ e, merge s.log = .error e) ∨
      ∃ i j, s.reads i = some j ∧ (conv i j).Answers ∧ expr = some .other) ∧
    ((∀ merge, NotPartial merge expr conv own s) ↔ AllSucceed expr conv own es ∨
      ∃ i j, s.reads i = some j ∧ (conv i j).Answers ∧ expr = some .other) := by
  refine ⟨fun _ => notPartial_iff he hf, fun h => ?_, fun h merge => ?_⟩
  · have hn := (notPartial_iff he hf).mp (h fun _ => .ok none)
    exact hn.imp_right fun h => h.resolve_left nofun
  · exact (notPartial_iff he hf).mpr (h.imp_right .inr)

end Partial

section Replies

def only : List (Event 1) :=
  [.start, .run 0, .enter none, .leave none, .enter (some 0), .leave (some 0)]

def replies (err : Option String) (_ _ : Fin n) : RemoteShardMapping.Conversation Nat where
  dial := none
  send := none
  response := .ok { err }
  reader := fun _ => 1

def mergeFirst (itrs : List (Option Nat)) : Except String (Option Nat) :=
  .ok (itrs.headD none)

theorem partial_query :
    createIterator mergeFirst none (replies (some "shard closed"))
      (only.foldl (step (createIteratorJob
        (calls none (replies (some "shard closed")) (some (.error "shard closed"))))) .init) =
      .ok (some 1) ∧
    ¬NotPartial mergeFirst none (replies (some "shard closed")) (some (.error "shard closed"))
      (only.foldl (step (createIteratorJob
        (calls none (replies (some "shard closed")) (some (.error "shard closed"))))) .init) := by
  have h : createIterator mergeFirst none (replies (some "shard closed"))
      (only.foldl (step (createIteratorJob
        (calls none (replies (some "shard closed")) (some (.error "shard closed"))))) .init) =
      .ok (some 1) := by decide +kernel
  refine ⟨h, fun hp => ?_⟩
  obtain ⟨input, hi⟩ := (hp _ h).1 _ rfl
  cases hi

def withLocal : List (Event 2) :=
  prompt ++ [.enter none, .leave none]

theorem not_partial_two :
    let job := createIteratorJob (calls none (replies none) (some (.ok (some 0))))
    (withLocal.foldl (step job) .init).Finished job ∧
      ∀ merge : List (Option Nat) → Except String (Option Nat),
        NotPartial merge none (replies none) (some (.ok (some 0)))
          (withLocal.foldl (step job) .init) := by
  intro job
  have hf : (withLocal.foldl (step job) .init).Finished job := by decide +kernel
  refine ⟨hf, (not_partial_iff rfl hf).2.mpr (.inl ⟨?_, ?_, ?_⟩)⟩
  · rintro r hr
    cases hr
    exact ⟨_, rfl⟩
  · exact fun _ => ⟨rfl, rfl, rfl⟩
  · decide +kernel

end Replies

end ShardMappings
