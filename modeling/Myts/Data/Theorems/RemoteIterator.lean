import Myts.Data.RemoteIterator
import Myts.Data.Theorems.Fanout

open List

namespace Tsm1

theorem Query.produced_none {q : Query} (t : DataType) : q.Produced t none :=
  trivial

theorem Query.produced_varRef {q : Query} (t : DataType) : q.Produced t (some (.varRef ref)) :=
  trivial

namespace Engine

variable {q : Query} {m : Measurement}

theorem createTagSetIterators_same (h : createTagSetIterators m ref t = .ok inputs)
    (hx : x ∈ inputs) : createVarRefSeriesIterator m ref = some x := by
  have ⟨_, _, h⟩ := Go.bind_eq_ok.mp h
  cases h
  have ⟨_, _, h⟩ := mem_filterMap.mp hx
  exact h

theorem mem_forTagSets {ts : List TagSet} (h : forTagSets m ref f ts = .ok itrs) (hx : x ∈ itrs) :
    ∃ t inputs, createVarRefSeriesIterator m ref = some t ∧ inputs ≠ [] ∧
      (∀ t' ∈ inputs, t' = t) ∧ f inputs = .ok x := by
  induction ts generalizing itrs
  case nil => cases h; cases hx
  case cons t ts hi =>
    have ⟨inputs, hin, h⟩ := Go.bind_eq_ok.mp h
    cases inputs
    case nil => exact hi h hx
    case cons t₀ rest =>
      have ⟨itr, hf, h⟩ := Go.bind_eq_ok.mp h
      have ⟨itrs', hr, h⟩ := Go.bind_eq_ok.mp h
      cases h
      cases hx
      case tail hx => exact hi hr hx
      case head =>
        have ht := createTagSetIterators_same hin mem_cons_self
        refine ⟨t₀, _, ht, cons_ne_nil _ _, fun t' hm => ?_, hf⟩
        exact Option.some_injective _ <| (createTagSetIterators_same hin hm).symm.trans ht

theorem mem_forMeasurement (h : forMeasurement m ref f = .ok itrs) (hx : x ∈ itrs) :
    ∃ t inputs, createVarRefSeriesIterator m ref = some t ∧ inputs ≠ [] ∧
      (∀ t' ∈ inputs, t' = t) ∧ f inputs = .ok x := by
  have ⟨found, _, h⟩ := Go.bind_eq_ok.mp h
  cases found
  case false => cases h; cases hx
  case true =>
    have ⟨ts, _, h⟩ := Go.bind_eq_ok.mp h
    exact mem_forTagSets h hx

theorem callTagSet_same (hq : q.Laws) (hn : inputs ≠ []) (hs : ∀ t' ∈ inputs, t' = t)
    (h : callTagSet q name inputs = .ok x) :
    ∃ result, q.newCallIterator name t = .ok result ∧ x = some result := by
  have ⟨itrs, hm, hx⟩ := Go.bind_eq_ok.mp h
  have ⟨t₀, rest, he⟩ := exists_cons_of_ne_nil hn
  subst he
  cases hc : q.newCallIterator name t
  case error e =>
    rw [mapM_cons, hs t₀ mem_cons_self, hc] at hm
    cases hm
  case ok result =>
    have he : (t₀ :: rest).mapM (fun t => Go.ofExcept (q.newCallIterator name t)) =
        .ok ((t₀ :: rest).map fun _ => result) :=
      Go.mapM_eq_ok fun a ha => by rw [hs a ha, hc]; rfl
    cases he.symm.trans hm
    cases hx
    refine ⟨result, rfl, congrArg some <| hq.parallel (by simp) fun t' ht' => ?_⟩
    have ⟨_, _, h⟩ := mem_map.mp ht'
    exact h.symm

theorem served_of_same (hq : q.Laws) (hs : ∀ x ∈ itrs, x = some t) (hp : q.Produced t opt.expr)
    (h : newMergeFinalizerIterator q itrs opt = .ok (some served)) : served = t := by
  have h := Go.ofExcept_eq_ok.mp h
  by_cases hn : itrs = []
  · rw [hn, hq.none] at h
    cases h
  · rw [hq.merge hn hs hp] at h
    cases h
    rfl

theorem mem_createVarRefIterator (hq : q.Laws) (hp : ∀ t, q.Produced t expr)
    (h : createVarRefIterator q m expr = .ok itrs) (hx : x ∈ itrs) :
    ∃ t, createVarRefSeriesIterator m (expr.bind Expr.varRef?) = some t ∧ x = some t := by
  have ⟨t, inputs, ht, hn, hs, hf⟩ := mem_forMeasurement h hx
  refine ⟨t, ht, ?_⟩
  have hm := Go.ofExcept_eq_ok.mp hf
  rw [hq.merge (t := t) (by simpa using hn) (by simpa using hs) (hp t)] at hm
  cases hm
  rfl

theorem served_createVarRefIterator (hq : q.Laws) (hp : ∀ t, q.Produced t expr)
    (hr : createVarRefSeriesIterator m (expr.bind Expr.varRef?) = some t)
    (hp' : q.Produced t opt.expr) (h : createVarRefIterator q m expr = .ok itrs)
    (hm : newMergeFinalizerIterator q itrs opt = .ok (some served)) : served = t := by
  refine served_of_same hq (fun x hx => ?_) hp' hm
  have ⟨t', ht', hx'⟩ := mem_createVarRefIterator hq hp h hx
  cases ht'.symm.trans hr
  exact hx'

theorem served_selector (hq : q.Laws) (he : opt.expr = some (.call name args))
    (hn : name = "first" ∨ name = "last")
    (hi : createVarRefIterator q m (some (.varRef ref)) = .ok itrs)
    (hm : newMergeFinalizerIterator q itrs opt = .ok (some served)) :
    ∃ t, buildCursor m.fields ref = some t ∧ q.newCallIterator name t = .ok served := by
  have hs (t : DataType) : q.newCallIterator name t = .ok t := by
    rcases hn with rfl | rfl
    · exact hq.first t
    · exact hq.last t
  have hp (t : DataType) : q.Produced t opt.expr := by
    rw [he]
    exact ⟨t, hs t⟩
  cases hr : buildCursor m.fields ref
  case some t =>
    cases served_createVarRefIterator hq Query.produced_varRef hr (hp t) hi hm
    exact ⟨served, rfl, hs served⟩
  case none =>
    have hnil : itrs = [] := eq_nil_iff_forall_not_mem.mpr fun x hx => by
      have ⟨t, ht, _⟩ := mem_createVarRefIterator hq Query.produced_varRef hi hx
      cases ht.symm.trans hr
    cases (Go.ofExcept_eq_ok.mp hm).symm.trans (hnil ▸ hq.none)

theorem served_call (hq : q.Laws) (he : opt.expr = some (.call name (.varRef ref :: args)))
    (h : createIterator q m opt = .ok (some served)) :
    ∃ t, buildCursor m.fields ref = some t ∧ q.newCallIterator name t = .ok served := by
  rw [createIterator, he] at h
  dsimp only [List.head?, Go.deref, Go.ok_bind] at h
  have ⟨_, ha, h⟩ := Go.bind_eq_ok.mp h
  cases ha
  split at h
  case isTrue hs =>
    have ⟨itrs, hi, hm⟩ := Go.bind_eq_ok.mp h
    exact served_selector hq he hs.right hi hm
  case isFalse =>
    have ⟨itrs, hi, hm⟩ := Go.bind_eq_ok.mp h
    cases itrs
    case nil => cases hm
    case cons x rest =>
      have hx {x'} (hx' : x' ∈ x :: rest) : ∃ t result, buildCursor m.fields ref = some t ∧
          q.newCallIterator name t = .ok result ∧ x' = some result := by
        have ⟨t, inputs, ht, hn, hs, hf⟩ := mem_forMeasurement hi hx'
        have ⟨result, hc, hr⟩ := callTagSet_same hq hn hs hf
        exact ⟨t, result, ht, hc, hr⟩
      have ⟨t, result, ht, hc, _⟩ := hx mem_cons_self
      have hr : served = result := by
        refine served_of_same hq (fun x' hx' => ?_) (by rw [he]; exact ⟨t, hc⟩) hm
        have ⟨t', result', ht', hc', hr'⟩ := hx hx'
        cases ht'.symm.trans ht
        cases hc'.symm.trans hc
        exact hr'
      exact ⟨t, ht, hr ▸ hc⟩

def oneSeries (fields : Option (GoMap String DataType)) : Measurement where
  found := .ok true
  fields := fields
  tagSets := .ok [{ seriesKeys := ["s"], error := none }]

theorem forMeasurement_oneSeries
    (ht : createVarRefSeriesIterator (oneSeries fields) ref = some t) (hf : f [t] = .ok x) :
    forMeasurement (oneSeries fields) ref f = .ok [x] := by
  have hi : createTagSetIterators (oneSeries fields) ref ⟨["s"], none⟩ = .ok [t] := by
    simp [createTagSetIterators, ht, Go.ofError, pure, Except.pure]
  have ht : forTagSets (oneSeries fields) ref f [⟨["s"], none⟩] = .ok [x] :=
    Go.bind_eq_ok.mpr ⟨_, hi, Go.bind_eq_ok.mpr ⟨x, hf, rfl⟩⟩
  exact Go.bind_eq_ok.mpr ⟨true, rfl, Go.bind_eq_ok.mpr ⟨_, rfl, ht⟩⟩

theorem createIterator_oneSeries_none (hq : q.Laws) (he : opt.expr = none) :
    createIterator q (oneSeries fields) opt = .ok (some .float) := by
  have hi : createVarRefIterator q (oneSeries fields) none = .ok [some .float] :=
    forMeasurement_oneSeries rfl <| Go.ofExcept_eq_ok.mpr <|
      hq.merge (by simp) (by simp) (Query.produced_none _)
  rw [createIterator, he]
  refine Go.bind_eq_ok.mpr ⟨_, hi, Go.ofExcept_eq_ok.mpr ?_⟩
  exact hq.merge (by simp) (by simp) (he ▸ Query.produced_none _)

theorem createIterator_oneSeries_call (hq : q.Laws)
    (he : opt.expr = some (.call name (.varRef ref :: args)))
    (ht : buildCursor fields ref = some t) (hc : q.newCallIterator name t = .ok result) :
    createIterator q (oneSeries fields) opt = .ok (some result) := by
  have hp : q.Produced result opt.expr := by
    rw [he]
    exact ⟨t, hc⟩
  have hm {itrs} (hs : itrs = [some result]) :
      newMergeFinalizerIterator q itrs opt = .ok (some result) := by
    subst hs
    exact Go.ofExcept_eq_ok.mpr <| hq.merge (by simp) (by simp) hp
  rw [createIterator, he]
  refine Go.bind_eq_ok.mpr ⟨.varRef ref, rfl, ?_⟩
  split
  case isTrue hs =>
    have hr : result = t := by
      rcases hs.right with rfl | rfl
      · cases hc.symm.trans (hq.first t); rfl
      · cases hc.symm.trans (hq.last t); rfl
    have hi : createVarRefIterator q (oneSeries fields) (some (.varRef ref)) = .ok [some t] :=
      forMeasurement_oneSeries ht <| Go.ofExcept_eq_ok.mpr <|
        hq.merge (by simp) (by simp) (Query.produced_varRef _)
    exact Go.bind_eq_ok.mpr ⟨_, hi, hm (by rw [hr])⟩
  case isFalse =>
    have hf : callTagSet q name [t] = .ok (some result) := by
      have hn : Go.ofExcept (q.newCallIterator name t) = .ok result := Go.ofExcept_eq_ok.mpr hc
      refine Go.bind_eq_ok.mpr ⟨[result], by rw [mapM_cons, hn]; rfl, ?_⟩
      rw [hq.parallel (t := result) (by simp) (by simp)]
      rfl
    have hi : createCallIterator q (oneSeries fields) name (.varRef ref) = .ok [some result] :=
      forMeasurement_oneSeries ht hf
    exact Go.bind_eq_ok.mpr ⟨_, hi, hm rfl⟩

end Engine
end Tsm1

namespace RemoteShardMapping

open Tsm1 (Query IteratorOptions)

variable {q : Query} {opt : IteratorOptions} {c : Conversation I}

theorem createIterator_of_succeeds (hc : c.Succeeds) :
    createIterator expr c = (iteratorType expr).map c.reader := by
  rw [ShardMappings.createIterator_eq, hc.left, hc.right.left, hc.right.right]
  rfl

theorem createIterator_safe_iff :
    (createIterator expr c).Safe ↔ ¬(c.Answers ∧ expr = some .other) :=
  (not_iff_comm.mp ShardMappings.not_safe_createIterator_iff).symm

def served : Conversation IteratorType where
  dial := none
  send := none
  response := .ok { err := none }
  reader := id

theorem served_succeeds : served.Succeeds :=
  ⟨rfl, rfl, rfl⟩

theorem not_decodesAsServed_none (hq : q.Laws) (he : opt.expr = none) :
    ¬DecodesAsServed q opt fields := by
  intro h
  have ⟨t, ht, hr⟩ := (h _ served).right (Tsm1.Engine.oneSeries fields) rfl _
    (Tsm1.Engine.createIterator_oneSeries_none hq he) served_succeeds
  rw [createIterator_of_succeeds served_succeeds, he] at hr
  cases hr
  cases ht

theorem not_decodesAsServed_varRef (he : opt.expr = some (.varRef ref)) :
    ¬DecodesAsServed q opt fields := by
  intro h
  refine createIterator_safe_iff.mp (h _ served).left ⟨⟨rfl, rfl, _, rfl⟩, ?_⟩
  rw [he]
  rfl

theorem decodesAsServed_call_iff (hq : q.Laws)
    (he : opt.expr = some (.call name (.varRef ref :: args))) :
    DecodesAsServed q opt fields ↔ name = "count" ∨ ∀ t result,
      Tsm1.Engine.buildCursor fields ref = some t → q.newCallIterator name t = .ok result →
      result = .float := by
  have hx : opt.expr.map Expr.of = some (.call name) := by rw [he]; rfl
  constructor
  case mp =>
    intro h
    refine or_iff_not_imp_left.mpr fun hn t result ht hc => ?_
    obtain ⟨t', ht', hr⟩ := (h _ served).right (Tsm1.Engine.oneSeries fields) rfl _
      (Tsm1.Engine.createIterator_oneSeries_call hq he ht hc) served_succeeds
    rw [createIterator_of_succeeds served_succeeds, hx, iteratorType, if_neg hn] at hr
    cases hr
    exact ht'.symm
  case mpr =>
    intro h I c
    constructor
    · rw [createIterator_safe_iff]
      rintro ⟨_, ho⟩
      cases hx.symm.trans ho
    · intro m hm result hs hc
      obtain ⟨t, ht, hr⟩ := Tsm1.Engine.served_call hq he hs
      rw [createIterator_of_succeeds hc, hx, iteratorType]
      rcases h with rfl | h
      · cases (hq.count t).symm.trans hr
        exact ⟨.integer, rfl, rfl⟩
      · by_cases hn : name = "count"
        · subst hn
          cases (hq.count t).symm.trans hr
          exact ⟨.integer, rfl, rfl⟩
        · cases h t result (hm ▸ ht) hr
          rw [if_neg hn]
          exact ⟨.float, rfl, rfl⟩

theorem Expressed.cases (h : Expressed e) :
    e = none ∨ (∃ ref, e = some (.varRef ref)) ∨
    ∃ name ref args, e = some (.call name (.varRef ref :: args)) := by
  unfold Expressed at h
  split at h
  case h_1 => exact .inl rfl
  case h_2 => exact .inr <| .inl ⟨_, rfl⟩
  case h_3 => exact .inr <| .inr ⟨_, _, _, rfl⟩
  case h_4 => exact h.elim

theorem decodesAsServed_iff (hq : q.Laws) (he : Expressed opt.expr) :
    DecodesAsServed q opt fields ↔ Guessed q fields opt.expr := by
  rcases he.cases with hx | ⟨ref, hx⟩ | ⟨name, ref, args, hx⟩
  · exact iff_of_false (not_decodesAsServed_none hq hx) (by rw [hx]; exact id)
  · exact iff_of_false (not_decodesAsServed_varRef hx) (by rw [hx]; exact id)
  · rw [decodesAsServed_call_iff hq hx, hx]
    rfl

def documented : Query where
  newCallIterator name t :=
    match name with
    | "count" => .ok .integer
    | "first" => .ok t
    | "last"  => .ok t
    | "min"   => if t = .string then .error "unsupported min iterator type" else .ok t
    | "max"   => if t = .string then .error "unsupported max iterator type" else .ok t
    | "sum"   =>
      if t = .string ∨ t = .boolean then .error "unsupported sum iterator type" else .ok t
    | "mean"  =>
      if t = .string ∨ t = .boolean then .error "unsupported mean iterator type" else .ok .float
    | _       => .error "unsupported function call"
  newParallelMergeIterator ts := ts.headD .float
  merge _ ts := .ok ts.reduceOption.head?

theorem documented_laws : documented.Laws where
  count _ := rfl
  first _ := rfl
  last _ := rfl
  none := rfl
  parallel hn hs := by
    have ⟨t₀, rest, he⟩ := exists_cons_of_ne_nil hn
    subst he
    exact hs t₀ mem_cons_self
  merge hn hs _ := by
    have ⟨t₀, rest, he⟩ := exists_cons_of_ne_nil hn
    subst he
    cases hs t₀ mem_cons_self
    rfl

def fieldV (t : Tsm1.DataType) : Option (GoMap String Tsm1.DataType) :=
  some (Finmap.singleton "v" t)

def ofV (name : String) : IteratorOptions where
  expr := some (.call name [.varRef ⟨"v", .unknown⟩])
  interval := 0

theorem max_of_integers_read_as_float :
    ¬DecodesAsServed documented (ofV "max") (fieldV .integer) ∧
    Tsm1.Engine.createIterator documented (Tsm1.Engine.oneSeries (fieldV .integer)) (ofV "max") =
      .ok (some .integer) ∧
    createIterator ((ofV "max").expr.map .of) served = .ok .float ∧
    createIterator ((some (.varRef ⟨"v", .unknown⟩) : Option Tsm1.Expr).map .of) served = Go.panic ∧
    Tsm1.Engine.createIterator documented (Tsm1.Engine.oneSeries (fieldV .integer)) ⟨none, 0⟩ =
      .ok (some .float) ∧
    createIterator ((none : Option Tsm1.Expr).map .of) served = .ok .integer := by
  have hm : Tsm1.Engine.createIterator documented (Tsm1.Engine.oneSeries (fieldV .integer))
      (ofV "max") = .ok (some .integer) := by decide +kernel
  have hr : createIterator ((ofV "max").expr.map .of) served = .ok .float := by decide +kernel
  refine ⟨fun h => ?_, hm, hr, by decide +kernel, by decide +kernel, by decide +kernel⟩
  have ⟨t, ht, he⟩ := (h _ served).right _ rfl _ hm served_succeeds
  cases hr.symm.trans he
  cases ht

theorem decodesAsServed_mean :
    DecodesAsServed documented (ofV "mean") (fieldV .integer) := by
  have he : Expressed (ofV "mean").expr := trivial
  refine (decodesAsServed_iff documented_laws he).mpr (Or.inr fun t result ht hc => ?_)
  cases ht.symm.trans (by decide +kernel : _ = some .integer)
  cases hc
  rfl

end RemoteShardMapping
