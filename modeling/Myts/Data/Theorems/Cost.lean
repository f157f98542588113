import Myts.Data.Theorems.Fanout
import Myts.Data.Theorems.HandleConn

open List

namespace DataService

variable {X : External} {S : TSDBStore X} {sg : ShardGroup X} {req : IteratorCostRequest X}
  {names : List String} {c : IteratorCost} {l₁ l₂ : List IteratorCost}

def addCost (sg : ShardGroup X) (opt : IteratorOptions X.Regex X.Expr X.Location)
    (costs : IteratorCost) (measurement : String) : Except String IteratorCost :=
  match sg.iteratorCost measurement opt with
  | (c, none) => .ok (X.combine costs c)
  | (_, some e) => .error e

theorem addCost_of_none (h : (sg.iteratorCost name opt).2 = none) :
    addCost sg opt c name = .ok (X.combine c (sg.iteratorCost name opt).1) := by
  unfold addCost
  split
  case h_1 he => rw [he]
  case h_2 he => rw [he] at h; cases h

theorem addCost_of_some (h : (sg.iteratorCost name opt).2 = some e) :
    addCost sg opt c name = .error e := by
  unfold addCost
  split
  case h_1 he => rw [he] at h; cases h
  case h_2 he => rw [he] at h; cases h; rfl

theorem foldlM_addCost_ok (h : ∀ name ∈ names, (sg.iteratorCost name opt).2 = none) :
    names.foldlM (addCost sg opt) c =
      .ok ((names.map fun name => (sg.iteratorCost name opt).1).foldl X.combine c) := by
  induction names generalizing c
  case nil => rfl
  case cons name names hi =>
    rw [foldlM_cons, addCost_of_none (h name mem_cons_self)]
    exact hi fun name' hm => h name' (mem_cons_of_mem _ hm)

theorem foldlM_addCost_error (hm : name ∈ names) (h : (sg.iteratorCost name opt).2.isSome) :
    ∃ name' e, (sg.iteratorCost name' opt).2 = some e ∧
      names.foldlM (addCost sg opt) c = .error e := by
  induction names generalizing c
  case nil => cases hm
  case cons name' names hi =>
    rw [foldlM_cons]
    cases he : (sg.iteratorCost name' opt).2
    case some e => exact ⟨name', e, he, by rw [addCost_of_some he]; rfl⟩
    case none =>
      rw [addCost_of_none he]
      cases hm
      case head => rw [he] at h; cases h
      case tail hm => exact hi hm

def answerCost (sg : ShardGroup X) (req : IteratorCostRequest X) : IteratorCostResponse :=
  match patternCost sg req.iteratorOptions req.measurement.regex with
  | .error e => { error := e, iteratorCost := noCost }
  | .ok _    => { error := (nameCost sg req).2.getD "", iteratorCost := (nameCost sg req).1 }

theorem processIteratorCostRequest_eq
    (hr : decodeLV (IteratorCostRequest.unmarshalBinary X) b = .ok req)
    (hs : S.shardGroup req.shardIDs = some sg) :
    processIteratorCostRequest S b = .ok (answerCost sg req) := by
  rw [processIteratorCostRequest, hr, Go.ok_bind, hs, answerCost]
  dsimp only
  cases patternCost sg req.iteratorOptions req.measurement.regex <;> rfl

section Combine

variable (hc : X.combine = IteratorCost.add)

include hc

theorem noCost_combine : X.combine noCost c = c := by
  rw [hc]
  simp [IteratorCost.add, noCost]

theorem combine_right_comm : X.combine (X.combine a b) c = X.combine (X.combine a c) b := by
  rw [hc]
  simp only [IteratorCost.add, IteratorCost.mk.injEq, Int64.add_assoc]
  refine ⟨?_, ?_, ?_, ?_, ?_, ?_⟩ <;> exact congrArg _ (Int64.add_comm ..)

theorem foldl_combine_perm (h : l₁.Perm l₂) : l₁.foldl X.combine c = l₂.foldl X.combine c :=
  h.foldl_eq' (fun _ _ _ _ _ => combine_right_comm hc) c

theorem numShards_foldl_combine {l : List IteratorCost} (h : ∀ c ∈ l, c.numShards = 0) :
    (l.foldl X.combine c).numShards = c.numShards := by
  induction l generalizing c
  case nil => rfl
  case cons c' l hi =>
    rw [foldl_cons, hi fun c hm => h c (mem_cons_of_mem _ hm), hc]
    exact (congrArg _ (h c' mem_cons_self)).trans (Int64.add_zero _)

end Combine

theorem patternCost_some : patternCost sg opt (some regex) =
    (sg.measurementsByRegex regex).foldlM (addCost sg opt) noCost :=
  rfl

theorem denoted_some (h : req.measurement.regex = some regex) :
    denoted sg req.measurement = sg.measurementsByRegex regex := by
  rw [denoted, h]

theorem denoted_none (h : req.measurement.regex = none) :
    denoted sg req.measurement = [req.measurement.name] := by
  rw [denoted, h]

theorem patternCost_of_fails (h : req.measurement.regex = some regex) (hf : CostFails sg req) :
    ∃ name e, (sg.iteratorCost name req.iteratorOptions).2 = some e ∧
      patternCost sg req.iteratorOptions req.measurement.regex = .error e := by
  have ⟨name, hm, he⟩ := hf
  rw [h, patternCost_some]
  exact foldlM_addCost_error (denoted_some h ▸ hm) he

theorem patternCost_of_not_fails (h : req.measurement.regex = some regex)
    (hf : ¬CostFails sg req) :
    patternCost sg req.iteratorOptions req.measurement.regex = .ok (total X (costs sg req)) := by
  have hn (name) (hm : name ∈ sg.measurementsByRegex regex) :
      (sg.iteratorCost name req.iteratorOptions).2 = none := by
    by_contra he
    exact hf ⟨name, denoted_some h ▸ hm, Option.isSome_iff_ne_none.mpr he⟩
  rw [h, patternCost_some, foldlM_addCost_ok hn, total, costs, denoted_some h]

theorem getD_ne_empty_iff (ht : sg.Telling) (name : String)
    (opt : IteratorOptions X.Regex X.Expr X.Location) :
    (sg.iteratorCost name opt).2.getD "" ≠ "" ↔ (sg.iteratorCost name opt).2.isSome := by
  cases he : (sg.iteratorCost name opt).2
  case none => simp
  case some e => simpa using ht name opt e he

theorem costExact_iff (hc : X.combine = IteratorCost.add) (ht : sg.Telling)
    (hr : decodeLV (IteratorCostRequest.unmarshalBinary X) b = .ok req)
    (hs : S.shardGroup req.shardIDs = some sg) :
    (∃ resp, processIteratorCostRequest S b = .ok resp ∧ CostExact sg req resp) ↔
      CostKept sg req := by
  have hx : (∃ resp, processIteratorCostRequest S b = .ok resp ∧ CostExact sg req resp) ↔
      CostExact sg req (answerCost sg req) := by
    rw [processIteratorCostRequest_eq hr hs]
    exact ⟨fun ⟨_, h, hx⟩ => Except.ok.inj h ▸ hx, fun hx => ⟨_, rfl, hx⟩⟩
  rw [hx, answerCost]
  cases hp : req.measurement.regex
  case none =>
    refine iff_of_true ⟨?_, fun _ => ?_⟩ (.inl hp)
    · simp [patternCost, CostFails, denoted_none hp, nameCost, getD_ne_empty_iff ht]
    · simp [patternCost, total, costs, denoted_none hp, nameCost, noCost_combine hc]
  case some regex =>
    rw [← hp]
    by_cases hf : CostFails sg req
    · have ⟨name, e, hn, hpe⟩ := patternCost_of_fails hp hf
      rw [hpe]
      have hne : e ≠ "" := ht name _ e hn
      exact iff_of_true ⟨iff_of_true hne hf, fun h => absurd h hne⟩ (.inr <| .inl hf)
    · rw [patternCost_of_not_fails hp hf]
      have hg := getD_ne_empty_iff ht req.measurement.name req.iteratorOptions
      constructor
      case mp =>
        intro h
        have hn : (nameCost sg req).2 = none := by
          by_contra hn
          exact hf <| h.error.mp <| hg.mpr <| Option.isSome_iff_ne_none.mpr hn
        refine .inr <| .inr ⟨hn, h.cost ?_⟩
        rw [hn]
        rfl
      case mpr =>
        rintro (h | h | ⟨hn, hcost⟩)
        · cases hp.symm.trans h
        · exact absurd h hf
        · refine ⟨iff_of_false ?_ hf, fun _ => hcost⟩
          rw [hn]
          exact fun h => h rfl

end DataService

namespace ShardMappings

open DataService (External IteratorCost noCost total)
open RemoteShardMapping (CostConversation)
open Goroutines

variable {X : External} {es : List (Event n)} {conv : Fin n → Fin n → CostConversation}
  {costs : Fin n → IteratorCost} {own : Option (Except String IteratorCost)}
  {own' : Option IteratorCost}

theorem straight_costSchedule_iff (conv : Fin n → Fin n → CostConversation) :
    (costSchedule conv es).Straight ↔ PromptSchedule es := by
  rw [PromptSchedule, ← State.straight_foldl_iff]
  exact State.straight_congr (State.reads_foldl_job _ _ es).right

theorem Told.iteratorCostRun_eq (h : Told (costCalls conv own) own' costs) :
    iteratorCostRun (costCalls conv own) es = costSchedule conv es := by
  refine iteratorCostRun_of_not_ownFails fun ⟨r, hr, e, he⟩ => ?_
  rw [h.own] at hr
  cases own'
  case none => cases hr
  case some c => cases hr; cases he

theorem Told.iteratorCost_eq (h : Told (costCalls conv own) own' costs) :
    iteratorCost X.combine (costCalls conv own) s =
      .ok (s.log.foldl X.combine (total X own'.toList)) := by
  rw [iteratorCost, h.own]
  cases own' <;> rfl

theorem Told.mem_writes (h : Told (costCalls conv own) own' costs)
    {s : State n IteratorCost}
    (hx : x ∈ s.writes (iteratorCostJob (costCalls conv none)) p) :
    ∃ i j, s.reads i = some j ∧ x = costs j := by
  cases p
  case none => cases hx
  case some i =>
    cases hr : s.reads i
    case none => simp [State.writes, hr] at hx
    case some j =>
      have hj : RemoteShardMapping.iteratorCost (conv i j) = .ok (costs j) := h.remote i j
      simp [State.writes, hr, iteratorCostJob, costCalls, written, hj] at hx
      exact ⟨i, j, hr, hx⟩

theorem Told.mem_log (h : Told (costCalls conv own) own' costs) (hf : Returns es)
    (hx : x ∈ (costSchedule conv es).log) :
    ∃ i j, (costSchedule conv es).reads i = some j ∧ x = costs j := by
  have hl := (State.coherent_foldl es).log_eq (hf conv)
  have hm : x ∈ ((costSchedule conv es).log : Multiset IteratorCost) := hx
  rw [costSchedule, hl, Multiset.mem_sum] at hm
  have ⟨p, _, hp⟩ := hm
  exact h.mem_writes hp

theorem Told.log_perm (h : Told (costCalls conv own) own' costs) (hf : Returns es)
    (hs : (costSchedule conv es).Straight) :
    (costSchedule conv es).log.Perm ((List.finRange n).map costs) := by
  rw [← Multiset.coe_eq_coe]
  refine ((State.coherent_foldl es).log_eq_of_straight (hf conv) hs).trans ?_
  have hw (i : Fin n) : (iteratorCostJob (costCalls conv none)).loop i i = [costs i] := by
    have hi : RemoteShardMapping.iteratorCost (conv i i) = .ok (costs i) := h.remote i i
    simp [iteratorCostJob, costCalls, written, hi]
  simp only [hw]
  rw [← Multiset.map_coe, ← Multiset.sum_map_singleton (Multiset.map costs _), Multiset.map_map]
  exact zero_add _

def telling (costs : Fin n → IteratorCost) (_ j : Fin n) : CostConversation where
  dial := none
  shards := some []
  send := none
  response := .ok { error := "", iteratorCost := costs j }

theorem told_telling : Told (costCalls (telling costs) none) none costs where
  own := rfl
  remote _ _ := rfl

def shardOf (j : Fin n) (k : Fin n) : IteratorCost :=
  if k = j then { noCost with numShards := 1 } else noCost

theorem numShards_shardOf (h : k ≠ j) : (shardOf j k).numShards = 0 := by
  rw [shardOf, if_neg h]
  rfl

theorem numShards_total_shardOf (hc : X.combine = IteratorCost.add) (j : Fin n) :
    (total X ((List.finRange n).map (shardOf j))).numShards = 1 := by
  have hp : ((List.finRange n).map (shardOf j)).Perm
      (shardOf j j :: ((List.finRange n).erase j).map (shardOf j)) := by
    rw [← map_cons]
    exact (perm_cons_erase (mem_finRange j)).map _
  rw [total, DataService.foldl_combine_perm hc hp, foldl_cons, DataService.noCost_combine hc,
    DataService.numShards_foldl_combine hc]
  · rw [shardOf, if_pos rfl]
  · intro c hm
    have ⟨k, hk, he⟩ := mem_map.mp hm
    exact he ▸ numShards_shardOf ((nodup_finRange n).mem_erase_iff.mp hk).left

theorem costsCombined_iff (hc : X.combine = IteratorCost.add) (hf : Returns es) :
    CostsCombined X es ↔ PromptSchedule es := by
  constructor
  case mp =>
    intro h
    by_contra hp
    rw [← straight_costSchedule_iff idle] at hp
    have hp := mt ((State.coherent_foldl es).once_iff (hf idle)).mp hp
    have ⟨j, hj⟩ : ∃ j, ∀ i, (costSchedule idle es).reads i ≠ some j := by
      by_contra hn
      push Not at hn
      exact hp <| (hf idle).once_of_forall_exists hn
    have ht : Told (costCalls (telling (shardOf j)) none) none (shardOf j) := told_telling
    have he := h _ _ _ _ ht
    rw [ht.iteratorCostRun_eq, ht.iteratorCost_eq] at he
    have hn := congrArg IteratorCost.numShards (Except.ok.inj he)
    rw [DataService.numShards_foldl_combine hc, Option.toList_none, nil_append,
      numShards_total_shardOf hc] at hn
    · cases hn
    · intro c hm
      have ⟨i, k, hr, he⟩ := ht.mem_log hf hm
      rw [he]
      refine numShards_shardOf fun hk => hj i ?_
      rw [← hk, ← hr]
      exact congrFun (State.reads_foldl_job _ _ es).right i
  case mpr =>
    intro h conv own own' costs ht
    rw [ht.iteratorCostRun_eq, ht.iteratorCost_eq, total, total, foldl_append]
    exact congrArg _ <| DataService.foldl_combine_perm hc <|
      ht.log_perm hf ((straight_costSchedule_iff conv).mpr h)

end ShardMappings

namespace DataService

open ShardMappings (Returns CostsCombined PromptSchedule)

theorem iteratorCost_exact_iff {X : External} (hc : X.combine = IteratorCost.add) :
    (∀ (S : TSDBStore X) b req sg, sg.Telling →
      decodeLV (IteratorCostRequest.unmarshalBinary X) b = .ok req →
      S.shardGroup req.shardIDs = some sg →
      ((∃ resp, processIteratorCostRequest S b = .ok resp ∧ CostExact sg req resp) ↔
        CostKept sg req)) ∧
    ∀ n (es : List (Goroutines.Event n)), Returns es →
      (CostsCombined X es ↔ PromptSchedule es) :=
  ⟨fun _ _ _ _ => costExact_iff hc, fun _ _ => ShardMappings.costsCombined_iff hc⟩

def costMessage (m : Internal.Measurement) : Internal.IteratorCostRequest where
  shardIDs := [1]
  measurement := some m
  iteratorOptions := some {
    expr := none, aux := [], fields := [], sources := [], interval := none, dimensions := []
    groupBy := [], fill := none, fillValue := none, condition := none, startTime := none
    endTime := none, location := none, ascending := none, limit := none, offset := none
    sLimit := none, sOffset := none, stripName := none, dedupe := none, maxSeriesN := none
    ordered := none }

def costRequest (m : Internal.Measurement) : Bytes :=
  Tlv.writeLV (Internal.marshal Internal.IteratorCostRequest.codec (costMessage m))

def oneShard : IteratorCost := { noCost with numShards := 1 }

def twoMeasurements : ShardGroup textual where
  createIterator _ _ := .ok none
  fieldDimensions _ := .ok (∅, ∅)
  mapType _ _ := 0
  measurementsByRegex _ := ["cpu", "mem"]
  iteratorCost name _ := (if name = "cpu" ∨ name = "mem" then oneShard else noCost, none)

def storing : TSDBStore textual where
  write _ _ := ⟨none, none, none, none, none⟩
  deleteDatabase _ := none
  deleteMeasurement _ _ := none
  deleteSeries _ _ _ := none
  deleteRetentionPolicy _ _ := none
  shardGroup _ := some twoMeasurements
  isSome_shardGroup _ := rfl

def named (name : String) (regex : Option String) : Internal.Measurement where
  database := none
  retentionPolicy := none
  name := some name
  regex := regex
  isTarget := none
  systemIterator := none

theorem decodeLV_costRequest (hl : (costRequest m).length < Tlv.maxMessageSize) :
    decodeLV (IteratorCostRequest.unmarshalBinary textual) (costRequest m) = (do
      let measurement ← decodeMeasurement textual (some m)
      let iteratorOptions ← decodeIteratorOptions textual (costMessage m).iteratorOptions
      return { shardIDs := [1], measurement, iteratorOptions }) := by
  have hu : textual.iteratorCostRequest.run
      (Internal.marshal Internal.IteratorCostRequest.codec (costMessage m)) = .ok (costMessage m) :=
    Internal.unmarshal_marshal _ ⟨rfl, _, rfl, nofun⟩
  rw [costRequest, Tlv.length_writeLV, Tlv.maxMessageSize] at hl
  rw [decodeLV, readLV, costRequest, Tlv.writeLV, Tlv.readLV_append (by omega),
    if_neg (by rw [Tlv.maxMessageSize]; omega), if_neg (Nat.lt_irrefl _), take_length]
  change (Go.ofExcept _ >>= _) = _
  rw [hu]
  rfl

def anything : Internal.Measurement := named "" (some ".")

theorem pattern_costs_nothing :
    ∃ req, decodeLV (IteratorCostRequest.unmarshalBinary textual) (costRequest anything) = .ok req ∧
      denoted twoMeasurements req.measurement = ["cpu", "mem"] ∧
      (total textual (costs twoMeasurements req)).numShards = 2 ∧
      processIteratorCostRequest storing (costRequest anything) =
        .ok { error := "", iteratorCost := noCost } ∧
      ¬∃ resp, processIteratorCostRequest storing (costRequest anything) = .ok resp ∧
        CostExact twoMeasurements req resp := by
  have hd := decodeLV_costRequest (m := anything) (by decide +kernel)
  have hp := processIteratorCostRequest_eq (S := storing) hd rfl
  refine ⟨_, hd, rfl, rfl, hp, fun ⟨resp, hr, hx⟩ => ?_⟩
  cases hp.symm.trans hr
  have hn := congrArg IteratorCost.numShards (hx.cost rfl)
  exact absurd hn (by decide +kernel)

def cpu : Internal.Measurement := named "cpu" none

open Goroutines ShardMappings in
theorem returns_inTurn (n : Nat) : Returns (inTurn n) := by
  intro conv
  refine State.finished_inTurn (fun i => ?_) rfl
  cases h : RemoteShardMapping.iteratorCost (conv i i) <;>
  simp [iteratorCostJob, costCalls, written, h]

theorem iteratorCost_exact_cpu :
    (∃ req resp, processIteratorCostRequest storing (costRequest cpu) = .ok resp ∧
      CostExact twoMeasurements req resp ∧ resp.iteratorCost = oneShard) ∧
    CostsCombined textual (Goroutines.inTurn 3) := by
  have hd := decodeLV_costRequest (m := cpu) (by decide +kernel)
  have ⟨hx, hs⟩ := iteratorCost_exact_iff (X := textual) rfl
  have ht : twoMeasurements.Telling := fun _ _ _ h => nomatch h
  have ⟨resp, hr, he⟩ := (hx storing _ _ _ ht hd rfl).mpr (.inl rfl)
  have hp : PromptSchedule (Goroutines.inTurn 3) := by
    unfold PromptSchedule
    decide +kernel
  refine ⟨⟨_, resp, hr, he, ?_⟩, (hs 3 _ (returns_inTurn 3)).mpr hp⟩
  cases (processIteratorCostRequest_eq (S := storing) hd rfl).symm.trans hr
  rfl

end DataService
