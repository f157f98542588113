import Myts.Data.Encode
import Myts.Data.Theorems.HandleConn

open List

namespace DataService

open Go

def textualPrinter : Printer textual where
  regexString := id
  exprString := id
  locationString := id
  fieldDimensionsResponse := fun m => .ok (Internal.marshal Internal.FieldDimensionsResponse.codec m)
  iteratorCostRequest := fun m => .ok (Internal.marshal Internal.IteratorCostRequest.codec m)

theorem textualPrinter_laws : textualPrinter.Laws where
  compile _ := rfl
  parseExpr _ := rfl
  loadLocation _ := rfl
  fieldDimensionsResponse h := ⟨_, rfl, Internal.unmarshal_marshal _ h⟩
  iteratorCostRequest h := ⟨_, rfl, Internal.unmarshal_marshal _ h⟩

namespace FieldDimensionsResponse

variable {X : External} {P : Printer X}

theorem foldl_round (fields : GoMap String Int64) (order : List String)
    (s : Variables × List FieldRef) :
    order.foldl (round fields) s =
      ({ k := order.getLast?.getD s.1.k
         iv := s.1.iv ++ order.map fun k => ((fields.lookup k).getD 0).toUInt64 },
        s.2 ++ (List.range' s.1.iv.length order.length).map FieldRef.mk) := by
  induction order generalizing s
  case nil => simp
  case cons k order hi =>
    rw [foldl_cons, hi]
    simp [round, range'_succ, getLast?_cons]

theorem encodeFields_eq (fields : GoMap String Int64) (order : List String) :
    encodeFields fields order = order.map fun k => {
      name := some (order.getLast?.getD "")
      type := some ((fields.lookup k).getD 0).toUInt64 } := by
  rw [encodeFields, foldl_round]
  apply ext_getElem
  case hl => simp
  case h =>
    intro i h₁ h₂
    simp at h₁
    simp [FieldRef.field, h₁]

theorem lookup_foldl_insert_of_ne {l : List (String × Int64)} (h : ∀ e ∈ l, x ≠ e.1) :
    (l.foldl (fun m (name, type) => m.insert name type) m).lookup x = Finmap.lookup x m := by
  induction l generalizing m
  case nil => rfl
  case cons e l hi =>
    have ⟨he, hl⟩ := forall_mem_cons.mp h
    rw [foldl_cons, hi hl, Finmap.lookup_insert_of_ne _ he]

theorem foldl_insert_concat (ks : List String) (k : String) (f : String → Int64) :
    ((ks ++ [k]).map (k, f ·)).foldl (fun m (name, type) => m.insert name type)
      (∅ : GoMap String Int64) = Finmap.insert k (f k) ∅ := by
  rw [map_append, foldl_append]
  refine Finmap.ext_lookup fun x => ?_
  by_cases hx : x = k
  case pos => subst hx; simp
  case neg =>
    have hl : ((ks.map (k, f ·)).foldl (fun m (name, type) => m.insert name type)
        (∅ : GoMap String Int64)).lookup x = none :=
      (lookup_foldl_insert_of_ne <| by simpa using fun _ _ => hx).trans (Finmap.lookup_empty x)
    simp [hx, hl]

theorem insert_empty_eq_iff {m : GoMap String Int64} (h : m.lookup k = some v) :
    Finmap.insert k v ∅ = m ↔ m.keys.card ≤ 1 where
  mp he := by
    refine Finset.card_le_one.mpr fun a ha b hb => ?_
    rw [← he, Finmap.mem_keys, Finmap.mem_insert] at ha hb
    rw [ha.resolve_right Finmap.notMem_empty, hb.resolve_right Finmap.notMem_empty]
  mpr hc := by
    refine Finmap.ext_lookup fun x => ?_
    by_cases hx : x = k
    case pos => rw [hx, Finmap.lookup_insert, h]
    case neg =>
      have hn : x ∉ m := fun hm => hx <| Finset.card_le_one.mp hc x (Finmap.mem_keys.mpr hm) k
        (Finmap.mem_keys.mpr <| Finmap.mem_of_lookup_eq_some h)
      rw [Finmap.lookup_insert_of_ne _ hx, Finmap.lookup_eq_none.mpr hn, Finmap.lookup_empty]

theorem decode_encodeFields (fields : GoMap String Int64) (order : List String) :
    ((encodeFields fields order).mapM fun s => do
        let name ← Go.deref s.name
        let type ← Go.deref s.type
        pure (name, type.toInt64))
      = .ok (order.map fun k => (order.getLast?.getD "", (fields.lookup k).getD 0)) := by
  refine (Go.mapM_eq_ok (g := fun f => (f.name.getD "", (f.type.getD 0).toInt64))
    fun f hf => ?_).trans <| by simp [encodeFields_eq]
  rw [encodeFields_eq] at hf
  obtain ⟨k, _, rfl⟩ := mem_map.mp hf
  rfl

variable {r : FieldDimensionsResponse} {order dims : List String}

theorem roundTrips_iff_fields (hP : P.Laws) (hd : dims.toFinset = r.dimensions) :
    r.RoundTrips P order dims ↔
      (order.map fun k => (order.getLast?.getD "", (r.fields.lookup k).getD 0)).foldl
        (fun m (name, type) => m.insert name type) ∅ = r.fields := by
  have ⟨b, hb, hu⟩ := hP.fieldDimensionsResponse (m := {
    fields := encodeFields r.fields order, dimensions := dims, err := r.err }) (by
      rw [encodeFields_eq]
      simp [Internal.Message.Required])
  obtain ⟨fields, _, err⟩ := r
  cases hd
  simp only [RoundTrips, marshalBinary, hb, Go.ofExcept, Go.ok_bind, unmarshalBinary, unmarshal, hu,
    decode_encodeFields]
  change Except.ok _ = Except.ok _ ↔ _
  rw [Except.ok.injEq, FieldDimensionsResponse.mk.injEq]
  exact ⟨fun h => h.left, fun h => ⟨h, rfl, rfl⟩⟩

theorem roundTrips_iff (hP : P.Laws) (ho : r.fields.Visits order)
    (hd : dims.toFinset = r.dimensions) :
    r.RoundTrips P order dims ↔ r.fields.keys.card ≤ 1 := by
  rw [roundTrips_iff_fields hP hd]
  rcases eq_nil_or_concat' order with rfl | ⟨ks, k, rfl⟩
  case inl =>
    have he := ho.eq_nil_iff.mp rfl
    simp [he]
  case inr =>
    have hm : k ∈ r.fields := ho.mem_iff.mp (by simp)
    have ⟨v, hv⟩ := Option.isSome_iff_exists.mp (Finmap.lookup_isSome.mpr hm)
    rw [getLast?_concat, Option.getD_some, foldl_insert_concat ks k, hv, Option.getD_some,
      insert_empty_eq_iff hv]

theorem roundTrips_oneField : RoundTrips textualPrinter ["value"] ["host"] {
    fields := Finmap.insert "value" 1 ∅
    dimensions := {"host"}
    err := some "timeout" } :=
  (roundTrips_iff textualPrinter_laws (by decide) rfl).mpr (by decide)

theorem roundTrip_losesField :
    let r : FieldDimensionsResponse := {
      fields := Finmap.insert "b" 2 (Finmap.insert "a" 1 ∅), dimensions := ∅, err := none }
    r.fields.Visits ["a", "b"] ∧ ¬r.RoundTrips textualPrinter ["a", "b"] [] := by
  refine ⟨by decide, ?_⟩
  rw [roundTrips_iff_fields textualPrinter_laws rfl]
  decide

end FieldDimensionsResponse

namespace Query

variable {X : External} {P : Printer X}

section Fields

theorem decodeMeasurement_encode (hP : P.Laws) (mm : Measurement X.Regex) :
    decodeMeasurement X (some (encodeMeasurement P mm)) = .ok mm := by
  obtain ⟨_, _, _, regex, _, _⟩ := mm
  cases regex
  case none => rfl
  case some r =>
    simp only [decodeMeasurement, encodeMeasurement, deref, ok_bind, Option.map_some, hP.compile]
    rfl

theorem parseOption_map {parse : String → Except String α} {print : α → String}
    (h : ∀ a, parse (print a) = .ok a) (o : Option α) : parseOption parse (o.map print) = .ok o := by
  cases o
  case none => rfl
  case some a =>
    rw [Option.map_some, parseOption, h]
    rfl

theorem decodeAux_encode {pb : Internal.IteratorOptions} {aux : List VarRef}
    (hf : pb.fields = aux.map encodeVarRef) (ha : pb.aux = aux.map (·.val)) :
    decodeAux pb = aux.map fun ref => { val := ref.val, type := ref.type.toInt32 } := by
  rw [decodeAux, hf, ha]
  cases aux
  case nil => rfl
  case cons ref aux => simp [decodeVarRef, encodeVarRef]

theorem decode_groupBy {groupBy : Option (Finset String)} {order : List String}
    (ho : order.toFinset = groupBy.getD ∅) :
    (if (if groupBy.isSome then order else []) = [] then none
      else some (if groupBy.isSome then order else []).toFinset) = groupBy.filter (· ≠ ∅) := by
  cases groupBy
  case none => rfl
  case some s =>
    rw [Option.getD_some] at ho
    subst ho
    cases order <;> simp [Option.filter]

end Fields

def received (opt : IteratorOptions X) (sources : List (Measurement X.Regex)) :
    DataService.IteratorOptions X.Regex X.Expr X.Location where
  expr := opt.expr
  aux := opt.aux.map fun ref => { val := ref.val, type := ref.type.toInt32 }
  sources := sources
  interval := opt.interval
  dimensions := opt.dimensions
  groupBy := opt.groupBy.filter (· ≠ ∅)
  fill := opt.fill.toInt32
  fillValue := encodeFillValue opt.fillValue
  condition := opt.condition
  startTime := opt.startTime
  endTime := opt.endTime
  location := opt.location
  ascending := opt.ascending
  limit := opt.limit
  offset := opt.offset
  sLimit := opt.sLimit
  sOffset := opt.sOffset
  stripName := opt.stripName
  dedupe := opt.dedupe
  maxSeriesN := opt.maxSeriesN
  ordered := opt.ordered

theorem decode_encode (hP : P.Laws) {opt : IteratorOptions X} {pb : Internal.IteratorOptions}
    (hs : opt.sources = sources.map .measurement) (ho : order.toFinset = opt.groupBy.getD ∅)
    (he : encodeIteratorOptions P order opt = .ok pb) :
    decodeIteratorOptions X (some pb) = .ok (received opt sources) := by
  have hm : opt.sources.mapM (encodeSource P) = .ok (sources.map (encodeMeasurement P)) := by
    rw [hs, mapM_map, mapM_eq_ok]
    exact fun _ _ => rfl
  rw [encodeIteratorOptions, hm, ok_bind] at he
  cases he
  have hd : (sources.map (encodeMeasurement P)).mapM (fun s => decodeMeasurement X (some s))
      = .ok sources := by
    rw [mapM_map, mapM_eq_ok (g := id), map_id]
    exact fun mm _ => decodeMeasurement_encode hP mm
  simp only [decodeIteratorOptions, deref, ok_bind, parseOption_map hP.parseExpr,
    parseOption_map hP.loadLocation, hd]
  rw [decodeAux_encode rfl rfl]
  change Except.ok _ = Except.ok _
  rw [received, decode_groupBy ho]
  rfl

section Narrow

theorem toInt64_toInt32_iff (n : Int64) :
    n.toInt32.toInt64 = n ↔ -2 ^ 31 ≤ n.toInt ∧ n.toInt < 2 ^ 31 := by
  rw [← Int64.toInt_inj, Int32.toInt_toInt64, Int64.toInt_toInt32]
  constructor
  case mp =>
    intro h
    rw [← h]
    exact ⟨Int.le_bmod (by decide), Int.bmod_lt (by decide)⟩
  case mpr => exact fun h => Int.bmod_eq_of_le h.left h.right

theorem narrow_aux_iff (aux : List VarRef) :
    aux.map (fun ref => VarRef.mk ref.val ref.type.toInt32.toInt64) = aux ↔
      ∀ ref ∈ aux, -2 ^ 31 ≤ ref.type.toInt ∧ ref.type.toInt < 2 ^ 31 := by
  conv_lhs => rhs; rw [← map_id aux]
  rw [map_inj_left]
  refine forall₂_congr fun ref _ => ?_
  rw [← toInt64_toInt32_iff]
  exact ⟨congrArg VarRef.type, fun h => congrArg (VarRef.mk ref.val) h⟩

theorem map_encodeFillValue_iff (v : Option FillValue) :
    (encodeFillValue v).map .float = v ↔ ∀ n, v ≠ some (.integer n) := by
  match v with
  | none => simp [encodeFillValue]
  | some (.float _) => simp [encodeFillValue]
  | some (.integer n) => simp [encodeFillValue]

theorem ofDecoded_received_iff {opt : IteratorOptions X}
    (hs : opt.sources = sources.map .measurement) :
    IteratorOptions.ofDecoded (received opt sources) = opt.normal ↔
      (∀ ref ∈ opt.aux, -2 ^ 31 ≤ ref.type.toInt ∧ ref.type.toInt < 2 ^ 31)
        ∧ (-2 ^ 31 ≤ opt.fill.toInt ∧ opt.fill.toInt < 2 ^ 31)
        ∧ ∀ n, opt.fillValue ≠ some (.integer n) := by
  rw [← narrow_aux_iff, ← toInt64_toInt32_iff, ← map_encodeFillValue_iff]
  obtain ⟨_, aux, _, _, _, _, fill, fillValue, _⟩ := opt
  cases hs
  simp [IteratorOptions.ofDecoded, received, IteratorOptions.normal, Function.comp_def]

end Narrow

section Sources

theorem exists_measurements {sources : List (Source Regex)}
    (h : ∀ s ∈ sources, ∃ mm, s = .measurement mm) :
    ∃ l : List (Measurement Regex), sources = l.map .measurement := by
  induction sources
  case nil => exact ⟨[], rfl⟩
  case cons s sources hi =>
    have ⟨⟨mm, hm⟩, hs⟩ := forall_mem_cons.mp h
    have ⟨l, hl⟩ := hi hs
    exact ⟨mm :: l, by rw [hm, hl]; rfl⟩

theorem measurement_of_encode {opt : IteratorOptions X}
    (h : encodeIteratorOptions P order opt = .ok pb) :
    ∀ s ∈ opt.sources, ∃ mm, s = .measurement mm := by
  rw [encodeIteratorOptions] at h
  have ⟨l, hl, _⟩ := bind_eq_ok.mp h
  have hf : ∀ s ∈ opt.sources, (encodeSource P s).Safe → ∃ b, encodeSource P s = .ok b := by
    rintro (mm | q) _ hs
    case measurement => exact ⟨_, rfl⟩
    case subQuery => cases hs
  have hs := (safe_mapM_iff hf).mp (hl ▸ safe_ok)
  intro s hm
  cases s
  case measurement mm => exact ⟨mm, rfl⟩
  case subQuery => cases hs _ hm

theorem encode_of_measurements (P : Printer X) (order : List String) {opt : IteratorOptions X}
    {sources : List (Measurement X.Regex)} (hs : opt.sources = sources.map .measurement) :
    ∃ pb, encodeIteratorOptions P order opt = .ok pb ∧ pb.fields = opt.aux.map encodeVarRef := by
  have hm : opt.sources.mapM (encodeSource P) = .ok (sources.map (encodeMeasurement P)) := by
    rw [hs, mapM_map, mapM_eq_ok]
    exact fun _ _ => rfl
  rw [encodeIteratorOptions, hm, ok_bind]
  exact ⟨_, rfl, rfl⟩

end Sources

namespace IteratorCostRequest

variable {m : IteratorCostRequest X} {order : List String}

theorem unmarshal_marshal (hP : P.Laws) (ho : order.toFinset = m.iteratorOptions.groupBy.getD ∅)
    (hs : m.iteratorOptions.sources = sources.map .measurement) :
    (do DataService.IteratorCostRequest.unmarshalBinary X (← m.marshalBinary P order)) = .ok {
      shardIDs := m.shardIDs
      measurement := m.measurement
      iteratorOptions := received m.iteratorOptions sources } := by
  have ⟨pb, he, hf⟩ := encode_of_measurements P order hs
  have ⟨b, hb, hu⟩ := hP.iteratorCostRequest (m := {
    shardIDs := m.shardIDs
    measurement := some (encodeMeasurement P m.measurement)
    iteratorOptions := some pb }) ⟨rfl, pb, rfl, by simp [hf, encodeVarRef]⟩
  simp only [marshalBinary, he, ok_bind, hb, Go.ofExcept,
    DataService.IteratorCostRequest.unmarshalBinary, unmarshal, hu, decodeMeasurement_encode hP,
    decode_encode hP hs ho he]
  rfl

-- A request is read as it was written if and only if all that it says has its place.
theorem roundTrips_iff_sendable (hP : P.Laws)
    (ho : order.toFinset = m.iteratorOptions.groupBy.getD ∅) :
    m.RoundTrips P order ↔ m.iteratorOptions.Sendable := by
  constructor
  case mp =>
    rintro ⟨m', he, hm⟩
    have ⟨b, hb, _⟩ := bind_eq_ok.mp hm
    rw [marshalBinary] at hb
    have ⟨pb, hp, _⟩ := bind_eq_ok.mp hb
    have hs := measurement_of_encode hp
    have ⟨sources, hl⟩ := exists_measurements hs
    rw [unmarshal_marshal hP ho hl] at hm
    cases hm
    have hn := congrArg IteratorCostRequest.iteratorOptions he
    have ⟨ha, hf, hv⟩ := (ofDecoded_received_iff hl).mp hn
    exact ⟨hs, ha, hf, hv⟩
  case mpr =>
    rintro ⟨hs, ha, hf, hv⟩
    have ⟨sources, hl⟩ := exists_measurements hs
    refine ⟨_, ?_, unmarshal_marshal hP ho hl⟩
    rw [ofDecoded, normal, (ofDecoded_received_iff hl).mpr ⟨ha, hf, hv⟩]

def sample (sources : List (Source String)) : IteratorCostRequest textual where
  shardIDs := [1, 2]
  measurement := ⟨"db", "rp", "", some "^cpu", false, ""⟩
  iteratorOptions := {
    expr := some "mean(value)"
    aux := [⟨"host", 7⟩, ⟨"value", 1⟩]
    sources := sources
    interval := ⟨60, -1⟩
    dimensions := ["host"]
    groupBy := some {"host"}
    fill := 2
    fillValue := some (.float 0x4059000000000000)
    condition := some "host = 'a'"
    startTime := Int64.minValue
    endTime := Int64.maxValue
    location := some "UTC"
    ascending := true
    limit := 10
    offset := 1
    sLimit := 3
    sOffset := 0
    stripName := false
    dedupe := true
    maxSeriesN := 100
    ordered := true }

theorem roundTrips_sample :
    (sample [.measurement ⟨"db", "rp", "cpu", none, false, ""⟩]).RoundTrips textualPrinter
      ["host"] :=
  (roundTrips_iff_sendable textualPrinter_laws rfl).mpr {
    sources := forall_mem_singleton.mpr ⟨_, rfl⟩
    aux := by simp [sample]
    fill := by decide
    fillValue := by simp [sample] }

theorem subQuery_panics :
    (sample [.subQuery "SELECT value FROM cpu"]).marshalBinary textualPrinter ["host"] = Go.panic :=
  rfl

end IteratorCostRequest

end Query
end DataService
