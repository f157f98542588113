import Myts.Meta.Store

namespace Meta

open Influx (Package)

namespace Data

theorem apply_preserves {J : Data → Prop} {d d' : Data} (ha : d.apply I E l = some (d', err))
    (hs : ∀ {d}, J d → J (d.stamp l)) (h : J d)
    (ho : ∀ {data}, l.cmd = .setData data → J (unmarshal I data))
    (hm : ∀ {m d'}, dispatch I E l.cmd = .update m → m d = .ok () d' → J d')
    (he : ∀ {m e d'}, dispatch I E l.cmd = .update m → m d = .error e d' → e ≠ .panic →
      J { d with shardStatus := d.leaked d' }) : J d' := by
  rw [apply] at ha
  split at ha
  case h_1 => cases ha
  case h_2 => cases ha; exact hs h
  case h_3 hd =>
    cases ha
    cases hc : l.cmd <;> simp [hc, dispatch] at hd
    case setData data => exact hs <| hd ▸ ho hc
    case createNode => split at hd <;> cases hd
  case h_4 hd =>
    split at ha
    case h_1 hr => cases ha; exact hs <| hm hd hr
    case h_2 => cases ha
    case h_3 hp hr => cases ha; exact hs <| he hd hr hp

end Data

namespace Store

variable {s : Store} {d : Data} {I : Package} {E : Env} {l : Log}

theorem cell_eq : s.cells[s.data]? = some s.cell := by
  simp [cell, s.data_lt]

theorem ref_lt (h : s.cell.shardStatus = some r) : r < s.maps.length :=
  s.refs_lt s.cell (List.get_mem s.cells _) r h

theorem read?_data : s.read? s.data = some s.live := by
  rw [read?, cell_eq, Option.map_some, live]

theorem live_newCell {h} (hr : r.bind (s.maps[·]?) = d.shardStatus) :
    (s.newCell d r h).live = d := by
  simp [live, cell, value, DataOf.mapStatus, hr]

theorem live_stamp : (s.stamp l).live = s.live.stamp l := by
  have h : (s.stamp l).cell = s.cell.stamp l := by simp [cell]
  rw [live, h]
  rfl

theorem live_overwrite : (s.overwrite d).live = d := by
  rw [overwrite]
  split
  all_goals
    rename_i h
    exact live_newCell <| by simp [h]

theorem live_install : (s.install d).live = d := by
  rw [install]
  split
  case h_1 r m hr hm => exact live_newCell <| by simp [ref_lt hr, hm]
  case h_2 => exact live_overwrite

theorem live_writeThrough :
    (s.writeThrough d).live = { s.live with shardStatus := s.live.leaked d } := by
  rw [writeThrough]
  split
  case h_1 r m hr hm =>
    have hl : s.live.shardStatus = s.maps[r]? := by simp [live, value, DataOf.mapStatus, hr]
    rw [List.getElem?_eq_getElem (ref_lt hr)] at hl
    have hc : (s.setMap r m).cell = s.cell := rfl
    rw [live, hc, Data.leaked, hl, hm]
    simp [live, value, DataOf.mapStatus, hr, ref_lt hr]
  case h_2 h =>
    have hl : s.live.leaked d = s.live.shardStatus := by
      rw [Data.leaked]
      split
      case h_1 m hs hd =>
        cases hr : s.cell.shardStatus
        case none => simp [live, value, DataOf.mapStatus, hr] at hs
        case some r => exact (h r _ hr hd).elim
      case h_2 => rfl
    rw [hl]

theorem live_apply : (s.apply I E l).map (Prod.map live id) = s.live.apply I E l := by
  rw [apply, Data.apply]
  split <;> try rfl
  case h_2 => simp [live_stamp]
  case h_3 => simp [live_stamp, live_overwrite]
  case h_4 m _ =>
    cases m s.live
    case ok => simp [live_stamp, live_install]
    case error e d => cases e <;> simp [live_stamp, live_writeThrough]

theorem live_step : (step I s? i).map live = Data.step I (s?.map live) i := by
  cases s?
  case none => rfl
  case some s =>
    simp only [step, Data.step, Option.bind_some, Option.map_some, ← live_apply, Option.map_map]
    rfl

@[simp]
theorem live_ofData : (ofData d).live = d := by
  cases h : d.shardStatus <;> simp [ofData, live, cell, value, DataOf.mapStatus, h] <;> simp [← h]

theorem run_live {P : Data → Env × Log → Prop}
    (h : Run (step I) (fun s i => ∀ s' ∈ s, P s'.live i) (some s) s?) :
    Run (Data.step I) (fun d i => ∀ d' ∈ d, P d' i) (some s.live) (s?.map live) := by
  refine h.simulates (f := Option.map live) (fun _ _ => live_step) ?_
  intro s i h d hd
  have ⟨s', hs, hd⟩ := Option.mem_map.mp hd
  exact hd ▸ h s' hs

theorem invariant_live {P : Data → Env × Log → Prop} {J : Data → Prop}
    (h : Run (step I) (fun s i => ∀ s' ∈ s, P s'.live i) (some s₀) (some s)) (h₀ : J s₀.live)
    (hs : ∀ {d d' i err}, J d → P d i → d.apply I i.1 i.2 = some (d', err) → J d') : J s.live := by
  refine (run_live h).invariant (I := fun d => ∀ d' ∈ d, J d') ?_ ?_ s.live rfl
  · rintro _ ⟨⟩
    exact h₀
  · rintro (_ | d) i hd hp d' hs'
    case none => cases hs'
    case some =>
      obtain ⟨⟨_, err⟩, ha, rfl⟩ := Option.map_eq_some_iff.mp hs'
      exact hs (hd d rfl) (hp d rfl) ha

end Store
end Meta
