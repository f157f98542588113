import Myts.Hh.Service

namespace Hh

namespace Service

variable {c : Meta.Client} {now : UInt64 → GoTime} {maxAge : Int} {s : Service}

theorem active_ne_false : Processor.active c.dataNode p ≠ .ok false := by
  rw [Processor.active, Meta.Client.dataNode]
  cases c.cacheData.dataNodes.find? (·.id == p.nodeID) <;> simp

theorem visit_dataNode : visit c.dataNode now maxAge s k = s := by
  rw [visit]
  split <;> try rfl
  split <;> try rfl
  split <;> try rfl
  case h_2 ha =>
    split
    case isTrue => rfl
    case isFalse h => exact absurd (Bool.eq_false_of_not_eq_true h ▸ ha) active_ne_false

theorem purge_dataNode : purgeInactiveProcessors c.dataNode now maxAge order s = s := by
  induction order
  case nil => rfl
  case cons k order hi => rwa [purgeInactiveProcessors, List.foldl_cons, visit_dataNode]

theorem purged_dataNode_iff (c : Meta.Client) (now : UInt64 → GoTime) (maxAge : Int) (s : Service)
    (order : List UInt64) :
    Purged now maxAge c.cacheData.dataNodes s
        (purgeInactiveProcessors c.dataNode now maxAge order s)
      ↔ NoneExpired now maxAge c.cacheData.dataNodes s := by
  rw [purge_dataNode]
  constructor
  case mp =>
    intro h k _ p hp he
    have ⟨hn, _⟩ := h.expired hp he
    rw [hp] at hn
    cases hn
  case mpr =>
    intro h
    refine ⟨fun {k p} hp he => absurd he (h k ?_ p hp), fun _ => ⟨rfl, rfl⟩⟩
    exact Finmap.mem_keys.mpr <| Finmap.mem_of_lookup_eq_some hp

theorem removedNode_kept :
    let c : Meta.Client := {
      metaServers := [], tls := false, changed := 0, closing := false, opened := true
      cacheData := .empty }
    let p : Processor := {
      nodeID := 1, isOpen := true, onDisk := true
      lastModified := .ok 0, closeError := none, removeError := none }
    let s : Service := ⟨Finmap.singleton 1 p, ∅⟩
    s.processors.Visits [1] ∧ Expired c.cacheData.dataNodes (10 - 5) p
      ∧ (purgeInactiveProcessors c.dataNode (fun _ => 10) 5 [1] s).processors.lookup 1 = some p := by
  refine ⟨by decide, ⟨by simp [Meta.Data.empty], 0, rfl, by decide⟩, rfl⟩

end Service
end Hh
