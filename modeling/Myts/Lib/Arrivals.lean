import Mathlib

open List

-- What a loop over a channel receives that has one message from each sender, among the signals that
-- end the loop.
inductive Arrival (ι : Type)
  | closing
  | timeout
  | sent (i : ι)
deriving DecidableEq

namespace Arrival

def sender? : Arrival ι → Option ι
  | sent i => some i
  | _ => none

def senders (l : List (Arrival ι)) : List ι :=
  l.filterMap sender?

theorem senders_map_sent (is : List ι) : senders (is.map .sent) = is := by
  rw [senders, filterMap_map]
  exact filterMap_some

theorem eq_map_sent {l : List (Arrival ι)} (h : ∀ e ∈ l, ∃ i, e = .sent i) :
    l = (senders l).map .sent := by
  induction l
  case nil => rfl
  case cons e l hi =>
    obtain ⟨⟨i, rfl⟩, hl⟩ := forall_mem_cons.mp h
    exact congrArg (.sent i :: ·) (hi hl)

end Arrival

open Arrival

structure Arrivals (ι : Type) where
  list : List (Arrival ι)
  nodup : (senders list).Nodup

namespace Arrivals

variable {a : Arrivals ι}

structure Complete (a : Arrivals ι) : Prop where
  sent : ∀ i, .sent i ∈ a.list
  closing : .closing ∉ a.list
  timeout : .timeout ∉ a.list

def inOrder (is : List ι) (h : is.Nodup) : Arrivals ι where
  list := is.map .sent
  nodup := by rwa [senders_map_sent]

theorem Complete.list_eq (h : a.Complete) : a.list = (senders a.list).map .sent := by
  refine eq_map_sent ?_
  rintro (_ | _ | i) he
  case closing => exact (h.closing he).elim
  case timeout => exact (h.timeout he).elim
  case sent => exact ⟨i, rfl⟩

section Fintype

variable [Fintype ι]

instance [DecidableEq ι] : Decidable a.Complete :=
  decidable_of_iff ((∀ i, .sent i ∈ a.list) ∧ .closing ∉ a.list ∧ .timeout ∉ a.list)
    ⟨fun ⟨h₁, h₂, h₃⟩ => ⟨h₁, h₂, h₃⟩, fun ⟨h₁, h₂, h₃⟩ => ⟨h₁, h₂, h₃⟩⟩

theorem Complete.length_senders (h : a.Complete) : (senders a.list).length = Fintype.card ι := by
  classical
  have hu : (senders a.list).toFinset = Finset.univ := Finset.eq_univ_iff_forall.mpr fun i =>
    mem_toFinset.mpr <| mem_filterMap.mpr ⟨.sent i, h.sent i, rfl⟩
  rw [← toFinset_card_of_nodup a.nodup, hu, Finset.card_univ]

theorem length_filter_senders_le (p : ι → Prop) [DecidablePred p] :
    ((senders a.list).filter p).length ≤ (Finset.univ.filter p).card := by
  classical
  rw [← toFinset_card_of_nodup (a.nodup.filter _)]
  refine Finset.card_le_card fun i hi => ?_
  simp only [mem_toFinset, mem_filter, decide_eq_true_eq] at hi
  exact Finset.mem_filter.mpr ⟨Finset.mem_univ i, hi.right⟩

theorem mem_of_card_le {is : List ι} (h : Fintype.card ι ≤ is.length)
    (hs : is.Sublist (senders a.list)) (i : ι) : i ∈ is := by
  classical
  have hc := toFinset_card_of_nodup (a.nodup.sublist hs)
  have hu : is.toFinset = Finset.univ :=
    Finset.eq_univ_of_card _ <| le_antisymm (Finset.card_le_univ _) <| h.trans_eq hc.symm
  exact mem_toFinset.mp <| hu ▸ Finset.mem_univ i

end Fintype

end Arrivals
