import Mathlib

open List

-- Groups of resources with one owner each. A resource is in use as long as its group is held.
structure Owns [DecidableEq α] (inUse : Finset α) (held : List (List α)) : Prop where
  eq : inUse = held.flatten.toFinset
  disjoint : held.Pairwise List.Disjoint

namespace Owns

variable [DecidableEq α] {inUse : Finset α} {held held' groups : List (List α)}

theorem perm (h : Owns inUse held) (hp : held.Perm held') : Owns inUse held' where
  eq := h.eq.trans <| toFinset_eq_of_perm _ _ hp.flatten
  disjoint := hp.pairwise h.disjoint List.Disjoint.symm

theorem nil : Owns (∅ : Finset α) [] where
  eq := rfl
  disjoint := .nil

theorem acquire (h : Owns inUse held) (hg : groups.Pairwise List.Disjoint)
    (hn : ∀ g ∈ groups, ∀ a ∈ g, a ∉ inUse) :
    Owns (inUse ∪ groups.flatten.toFinset) (groups ++ held) where
  eq := by rw [h.eq, flatten_append, toFinset_append, Finset.union_comm]
  disjoint := by
    refine pairwise_append.mpr ⟨hg, h.disjoint, fun g hg l hl a hag hal => ?_⟩
    apply hn g hg a hag
    rw [h.eq, mem_toFinset]
    exact mem_flatten_of_mem hl hal

theorem release (h : Owns inUse (groups ++ held)) :
    Owns (inUse \ groups.flatten.toFinset) held := by
  have ⟨_, hh, hd⟩ := pairwise_append.mp h.disjoint
  refine ⟨?_, hh⟩
  rw [h.eq, flatten_append, toFinset_append, Finset.union_sdiff_left,
    Finset.sdiff_eq_self_iff_disjoint, Finset.disjoint_left]
  intro a ha hg
  have ⟨l, hl, hal⟩ := mem_flatten.mp <| mem_toFinset.mp ha
  have ⟨g, hg, hag⟩ := mem_flatten.mp <| mem_toFinset.mp hg
  exact hd g hg l hl hag hal

end Owns
