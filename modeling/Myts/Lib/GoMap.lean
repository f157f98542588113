import Mathlib

open List

abbrev GoMap (α β : Type) := Finmap fun _ : α => β

namespace GoMap

variable {m : GoMap α β}

def count [DecidableEq α] (m : GoMap α Nat) (k : α) : Nat :=
  (m.lookup k).getD 0

def incr [DecidableEq α] (m : GoMap α Nat) (k : α) : GoMap α Nat :=
  m.insert k (m.count k + 1)

def Forall [DecidableEq α] (m : GoMap α β) (p : β → Prop) : Prop :=
  ∀ k ∈ m.keys, ∀ v ∈ m.lookup k, p v

instance [DecidableEq α] {p : β → Prop} [DecidablePred p] : Decidable (m.Forall p) :=
  inferInstanceAs (Decidable (∀ k ∈ m.keys, _))

theorem Forall.of_lookup [DecidableEq α] (h : m.Forall p) (hl : m.lookup k = some v) : p v :=
  h k (Finmap.mem_keys.mpr <| Finmap.mem_of_lookup_eq_some hl) v hl

section Least

variable [DecidableEq α] (m : GoMap α Nat)

def Least (k : α) : Prop :=
  k ∈ m.keys ∧ ∀ k' ∈ m.keys, m.count k ≤ m.count k'

instance : DecidablePred m.Least :=
  fun _ => inferInstanceAs (Decidable (_ ∧ _))

def AtMostOneLeast : Prop :=
  ∀ k₁ ∈ m.keys, ∀ k₂ ∈ m.keys, m.Least k₁ → m.Least k₂ → k₁ = k₂

instance : Decidable m.AtMostOneLeast :=
  inferInstanceAs (Decidable (∀ k₁ ∈ m.keys, _))

def ForLeast (p : α → Prop) : Prop :=
  ∀ k ∈ m.keys, m.Least k → p k

instance {p : α → Prop} [DecidablePred p] : Decidable (m.ForLeast p) :=
  inferInstanceAs (Decidable (∀ k ∈ m.keys, _))

end Least

-- A loop over a map comes to each of its keys once. The order is not specified.
def Visits (m : GoMap α β) (ks : List α) : Prop :=
  (ks : Multiset α) = m.keys.val

instance [DecidableEq α] : Decidable (m.Visits ks) :=
  inferInstanceAs (Decidable (_ = _))

namespace Visits

theorem mem_iff (h : m.Visits ks) : k ∈ ks ↔ k ∈ m := by
  rw [← Multiset.mem_coe, h, Finset.mem_val, Finmap.mem_keys]

theorem nodup (h : m.Visits ks) : ks.Nodup := by
  rw [← Multiset.coe_nodup, h]
  exact m.keys.nodup

theorem of_nodup_mem (hn : ks.Nodup) (hm : ∀ k, k ∈ ks ↔ k ∈ m) : m.Visits ks := by
  refine (Multiset.Nodup.ext (Multiset.coe_nodup.mpr hn) m.keys.nodup).mpr fun k => ?_
  rw [Multiset.mem_coe, Finset.mem_val, Finmap.mem_keys, hm]

theorem reverse (h : m.Visits ks) : m.Visits ks.reverse := by
  rw [Visits, Multiset.coe_reverse, h]

end Visits

def ascending [LinearOrder α] (m : GoMap α β) : List α :=
  Quotient.liftOn m.keys.val (·.insertionSort (· ≤ ·)) fun l₁ l₂ h =>
    List.Perm.eq_of_pairwise (fun _ _ _ _ => le_antisymm)
      (l₁.pairwise_insertionSort _) (l₂.pairwise_insertionSort _) <|
      (l₁.perm_insertionSort _).trans <| h.trans (l₂.perm_insertionSort _).symm

theorem visits_ascending [LinearOrder α] (m : GoMap α β) : m.Visits m.ascending := by
  rw [Visits, ascending]
  generalize m.keys.val = s
  induction s using Quotient.inductionOn
  case _ l => exact Quotient.sound (l.perm_insertionSort _)

theorem lookup_foldl_insert [DecidableEq α] (f : α → β) (ks : List α) (m : GoMap α β) :
    (ks.foldl (fun m k => m.insert k (f k)) m).lookup k =
      if k ∈ ks then some (f k) else m.lookup k := by
  induction ks generalizing m
  case nil => simp
  case cons a ks hi =>
    rw [foldl_cons, hi]
    by_cases ha : k = a
    case pos => subst ha; simp
    case neg => simp [ha]

theorem lookup_foldl_insert_congr [DecidableEq α] {l : List (α × β)} {m₁ m₂ : GoMap α β}
    (h : k ∈ l.map Prod.fst ∨ m₁.lookup k = m₂.lookup k) :
    (l.foldl (fun m p => m.insert p.1 p.2) m₁).lookup k =
      (l.foldl (fun m p => m.insert p.1 p.2) m₂).lookup k := by
  induction l generalizing m₁ m₂
  case nil => exact h.resolve_left not_mem_nil
  case cons p l hi =>
    refine hi ?_
    by_cases hk : k = p.1
    case pos => subst hk; simp
    case neg => simpa [hk] using h

theorem foldl_insert_eq_empty [DecidableEq α] {l : List (α × β)}
    (h : ∀ k ∈ m, k ∈ l.map Prod.fst) :
    l.foldl (fun m p => m.insert p.1 p.2) m = l.foldl (fun m p => m.insert p.1 p.2) ∅ := by
  refine Finmap.ext_lookup fun k => lookup_foldl_insert_congr ?_
  by_cases hk : k ∈ m
  case pos => exact .inl (h k hk)
  case neg => exact .inr (by rw [Finmap.lookup_eq_none.mpr hk, Finmap.lookup_empty])

theorem mem_foldl_insert [DecidableEq α] {l : List (α × β)} :
    k ∈ l.foldl (fun m p => m.insert p.1 p.2) m ↔ k ∈ l.map Prod.fst ∨ k ∈ m := by
  induction l generalizing m
  case nil => simp
  case cons p l hi =>
    rw [foldl_cons, hi, Finmap.mem_insert, map_cons, mem_cons]
    tauto

theorem count_incr [DecidableEq α] (m : GoMap α Nat) (a k : α) :
    (m.incr a).count k = m.count k + if k = a then 1 else 0 := by
  rw [incr, count]
  by_cases h : k = a
  case pos => subst h; simp [count]
  case neg => simp [h, count]

theorem mem_incr [DecidableEq α] {m : GoMap α Nat} : k ∈ m.incr a ↔ k = a ∨ k ∈ m :=
  Finmap.mem_insert

theorem count_foldl_incr [DecidableEq α] (ks : List α) (m : GoMap α Nat) :
    (ks.foldl incr m).count k = m.count k + ks.count k := by
  induction ks generalizing m
  case nil => simp
  case cons a ks hi =>
    rw [foldl_cons, hi, count_incr, count_cons]
    by_cases h : k = a
    case pos => simp [h]; omega
    case neg => simp [h, Ne.symm h]

theorem mem_foldl_incr [DecidableEq α] (ks : List α) {m : GoMap α Nat} :
    k ∈ ks.foldl incr m ↔ k ∈ ks ∨ k ∈ m := by
  induction ks generalizing m
  case nil => simp
  case cons a ks hi =>
    rw [foldl_cons, hi, mem_incr, mem_cons]
    tauto

namespace Visits

theorem eq_nil_iff [DecidableEq α] (h : m.Visits ks) : ks = [] ↔ m = ∅ where
  mp hk := Finmap.ext_lookup fun k => by
    rw [Finmap.lookup_empty, Finmap.lookup_eq_none, ← h.mem_iff, hk]
    exact not_mem_nil
  mpr hm := eq_nil_iff_forall_not_mem.mpr fun k => by
    rw [h.mem_iff, hm]
    exact Finmap.notMem_empty

theorem foldl_insert_eq [DecidableEq α] {f : α → β} (h : m.Visits ks)
    (hf : ∀ {k v}, m.lookup k = some v → f k = v) :
    ks.foldl (fun m k => m.insert k (f k)) (∅ : GoMap α β) = m := by
  refine Finmap.ext_lookup fun k => ?_
  rw [lookup_foldl_insert]
  cases hk : m.lookup k
  case none => simp [h.mem_iff, Finmap.lookup_eq_none.mp hk]
  case some v => simp [h.mem_iff, Finmap.mem_of_lookup_eq_some hk, hf hk]

end Visits

section Total

variable [DecidableEq α]

def part (f : α → β → Nat) (m : GoMap α β) (k : α) : Nat :=
  ((m.lookup k).map (f k)).getD 0

def total (f : α → β → Nat) (m : GoMap α β) : Nat :=
  ∑ k ∈ m.keys, m.part f k

variable {f : α → β → Nat} {m m' : GoMap α β}

theorem part_of_not_mem (h : k ∉ m) : m.part f k = 0 := by
  rw [part, Finmap.lookup_eq_none.mpr h]
  rfl

theorem total_eq_sum (h : m.keys ⊆ s) : m.total f = ∑ k ∈ s, m.part f k :=
  Finset.sum_subset h fun _ _ hk => part_of_not_mem (mt Finmap.mem_keys.mpr hk)

theorem total_add_part (h : ∀ k', k' ≠ k → m'.lookup k' = m.lookup k') :
    m'.total f + m.part f k = m.total f + m'.part f k := by
  have hk : k ∈ insert k (m.keys ∪ m'.keys) := Finset.mem_insert_self ..
  have hs : m.keys ⊆ insert k (m.keys ∪ m'.keys) :=
    Finset.subset_union_left.trans (Finset.subset_insert ..)
  have hs' : m'.keys ⊆ insert k (m.keys ∪ m'.keys) :=
    Finset.subset_union_right.trans (Finset.subset_insert ..)
  have he : ∑ x ∈ (insert k (m.keys ∪ m'.keys)).erase k, m'.part f x =
      ∑ x ∈ (insert k (m.keys ∪ m'.keys)).erase k, m.part f x :=
    Finset.sum_congr rfl fun x hx => by rw [part, part, h x (Finset.ne_of_mem_erase hx)]
  rw [total_eq_sum hs, total_eq_sum hs', ← Finset.add_sum_erase _ _ hk,
    ← Finset.add_sum_erase _ (m.part f) hk, he]
  omega

theorem total_insert : total f (m.insert k v) + m.part f k = m.total f + f k v := by
  have h : total f (m.insert k v) + m.part f k = m.total f + part f (m.insert k v) k :=
    total_add_part fun k' hk => Finmap.lookup_insert_of_ne m hk
  rw [h, part, Finmap.lookup_insert]
  rfl

theorem total_erase : total f (m.erase k) + m.part f k = m.total f := by
  have h : total f (m.erase k) + m.part f k = m.total f + part f (m.erase k) k :=
    total_add_part fun k' hk => Finmap.lookup_erase_ne hk
  rw [h, part, Finmap.lookup_erase]
  rfl

theorem part_le_total (k : α) : m.part f k ≤ m.total f := by
  have := total_erase (f := f) (m := m) (k := k)
  omega

end Total
end GoMap
