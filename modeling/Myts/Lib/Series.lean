import Mathlib

open List

-- Values with times. A value that comes later in the list replaces those with the same time.
abbrev Series (τ α : Type) := List (τ × α)

namespace Series

variable {τ α : Type} [LinearOrder τ] {a b c : Series τ α} {t : τ}

def Ascending (a : Series τ α) : Prop :=
  a.Pairwise (·.1 < ·.1)

instance (a : Series τ α) : Decidable a.Ascending :=
  inferInstanceAs (Decidable (a.Pairwise _))

def last (a : Series τ α) (t : τ) : Option α :=
  a.foldl (fun o p => if p.1 = t then some p.2 else o) none

@[simp]
theorem last_nil : last ([] : Series τ α) t = none :=
  rfl

theorem foldl_last (o : Option α) :
    a.foldl (fun o p => if p.1 = t then some p.2 else o) o = (a.last t).or o := by
  induction a generalizing o
  case nil => rfl
  case cons p a hi =>
    rw [last, foldl_cons, foldl_cons, hi, hi]
    split <;> cases last a t <;> rfl

@[simp]
theorem last_append : (a ++ b).last t = (b.last t).or (a.last t) := by
  rw [last, foldl_append, foldl_last]
  rfl

theorem last_singleton {p : τ × α} : last [p] t = if p.1 = t then some p.2 else none :=
  rfl

theorem last_cons {p : τ × α} :
    last (p :: a) t = (a.last t).or (if p.1 = t then some p.2 else none) := by
  rw [← singleton_append, last_append, last_singleton]

theorem mem_of_last {v : α} (h : a.last t = some v) : (t, v) ∈ a := by
  induction a
  case nil => cases h
  case cons p a hi =>
    rw [last_cons, Option.or_eq_some_iff] at h
    rcases h with h | ⟨-, h⟩
    case inl => exact mem_cons_of_mem _ (hi h)
    case inr =>
      split at h <;> cases h
      case isTrue hp => exact hp ▸ mem_cons_self

theorem last_eq_none_iff : a.last t = none ↔ ∀ p ∈ a, p.1 ≠ t := by
  induction a
  case nil => simp
  case cons p a hi => rw [last_cons, Option.or_eq_none_iff, hi]; simp [and_comm]

theorem last_isSome (h : (t, v) ∈ a) : (a.last t).isSome := by
  rw [Option.isSome_iff_ne_none, ne_eq, last_eq_none_iff]
  exact fun hn => hn _ h rfl

theorem last_filter {p : τ → Prop} [DecidablePred p] :
    last (a.filter (p ·.1)) t = if p t then a.last t else none := by
  induction a
  case nil => simp
  case cons x a hi =>
    rw [filter_cons]
    by_cases hx : x.1 = t
    case pos =>
      subst hx
      by_cases hp : p x.1 <;> simp [hp, last_cons, hi]
    case neg => split <;> simp [last_cons, hx, hi]

namespace Ascending

@[simp]
theorem nil : Ascending ([] : Series τ α) :=
  List.Pairwise.nil

theorem cons_iff {p : τ × α} : Ascending (p :: a) ↔ (∀ q ∈ a, p.1 < q.1) ∧ a.Ascending :=
  pairwise_cons

theorem append_iff : (a ++ b).Ascending ↔
    a.Ascending ∧ b.Ascending ∧ ∀ p ∈ a, ∀ q ∈ b, p.1 < q.1 :=
  pairwise_append

theorem sublist (h : a.Ascending) (hs : b.Sublist a) : b.Ascending :=
  List.Pairwise.sublist hs h

theorem filter (h : a.Ascending) (p : τ × α → Bool) : Ascending (a.filter p) :=
  h.sublist filter_sublist

theorem last_eq_some_iff (h : a.Ascending) : a.last t = some v ↔ (t, v) ∈ a := by
  refine ⟨mem_of_last, fun hm => ?_⟩
  induction a
  case nil => cases hm
  case cons p a hi =>
    obtain ⟨hp, ha⟩ := cons_iff.mp h
    rw [last_cons]
    rcases mem_cons.mp hm with rfl | hm
    case inl =>
      have hn : last a t = none := last_eq_none_iff.mpr fun q hq => (hp q hq).ne'
      simp [hn]
    case inr => simp [hi ha hm]

theorem ext (ha : a.Ascending) (hb : b.Ascending) (h : ∀ t, a.last t = b.last t) : a = b := by
  refine List.Perm.eq_of_pairwise (fun p q _ _ h₁ h₂ => (h₁.asymm h₂).elim) ha hb ?_
  have hn {c : Series τ α} (hc : c.Ascending) : c.Nodup :=
    List.Pairwise.imp (fun h => by rintro rfl; exact h.false) hc
  rw [perm_ext_iff_of_nodup (hn ha) (hn hb)]
  intro p
  rw [← ha.last_eq_some_iff, ← hb.last_eq_some_iff, h]

end Ascending

end Series
