import Myts.Lib.GoMap

open List

-- A map that is kept in parts, where `home` is the number of the part of a key.
structure Shards {α β : Type} [DecidableEq α] (home : α → Nat) (parts : List (GoMap α β))
    (m : GoMap α β) : Prop where
  lookup : ∀ {i p}, parts[i]? = some p → ∀ k, p.lookup k = if home k = i then m.lookup k else none
  bound : ∀ k ∈ m, home k < parts.length

namespace Shards

variable {α β : Type} [DecidableEq α] {home : α → Nat} {parts : List (GoMap α β)} {m : GoMap α β}

theorem empty (n : Nat) : Shards home (List.replicate n ∅) (∅ : GoMap α β) where
  lookup h k := by
    have hp := eq_of_mem_replicate <| mem_of_getElem? h
    simp [hp]
  bound k hk := absurd hk Finmap.notMem_empty

theorem mem_iff (h : Shards home parts m) (hp : parts[i]? = some p) :
    k ∈ p ↔ home k = i ∧ k ∈ m := by
  rw [← Finmap.lookup_isSome, ← Finmap.lookup_isSome, h.lookup hp]
  split <;> simp [*]

theorem lookup_home (h : Shards home parts m) (hp : parts[home k]? = some p) :
    p.lookup k = m.lookup k := by
  rw [h.lookup hp, if_pos rfl]

theorem set (h : Shards home parts m) (hp : parts[home k]? = some p)
    (hk : p'.lookup k = m'.lookup k) (hp' : ∀ k', k' ≠ k → p'.lookup k' = p.lookup k')
    (hm' : ∀ k', k' ≠ k → m'.lookup k' = m.lookup k') :
    Shards home (parts.set (home k) p') m' where
  lookup {i q} hq k' := by
    by_cases hi : home k = i
    case pos =>
      have hl : home k < parts.length := (List.getElem?_eq_some_iff.mp hp).1
      rw [← hi, getElem?_set_self hl, Option.some_inj] at hq
      subst hq hi
      by_cases he : k' = k
      case pos => rw [he, if_pos rfl, hk]
      case neg => rw [hp' k' he, hm' k' he, h.lookup hp]
    case neg =>
      rw [getElem?_set_ne hi] at hq
      rw [h.lookup hq]
      refine if_ctx_congr Iff.rfl (fun ht => (hm' k' fun he => hi ?_).symm) (fun _ => rfl)
      rw [← he, ht]
  bound k' hk' := by
    rw [length_set]
    by_cases he : k' = k
    case pos => exact he ▸ (List.getElem?_eq_some_iff.mp hp).1
    case neg =>
      rw [← Finmap.lookup_isSome, hm' k' he, Finmap.lookup_isSome] at hk'
      exact h.bound k' hk'

theorem insert (h : Shards home parts m) (hp : parts[home k]? = some p) :
    Shards home (parts.set (home k) (p.insert k v)) (m.insert k v) :=
  h.set hp (by rw [Finmap.lookup_insert, Finmap.lookup_insert])
    (fun _ hk => Finmap.lookup_insert_of_ne _ hk) (fun _ hk => Finmap.lookup_insert_of_ne _ hk)

theorem erase (h : Shards home parts m) (hp : parts[home k]? = some p) :
    Shards home (parts.set (home k) (p.erase k)) (m.erase k) :=
  h.set hp (by rw [Finmap.lookup_erase, Finmap.lookup_erase])
    (fun _ hk => Finmap.lookup_erase_ne hk) (fun _ hk => Finmap.lookup_erase_ne hk)

theorem visits (h : Shards home parts m) {orders : List (List α)}
    (ho : List.Forall₂ GoMap.Visits parts orders) :
    m.Visits orders.flatten := by
  have hm {i : Nat} {ks : List α} (hi : orders[i]? = some ks) :
      ks.Nodup ∧ ∀ k, k ∈ ks ↔ home k = i ∧ k ∈ m := by
    have ⟨hl, he⟩ := List.getElem?_eq_some_iff.mp hi
    have hp := getElem?_eq_getElem (ho.length_eq ▸ hl)
    have hv := ho.get (ho.length_eq ▸ hl) hl
    simp only [get_eq_getElem, he] at hv
    exact ⟨hv.nodup, fun k => by rw [hv.mem_iff, h.mem_iff hp]⟩
  refine .of_nodup_mem (nodup_flatten.mpr ⟨fun ks hk => ?_, ?_⟩) fun k => ?_
  · have ⟨i, hi⟩ := mem_iff_getElem?.mp hk
    exact (hm hi).1
  · refine pairwise_iff_getElem.mpr fun i j hi hj hij k hk hk' => hij.ne ?_
    rw [← (((hm (getElem?_eq_getElem hi)).2 k).mp hk).1]
    exact (((hm (getElem?_eq_getElem hj)).2 k).mp hk').1
  · rw [mem_flatten]
    constructor
    case mp =>
      intro ⟨ks, hk, hks⟩
      have ⟨i, hi⟩ := mem_iff_getElem?.mp hk
      exact (((hm hi).2 k).mp hks).2
    case mpr =>
      intro hk
      have hl := ho.length_eq ▸ h.bound k hk
      have hi := getElem?_eq_getElem hl
      exact ⟨_, mem_of_getElem? hi, ((hm hi).2 k).mpr ⟨rfl, hk⟩⟩

end Shards
