import Myts.Tsm1.Theorems.TsmFile
import Myts.Tsm1.Theorems.Values

open List

namespace Tsm1

open Bytes Go

namespace IndirectIndex

variable {d : IndirectIndex} {fs : FixedSearch} {ps : List (Nat × IndexBlock)} {keys : List Bytes}

section Keys

theorem mem_dropWhile_lt (keys : List Bytes) {k x : Bytes} (h : x ≤ k) :
    k ∈ keys.dropWhile (· < x) ↔ k ∈ keys := by
  refine ⟨fun hk => (dropWhile_sublist _).subset hk, fun hk => ?_⟩
  rw [← takeWhile_append_dropWhile (p := (· < x)) (l := keys)] at hk
  rcases mem_append.mp hk with hk | hk
  · have hlt := mem_takeWhile_imp hk
    exact absurd (of_decide_eq_true hlt) h.not_gt
  · exact hk

theorem head?_dropWhile_lt {x : Bytes} (h : keys.Pairwise (· ≤ ·)) :
    (keys.dropWhile (· < x)).head? = some x ↔ x ∈ keys := by
  rw [← mem_dropWhile_lt keys le_rfl]
  have hs := h.sublist (dropWhile_sublist (· < x))
  have hn := head?_dropWhile_not (· < x) keys
  cases hd : keys.dropWhile (· < x)
  case nil => simp
  case cons y l =>
    rw [hd] at hs hn
    have hy : x ≤ y := by simpa using hn
    rw [head?_cons, Option.some.injEq, mem_cons]
    constructor
    case mp => exact fun h => .inl h.symm
    case mpr =>
      rintro (rfl | hx)
      · rfl
      · exact le_antisymm ((pairwise_cons.mp hs).1 x hx) hy

theorem filter_not_mem_congr {l l' : List Bytes} (h : ∀ p ∈ ps, p.2.key ∈ l ↔ p.2.key ∈ l') :
    ps.filter (·.2.key ∉ l) = ps.filter (·.2.key ∉ l') :=
  filter_congr fun p hp => decide_eq_decide.mpr (h p hp).not

theorem deleteLoop_eq (hb : ∀ p ∈ ps, p.2.At d.b p.1) (hs : d.b.length < 2 ^ 31)
    (hp : ps.Pairwise (·.2.key < ·.2.key)) (hk : keys.Pairwise (· ≤ ·)) (hf : ps.length ≤ fuel) :
    d.deleteLoop fuel (ps.flatMap fun p => putUint32 p.1) keys =
      .ok ((ps.filter (·.2.key ∉ keys)).flatMap fun p => putUint32 p.1) := by
  induction ps generalizing fuel keys
  case nil => cases fuel <;> rfl
  case cons p ps hi =>
    cases fuel
    case zero => nomatch hf
    case succ fuel =>
      have ⟨hlt, hp⟩ := pairwise_cons.mp hp
      have ⟨ha, hb⟩ := forall_mem_cons.mp hb
      have hf := Nat.le_of_succ_le_succ hf
      have hl := ha.le_length
      have hu : uint32 (putUint32 p.1) = p.1 := by
        rw [uint32_putUint32, Nat.mod_eq_of_lt (by omega)]
      have hlen : ¬(putUint32 p.1 ++ ps.flatMap fun p => putUint32 p.1).length < 4 := by simp
      have hd := hk.sublist (dropWhile_sublist (· < p.2.key))
      rw [flatMap_cons, deleteLoop, if_neg hlen, slice_append (length_putUint32 _), ok_bind]
      dsimp only
      rw [hu, ← bind_assoc, ha.readKey_eq, ok_bind]
      dsimp only
      split
      case isTrue hh =>
        have hm := (head?_dropWhile_lt hk).mp hh
        have ⟨l, hl⟩ := head?_eq_some_iff.mp hh
        have hq : ∀ q ∈ ps, q.2.key ∈ (keys.dropWhile (· < p.2.key)).tail ↔ q.2.key ∈ keys := by
          intro q hq
          have hne := (hlt q hq).ne'
          rw [← mem_dropWhile_lt keys (hlt q hq).le, hl, tail_cons, mem_cons,
            or_iff_right hne]
        rw [hi hb hp (hd.sublist (tail_sublist _)) hf, filter_cons_of_neg (by simpa),
          filter_not_mem_congr hq]
      case isFalse hh =>
        have hm := (head?_dropWhile_lt hk).not.mp hh
        have hq : ∀ q ∈ ps, q.2.key ∈ keys.dropWhile (· < p.2.key) ↔ q.2.key ∈ keys :=
          fun q hq => mem_dropWhile_lt keys (hlt q hq).le
        rw [hi hb hp hd hf, ok_bind, filter_cons_of_pos (by simpa), flatMap_cons,
          filter_not_mem_congr hq]
        rfl

theorem Represents.delete (h : d.Represents ps) (fs : FixedSearch) (keys : List Bytes) :
    ∃ offsets, d.delete fs keys = .ok { d with offsets } ∧
      Represents { d with offsets } (ps.filter (·.2.key ∉ keys)) := by
  by_cases hk : keys = []
  · refine ⟨d.offsets, by rw [IndirectIndex.delete, if_pos hk], ?_⟩
    simpa [hk] using h
  · have hf : ps.length ≤ d.offsets.length := by rw [h.length_offsets]; omega
    have hl := deleteLoop_eq h.blocks h.small h.sorted (fs.pairwise keys) hf
    simp only [(fs.perm keys).mem_iff] at hl
    rw [← h.offsets] at hl
    refine ⟨_, by rw [IndirectIndex.delete, if_neg hk]; dsimp only; rw [hl]; rfl, rfl, ?_, ?_, ?_⟩
    · exact fun p hp => h.blocks p <| mem_of_mem_filter hp
    · exact h.sorted.filter _
    · exact h.small

end Keys

section Covered

variable {ts : TimeRange} {newTs seen : List TimeRange} {w w' : Window}

def Hidden (ts : List TimeRange) (t : Int64) : Prop :=
  ∃ r ∈ ts, r.Contains t

theorem hidden_append {ts ts' : List TimeRange} :
    Hidden (ts ++ ts') t ↔ Hidden ts t ∨ Hidden ts' t := by
  simp [Hidden, or_and_right, exists_or]

theorem hidden_cons {l : List TimeRange} : Hidden (ts :: l) t ↔ ts.Contains t ∨ Hidden l t := by
  simp [Hidden]

theorem hidden_singleton : Hidden [ts] t ↔ ts.Contains t := by
  simp [Hidden]

theorem hidden_insertionSort : Hidden (newTs.insertionSort TimeRange.Less) t ↔ Hidden newTs t := by
  simp [Hidden]

theorem min_le_of_less {a b : TimeRange} (h : a.Less b) : a.min ≤ b.min := by
  rw [TimeRange.Less] at h
  split at h
  case isTrue he => exact he.le
  case isFalse => exact h.le

theorem pairwise_min_le (l : List TimeRange) :
    (l.insertionSort TimeRange.Less).Pairwise (·.min ≤ ·.min) := by
  have : Std.Total TimeRange.Less := ⟨fun a b => by
    simp only [TimeRange.Less, eq_comm (a := b.min)]
    split
    case isTrue => exact le_total _ _
    case isFalse hn => exact lt_or_gt_of_ne hn⟩
  have : IsTrans TimeRange TimeRange.Less := ⟨fun a b c hab hbc => by
    simp only [TimeRange.Less] at *
    split at hab <;> split at hbc <;> split <;> order⟩
  exact (pairwise_insertionSort TimeRange.Less l).imp min_le_of_less

structure Window.Covered (w : Window) (seen : List TimeRange) : Prop where
  hidden : ∀ t, w.minTs ≤ t → t ≤ w.maxTs → Hidden seen t
  prev : w.prevTs.max ≤ w.maxTs

theorem Window.Covered.grow (h : w.Covered seen) (hm : w.minTs ≤ ts.min)
    (hg : w.grow ts = some w') : w'.Covered (seen ++ [ts]) ∧ w'.minTs = w.minTs := by
  rw [Window.grow] at hg
  split at hg
  case isTrue => nomatch hg
  case isFalse hn =>
    cases hg
    have hadj : ∀ t, w.maxTs < t → ts.min ≤ t := by
      intro t ht
      by_cases ho : w.prevTs.Overlaps ts.min ts.max
      · exact ho.2.trans (h.prev.trans ht.le)
      · have he := not_not.mp (not_and_or.mp hn |>.resolve_right (not_not.mpr ho))
        exact Int64.le_of_sub_one_lt (he ▸ h.prev.trans_lt ht)
    refine ⟨⟨fun t h₁ h₂ => ?_, ?_⟩, if_neg hm.not_gt⟩
    · rw [hidden_append, hidden_singleton]
      rw [if_neg hm.not_gt] at h₁
      by_cases ht : t ≤ w.maxTs
      · exact .inl (h.hidden t h₁ ht)
      · have ht := not_le.mp ht
        dsimp only at h₂
        split at h₂
        case isTrue => exact .inr ⟨hadj t ht, h₂⟩
        case isFalse => exact absurd h₂ ht.not_ge
    · dsimp only
      split
      case isTrue => exact le_rfl
      case isFalse hl => exact not_lt.mp hl

theorem Window.Covered.foldlM {rest : List TimeRange} (h : w.Covered seen)
    (hm : ∀ r ∈ rest, w.minTs ≤ r.min) (hg : rest.foldlM (·.grow ·) w = some w') :
    w'.Covered (seen ++ rest) := by
  induction rest generalizing w seen
  case nil =>
    cases hg
    rwa [append_nil]
  case cons r rest hi =>
    rw [foldlM_cons, Option.bind_eq_bind, Option.bind_eq_some_iff] at hg
    have ⟨w₁, h₁, hg⟩ := hg
    have ⟨hc, he⟩ := h.grow (hm r mem_cons_self) h₁
    have := hi hc (fun r hr => he ▸ hm r (mem_cons_of_mem _ hr)) hg
    rwa [append_assoc] at this

theorem hidden_of_coveredBy {min max : Int64} (hs : newTs.Pairwise (·.min ≤ ·.min))
    (h : coveredBy newTs min max) (h₁ : min ≤ t) (h₂ : t ≤ max) : Hidden newTs t := by
  unfold coveredBy at h
  split at h
  case h_1 => nomatch h
  case h_2 ts rest =>
    split at h
    case h_1 => nomatch h
    case h_2 w hw =>
      have hc : Window.Covered { minTs := ts.min, maxTs := ts.max, prevTs := ts } [ts] :=
        ⟨fun t h₁ h₂ => hidden_singleton.mpr ⟨h₁, h₂⟩, le_rfl⟩
      have ⟨hmin, hmax⟩ := of_decide_eq_true h
      exact (hc.foldlM (pairwise_cons.mp hs).1 hw).hidden t (hmin.trans h₁) (h₂.trans hmax)

end Covered

def Within (x : IndexBlock) (t : Int64) : Prop :=
  (∃ e ∈ x.entries.head?, e.minTime ≤ t) ∧ ∃ e ∈ x.entries.getLast?, t ≤ e.maxTime

structure Left (ps₀ : List (Nat × IndexBlock)) (del : Bytes → Int64 → Prop) (d : IndirectIndex)
    (ps : List (Nat × IndexBlock)) : Prop where
  represents : d.Represents ps
  subset : ps ⊆ ps₀
  spans : ∀ p ∈ ps₀, d.Spans p.2
  left : ∀ p ∈ ps, ∀ t, Within p.2 t →
    (Hidden ((d.tombstones.lookup p.2.key).getD []) t ↔ del p.2.key t)
  gone : ∀ p ∈ ps₀, p ∉ ps → ∀ t, Within p.2 t → del p.2.key t

namespace Left

variable {ps₀ : List (Nat × IndexBlock)} {del del' : Bytes → Int64 → Prop}

theorem congr (h : Left ps₀ del d ps)
    (hd : ∀ p ∈ ps₀, ∀ t, Within p.2 t → (del p.2.key t ↔ del' p.2.key t)) :
    Left ps₀ del' d ps where
  represents := h.represents
  subset := h.subset
  spans := h.spans
  left p hp t ht := (h.left p hp t ht).trans (hd p (h.subset hp) t ht)
  gone p hp hn t ht := (hd p hp t ht).mp (h.gone p hp hn t ht)

theorem delete (h : Left ps₀ del d ps) (fs : FixedSearch) (keys : List Bytes) :
    ∃ d', d.delete fs keys = .ok d' ∧
      Left ps₀ (fun k t => del k t ∨ k ∈ keys) d' (ps.filter (·.2.key ∉ keys)) := by
  have ⟨offsets, hd, hr⟩ := h.represents.delete fs keys
  refine ⟨_, hd, hr, fun p hp => h.subset <| mem_of_mem_filter hp, ?_, ?_, ?_⟩
  · intro p hp
    have hs := h.spans p hp
    exact ⟨hs.minKey, hs.maxKey, hs.minTime, hs.maxTime⟩
  · intro p hp t ht
    have ⟨hp, hk⟩ := mem_filter.mp hp
    rw [or_iff_left (of_decide_eq_true hk)]
    exact h.left p hp t ht
  · intro p hp hn t ht
    by_cases hk : p.2.key ∈ keys
    · exact .inr hk
    · exact .inl <| h.gone p hp (fun hp => hn <| mem_filter.mpr ⟨hp, by simpa⟩) t ht

end Left

section Range

variable {r : TimeRange} {x : Deletes} {done : List Bytes} {ps₀ : List (Nat × IndexBlock)}
  {del : Bytes → Int64 → Prop}

structure Deletes.Found (d : IndirectIndex) (ps : List (Nat × IndexBlock)) (r : TimeRange)
    (done : List Bytes) (x : Deletes) : Prop where
  keys : x.fullKeys ⊆ done
  full : ∀ p ∈ ps, p.2.key ∈ x.fullKeys → ∀ t, Within p.2 t →
    Hidden ((d.tombstones.lookup p.2.key).getD []) t ∨ r.Contains t
  tombstones : ∀ k ts, x.tombstones.lookup k = some ts → k ∈ done ∧
    ∀ t, Hidden ts t ↔ Hidden ((d.tombstones.lookup k).getD []) t ∨ r.Contains t
  none : ∀ p ∈ ps, p.2.key ∈ done → p.2.key ∉ x.fullKeys →
    x.tombstones.lookup p.2.key = none → ∀ t, Within p.2 t → ¬r.Contains t

namespace Deletes.Found

theorem nil : Found d ps r [] { fullKeys := [], tombstones := ∅ } where
  keys := nofun
  full := nofun
  tombstones := nofun
  none := nofun

theorem of_mem_iff (h : x.Found d ps r done) (hd : ∀ k, k ∈ done ↔ k ∈ done') :
    x.Found d ps r done' where
  keys _ hk := (hd _).mp (h.keys hk)
  full := h.full
  tombstones k ts hl := ⟨(hd k).mp (h.tombstones k ts hl).1, (h.tombstones k ts hl).2⟩
  none p hp hk := h.none p hp ((hd _).mpr hk)

theorem skip (h : x.Found d ps r done)
    (hk : ∀ p ∈ ps, p.2.key = k → ∀ t, Within p.2 t → ¬r.Contains t) :
    x.Found d ps r (done ++ [k]) where
  keys := fun k hk => mem_append_left _ (h.keys hk)
  full := h.full
  tombstones k ts hl := ⟨mem_append_left _ (h.tombstones k ts hl).1, (h.tombstones k ts hl).2⟩
  none p hp hd hf hl := by
    rcases mem_append.mp hd with hd | hd
    · exact h.none p hp hd hf hl
    · exact hk p hp (mem_singleton.mp hd)

theorem fullKey (h : x.Found d ps r done)
    (hk : ∀ p ∈ ps, p.2.key = k → ∀ t, Within p.2 t →
      Hidden ((d.tombstones.lookup k).getD []) t ∨ r.Contains t) :
    Found d ps r (done ++ [k]) { x with fullKeys := x.fullKeys ++ [k] } where
  keys := append_subset.mpr ⟨fun k hk => mem_append_left _ (h.keys hk), by simp⟩
  full p hp hf := by
    rcases mem_append.mp hf with hf | hf
    · exact h.full p hp hf
    · have he := mem_singleton.mp hf
      rw [he]
      exact hk p hp he
  tombstones k ts hl := ⟨mem_append_left _ (h.tombstones k ts hl).1, (h.tombstones k ts hl).2⟩
  none p hp hd hf hl := by
    have hf := not_or.mp (mem_append.not.mp hf)
    exact h.none p hp (mem_append.mp hd |>.resolve_right hf.2) hf.1 hl

theorem insert (h : x.Found d ps r done)
    (hts : ∀ t, Hidden ts t ↔ Hidden ((d.tombstones.lookup k).getD []) t ∨ r.Contains t) :
    Found d ps r (done ++ [k]) { x with tombstones := x.tombstones.insert k ts } where
  keys := fun k hk => mem_append_left _ (h.keys hk)
  full := h.full
  tombstones k' ts' hl := by
    by_cases he : k' = k
    · subst he
      rw [Finmap.lookup_insert] at hl
      cases hl
      exact ⟨by simp, hts⟩
    · rw [Finmap.lookup_insert_of_ne _ he] at hl
      exact ⟨mem_append_left _ (h.tombstones k' ts' hl).1, (h.tombstones k' ts' hl).2⟩
  none p hp hd hf hl := by
    by_cases he : p.2.key = k
    · subst he
      rw [Finmap.lookup_insert] at hl
      nomatch hl
    · rw [Finmap.lookup_insert_of_ne _ he] at hl
      have hd := mem_append.mp hd |>.resolve_right (by simpa using he)
      exact h.none p hp hd hf hl

end Deletes.Found

theorem Represents.entries_cases (h : d.Represents ps) (fs : FixedSearch) (k : Bytes) :
    (∃ p ∈ ps, p.2.key = k ∧ d.entries fs k = .ok p.2.entries) ∨
      (∀ p ∈ ps, p.2.key ≠ k) ∧ d.entries fs k = .ok [] := by
  by_cases hk : ∃ p ∈ ps, p.2.key = k
  · have ⟨p, hp, he⟩ := hk
    subst he
    exact .inl ⟨p, hp, rfl, h.entries_of_mem fs hp⟩
  · have hn : ∀ p ∈ ps, p.2.key ≠ k := fun p hp he => hk ⟨p, hp, he⟩
    exact .inr ⟨hn, h.entries_of_forall_ne hn⟩

theorem Represents.eq_of_key_eq (h : d.Represents ps) (hp : p ∈ ps) (hq : q ∈ ps)
    (he : p.2.key = q.2.key) : p = q := by
  have hn : (ps.map (·.2.key)).Nodup := pairwise_map.mpr <| h.sorted.imp fun hlt => hlt.ne
  exact inj_on_of_nodup_map hn hp hq he

theorem Deletes.Found.deleteRangeKey (h : x.Found d ps r done) (hr : d.Represents ps)
    (fs : FixedSearch) (k : Bytes) : ∃ x', d.deleteRangeKey fs r.min r.max x k = .ok x' ∧
      x'.Found d ps r (done ++ [k]) := by
  rcases hr.entries_cases fs k with ⟨p, hp, hk, he⟩ | ⟨hn, he⟩
  case inr =>
    refine ⟨x, ?_, h.skip fun p hp hk => absurd hk (hn p hp)⟩
    rw [IndirectIndex.deleteRangeKey, he, ok_bind]
    rfl
  case inl =>
    have hu q (hq : q ∈ ps) (hqk : q.2.key = k) : q = p := hr.eq_of_key_eq hq hp (hqk.trans hk.symm)
    rw [IndirectIndex.deleteRangeKey, he, ok_bind]
    split
    case h_2 hn =>
      refine ⟨x, rfl, h.skip fun q hq hqk t ht => ?_⟩
      have ⟨⟨e₁, h₁, _⟩, e₂, h₂, _⟩ := hu q hq hqk ▸ ht
      exact absurd h₂ (hn _ _ h₁)
    case h_1 first last hf hl =>
      have hw q (hq : q ∈ ps) (hqk : q.2.key = k) t (ht : Within q.2 t) :
          first.minTime ≤ t ∧ t ≤ last.maxTime := by
        have ⟨⟨e₁, h₁, ht₁⟩, e₂, h₂, ht₂⟩ := hu q hq hqk ▸ ht
        cases hf.symm.trans h₁
        cases hl.symm.trans h₂
        exact ⟨ht₁, ht₂⟩
      dsimp only
      split
      case isTrue hout =>
        refine ⟨x, rfl, h.skip fun q hq hqk t ht hc => ?_⟩
        have ⟨h₁, h₂⟩ := hw q hq hqk t ht
        rcases hout with hout | hout
        · exact absurd (hc.1.trans h₂) hout.not_ge
        · exact absurd (h₁.trans hc.2) hout.not_ge
      case isFalse =>
        split
        case isTrue hin =>
          refine ⟨_, rfl, h.fullKey fun q hq hqk t ht => .inr ?_⟩
          have ⟨h₁, h₂⟩ := hw q hq hqk t ht
          exact ⟨hin.1.trans h₁, h₂.trans hin.2⟩
        case isFalse =>
          generalize hts : (_ ++ (_ ++ [TimeRange.mk r.min r.max])).insertionSort
            TimeRange.Less = newTs
          have hh t : Hidden newTs t ↔
              Hidden ((d.tombstones.lookup k).getD []) t ∨ r.Contains t := by
            rw [← hts, hidden_insertionSort, hidden_append, hidden_append, hidden_singleton]
            cases hx : x.tombstones.lookup k
            case none => simp [Hidden]
            case some ts => simp [(h.tombstones k ts hx).2 t]
          have hs : newTs.Pairwise (·.min ≤ ·.min) := hts ▸ pairwise_min_le _
          split
          case isFalse => exact ⟨_, rfl, h.insert hh⟩
          case isTrue hc =>
            refine ⟨_, rfl, ((h.insert hh).fullKey fun q hq hqk t ht => ?_).of_mem_iff (by simp)⟩
            have ⟨h₁, h₂⟩ := hw q hq hqk t ht
            exact (hh t).mp <| hidden_of_coveredBy hs hc h₁ h₂

theorem Deletes.Found.foldlM (h : x.Found d ps r done) (hr : d.Represents ps)
    (fs : FixedSearch) (keys : List Bytes) :
    ∃ x', keys.foldlM (d.deleteRangeKey fs r.min r.max) x = .ok x' ∧
      x'.Found d ps r (done ++ keys) := by
  induction keys generalizing x done
  case nil => exact ⟨x, rfl, by rwa [append_nil]⟩
  case cons k keys hi =>
    have ⟨x₁, hx₁, h₁⟩ := h.deleteRangeKey hr fs k
    have ⟨x', hx', h'⟩ := hi h₁
    rw [append_assoc] at h'
    exact ⟨x', by rw [foldlM_cons, hx₁, ok_bind, hx'], h'⟩

theorem Left.deleteRange (h : Left ps₀ del d ps) (fs : FixedSearch) (keys : List Bytes)
    (min max : Int64) :
    ∃ d' ps', d.deleteRange fs keys min max = .ok d' ∧
      Left ps₀ (fun k t => del k t ∨ k ∈ keys ∧ min ≤ t ∧ t ≤ max) d' ps' := by
  by_cases hk : keys = []
  case pos =>
    refine ⟨d, ps, by rw [IndirectIndex.deleteRange, if_pos hk], h.congr fun p _ t _ => ?_⟩
    simp [hk]
  rw [IndirectIndex.deleteRange, if_neg hk]
  split
  case isTrue hall =>
    have ⟨d', hd, hl⟩ := h.delete fs keys
    refine ⟨d', _, hd, hl.congr fun p _ t _ => ?_⟩
    rw [hall.1, hall.2]
    simp [Int64.minValue_le, Int64.le_maxValue]
  case isFalse =>
    split
    case isTrue hout =>
      refine ⟨d, ps, rfl, h.congr fun p hp t ht => (or_iff_left ?_).symm⟩
      rintro ⟨_, h₁, h₂⟩
      have ⟨⟨e₁, he₁, ht₁⟩, e₂, he₂, ht₂⟩ := ht
      rcases hout with hout | hout
      · exact absurd (h₁.trans <| ht₂.trans <| (h.spans p hp).maxTime e₂ he₂) hout.not_ge
      · exact absurd ((h.spans p hp).minTime e₁ he₁ |>.trans <| ht₁.trans h₂) hout.not_ge
    case isFalse =>
      have ⟨x, hx, hf⟩ := Deletes.Found.nil (r := ⟨min, max⟩) |>.foldlM h.represents fs keys
      have ⟨offsets, hd, hr⟩ := h.represents.delete fs x.fullKeys
      rw [nil_append] at hf
      rw [hx, ok_bind, hd, ok_bind]
      refine ⟨_, _, rfl, ⟨hr.offsets, hr.blocks, hr.sorted, hr.small⟩,
        fun p hp => h.subset <| mem_of_mem_filter hp, ?_, ?_, ?_⟩
      · intro p hp
        have hs := h.spans p hp
        exact ⟨hs.minKey, hs.maxKey, hs.minTime, hs.maxTime⟩
      · intro p hp t ht
        have ⟨hp, hn⟩ := mem_filter.mp hp
        have hn := of_decide_eq_true hn
        dsimp only
        cases hx : x.tombstones.lookup p.2.key
        case some ts =>
          have ⟨hk, hh⟩ := hf.tombstones _ ts hx
          rw [Finmap.lookup_union_left (Finmap.mem_of_lookup_eq_some hx), hx, Option.getD_some, hh,
            h.left p hp t ht, and_iff_right hk]
          rfl
        case none =>
          rw [Finmap.lookup_union_right (Finmap.lookup_eq_none.mp hx), h.left p hp t ht]
          refine (or_iff_left ?_).symm
          rintro ⟨hk, hc⟩
          exact hf.none p hp hk hn hx t ht hc
      · intro p hp hn t ht
        by_cases hp' : p ∈ ps
        · have hk : p.2.key ∈ x.fullKeys := by
            by_contra hk
            exact hn <| mem_filter.mpr ⟨hp', by simpa⟩
          exact (hf.full p hp' hk t ht).imp (h.left p hp' t ht).mp fun hc => ⟨hf.keys hk, hc⟩
        · exact .inl (h.gone p hp hp' t ht)

end Range

instance (ts : List TimeRange) (t : Int64) : Decidable (Hidden ts t) :=
  inferInstanceAs (Decidable (∃ r ∈ ts, _))

end IndirectIndex

open IndirectIndex (Hidden Within Left)

def Tombstone.Deletes (x : Tombstone) (k : Bytes) (t : Int64) : Prop :=
  x.key = k ∧ x.min ≤ t ∧ t ≤ x.max

theorem Placed.within_entry (p : Placed) (h : p.values.Ascending) (hv : v ∈ p.values) :
    p.entry.minTime ≤ v.1 ∧ v.1 ≤ p.entry.maxTime := by
  have hn := List.ne_nil_of_mem hv
  have ⟨a, ha⟩ : ∃ a, p.values.head? = some a := ⟨_, head?_eq_some_head hn⟩
  have ⟨b, hb⟩ : ∃ b, p.values.getLast? = some b := ⟨_, getLast?_eq_some_getLast hn⟩
  simp only [entry, ha, hb, Option.map_some, Option.getD_some]
  exact ⟨Values.head_le h ha hv, Values.le_getLast h hb hv⟩

theorem Placed.exists_minTime (p : Placed) (h : p.values ≠ []) :
    ∃ a ∈ p.values, p.entry.minTime = a.1 := by
  have ⟨a, ha⟩ : ∃ a, p.values.head? = some a := ⟨_, head?_eq_some_head h⟩
  exact ⟨a, mem_of_mem_head? ha, by simp [entry, ha]⟩

theorem Placed.exists_maxTime (p : Placed) (h : p.values ≠ []) :
    ∃ a ∈ p.values, p.entry.maxTime = a.1 := by
  have ⟨a, ha⟩ : ∃ a, p.values.getLast? = some a := ⟨_, getLast?_eq_some_getLast h⟩
  exact ⟨a, mem_of_mem_getLast? ha, by simp [entry, ha]⟩

namespace TSMReader

variable {codec : BlockCodec} {fs : FixedSearch} {ps₀ : List (Nat × IndexBlock)}
  {del : Bytes → Int64 → Prop} {file : Bytes}

section Replay

variable {x : Batch} {done tombstones : List Tombstone}

def Batch.Applied (ps₀ : List (Nat × IndexBlock)) (done : List Tombstone) (x : Batch) : Prop :=
  ∃ del ps, Left ps₀ del x.index ps ∧ ∀ k t,
    (del k t ∨ k ∈ x.batch ∧ x.prev.min ≤ t ∧ t ≤ x.prev.max) ↔ ∃ ts ∈ done, ts.Deletes k t

theorem Batch.Applied.delete (h : x.Applied ps₀ done) (fs : FixedSearch) :
    ∃ x', x.delete fs = .ok x' ∧ x'.batch = [] ∧ x'.Applied ps₀ done := by
  have ⟨del, ps, hl, hd⟩ := h
  have ⟨d', ps', hd', hl'⟩ := hl.deleteRange fs x.batch x.prev.min x.prev.max
  refine ⟨_, by rw [Batch.delete, hd']; rfl, rfl, _, ps', hl', fun k t => ?_⟩
  rw [← hd k t]
  simp

theorem Batch.Applied.add (h : x.Applied ps₀ done) (fs : FixedSearch) (ts : Tombstone) :
    ∃ x', x.add fs ts = .ok x' ∧ x'.Applied ps₀ (done ++ [ts]) := by
  have ⟨x₁, h₁, hb, ha⟩ : ∃ x₁,
      x.deleteIf fs (x.batch ≠ [] ∧ (x.prev.min ≠ ts.min ∨ x.prev.max ≠ ts.max)) = .ok x₁ ∧
      (x₁.batch ≠ [] → x₁.prev.min = ts.min ∧ x₁.prev.max = ts.max) ∧
        x₁.Applied ps₀ done := by
    rw [Batch.deleteIf]
    split
    case isTrue =>
      have ⟨x', hx, hb, ha⟩ := h.delete fs
      exact ⟨x', hx, fun hn => absurd hb hn, ha⟩
    case isFalse hn =>
      exact ⟨x, rfl, fun hb => by simpa [hb] using hn, h⟩
  have ⟨del, ps, hl, hd⟩ := ha
  have hd' k t : (del k t ∨ k ∈ x₁.batch ++ [ts.key] ∧ ts.min ≤ t ∧ t ≤ ts.max) ↔
      ∃ ts' ∈ done ++ [ts], ts'.Deletes k t := by
    have he : (k ∈ x₁.batch ∧ ts.min ≤ t ∧ t ≤ ts.max) ↔
        k ∈ x₁.batch ∧ x₁.prev.min ≤ t ∧ t ≤ x₁.prev.max :=
      and_congr_right fun hk => by
        have ⟨h₁, h₂⟩ := hb (List.ne_nil_of_mem hk)
        rw [h₁, h₂]
    rw [mem_append, or_and_right, he, ← or_assoc, hd]
    simp [or_and_right, exists_or, Tombstone.Deletes, eq_comm]
  rw [Batch.add, h₁, ok_bind]
  dsimp only
  rw [Batch.deleteIf]
  split
  case isFalse => exact ⟨_, rfl, del, ps, hl, hd'⟩
  case isTrue hlen =>
    have hne : x₁.batch ≠ [] := fun hn => by simp [hn] at hlen
    have ⟨hmin, hmax⟩ := hb hne
    have hx : Batch.Applied ps₀ (done ++ [ts]) { x₁ with batch := x₁.batch ++ [ts.key] } :=
      ⟨del, ps, hl, fun k t => by dsimp only; rw [hmin, hmax, hd']⟩
    have ⟨x', hx', hb', del', ps', hl', hd''⟩ := hx.delete fs
    refine ⟨{ x' with prev := ts }, by rw [hx']; rfl, del', ps', hl', fun k t => ?_⟩
    rw [← hd'' k t]
    simp [hb']

theorem Batch.Applied.foldlM (h : x.Applied ps₀ done) (fs : FixedSearch)
    (tombstones : List Tombstone) :
    ∃ x', tombstones.foldlM (Batch.add fs) x = .ok x' ∧ x'.Applied ps₀ (done ++ tombstones) := by
  induction tombstones generalizing x done
  case nil => exact ⟨x, rfl, by rwa [append_nil]⟩
  case cons ts tombstones hi =>
    have ⟨x₁, hx₁, h₁⟩ := h.add fs ts
    have ⟨x', hx', h'⟩ := hi h₁
    rw [append_assoc] at h'
    exact ⟨x', by rw [foldlM_cons, hx₁, ok_bind, hx'], h'⟩

theorem applyTombstones_eq (h : Left ps₀ (fun _ _ => False) d ps) (fs : FixedSearch)
    (tombstones : List Tombstone) :
    ∃ d' ps', applyTombstones fs d tombstones = .ok d' ∧
      Left ps₀ (fun k t => ∃ ts ∈ tombstones, ts.Deletes k t) d' ps' := by
  have h₀ : Batch.Applied ps₀ [] ⟨d, [], ⟨[], 0, 0⟩⟩ := ⟨_, ps, h, by simp⟩
  have ⟨x, hx, ha⟩ := h₀.foldlM fs tombstones
  have ⟨x', hx', hb, del, ps', hl, hd⟩ := ha.delete fs
  refine ⟨x'.index, ps', ?_, hl.congr fun p _ t _ => ?_⟩
  · rw [applyTombstones, hx, ok_bind, hx']
    rfl
  · have hd := hd p.2.key t
    simpa [hb] using hd

end Replay

section Calls

variable {r : TSMReader} {keys : List Bytes}

theorem head_le_of_pairwise {k x : Bytes} (h : keys.Pairwise (· ≤ ·)) (hx : keys.head? = some x)
    (hk : k ∈ keys) : x ≤ k := by
  have ⟨l, hl⟩ := head?_eq_some_iff.mp hx
  subst hl
  rcases mem_cons.mp hk with rfl | hk
  · exact le_rfl
  · exact (pairwise_cons.mp h).1 k hk

theorem le_getLast_of_pairwise {k x : Bytes} (h : keys.Pairwise (· ≤ ·))
    (hx : keys.getLast? = some x) (hk : k ∈ keys) : k ≤ x := by
  have ⟨l, hl⟩ := getLast?_eq_some_iff.mp hx
  subst hl
  rcases mem_append.mp hk with hk | hk
  · exact (pairwise_append.mp h).2.2 k hk x (mem_singleton_self x)
  · exact (mem_singleton.mp hk).le

structure Deleted (file : Bytes) (ps₀ : List (Nat × IndexBlock)) (del : Bytes → Int64 → Prop)
    (r : TSMReader) : Prop where
  b : r.b = file
  index : ∃ ps, Left ps₀ del r.index ps
  tombstones : ∀ p ∈ ps₀, ∀ t, Within p.2 t →
    ((∃ ts ∈ r.tombstones, ts.Deletes p.2.key t) ↔ del p.2.key t)

namespace Deleted

variable (h : r.Deleted file ps₀ del)

include h

theorem congr {del' : Bytes → Int64 → Prop}
    (hd : ∀ p ∈ ps₀, ∀ t, Within p.2 t → (del p.2.key t ↔ del' p.2.key t)) :
    r.Deleted file ps₀ del' where
  b := h.b
  index := h.index.imp fun _ hl => hl.congr hd
  tombstones p hp t ht := (h.tombstones p hp t ht).trans (hd p hp t ht)

theorem tombstones_addRange (hp : p ∈ ps₀) (ht : Within p.2 t) (keys : List Bytes)
    (min max : Int64) :
    (∃ ts ∈ (r.addRange keys min max).tombstones, ts.Deletes p.2.key t) ↔
      del p.2.key t ∨ p.2.key ∈ keys ∧ min ≤ t ∧ t ≤ max := by
  rw [← h.tombstones p hp t ht]
  simp [addRange, or_and_right, exists_or, Tombstone.Deletes]

theorem delete (fs : FixedSearch) (keys : List Bytes) : ∃ r', r.delete fs keys = .ok r' ∧
    r'.Deleted file ps₀ fun k t => del k t ∨ (Call.delete keys).Deletes k t := by
  have ⟨ps, hl⟩ := h.index
  have ⟨d, hd, hl⟩ := hl.delete fs keys
  have hc k t : k ∈ keys ↔ (Call.delete keys).Deletes k t := by
    simp [Call.Deletes, Call.keys, Call.range, TimeRange.Contains, Int64.minValue_le,
      Int64.le_maxValue]
  refine ⟨{ r.addRange keys .minValue .maxValue with index := d }, ?_, h.b,
    ⟨_, hl.congr fun p _ t _ => ?_⟩, fun p hp t ht => h.tombstones_addRange hp ht keys ..⟩
  · rw [TSMReader.delete, hd]
    rfl
  · rw [hc]

theorem deleteRange (fs : FixedSearch) {keys : List Bytes} (hk : keys.Pairwise (· ≤ ·))
    (min max : Int64) : ∃ r', r.deleteRange fs keys min max = .ok r' ∧
      r'.Deleted file ps₀ fun k t => del k t ∨ (Call.deleteRange keys min max).Deletes k t := by
  have ⟨ps, hl⟩ := h.index
  have hskip (hn : ∀ p ∈ ps₀, ∀ t, Within p.2 t → ¬(p.2.key ∈ keys ∧ min ≤ t ∧ t ≤ max)) :
      r.Deleted file ps₀ fun k t => del k t ∨ (Call.deleteRange keys min max).Deletes k t :=
    h.congr fun p hp t ht => (or_iff_left (hn p hp t ht)).symm
  unfold TSMReader.deleteRange
  split
  case h_2 hn =>
    have he : keys = [] := by
      cases keys
      case nil => rfl
      case cons k keys =>
        exact absurd (getLast?_eq_some_getLast (cons_ne_nil k keys)) (hn _ _ rfl)
    exact ⟨r, rfl, hskip fun p _ t _ => by simp [he]⟩
  case h_1 minKey maxKey hf hg =>
    split
    case isTrue =>
      have ⟨d, ps', hd, hl⟩ := hl.deleteRange fs keys min max
      refine ⟨{ r.addRange keys min max with index := d }, by rw [hd]; rfl, h.b, ⟨_, hl⟩,
        fun p hp t ht => h.tombstones_addRange hp ht keys min max⟩
    case isFalse hn =>
      refine ⟨r, rfl, hskip fun p hp t ht => ?_⟩
      rintro ⟨hm, h₁, h₂⟩
      have hs := hl.spans p hp
      have ⟨⟨e₁, he₁, ht₁⟩, e₂, he₂, ht₂⟩ := ht
      refine hn ⟨⟨?_, ?_⟩, ?_, ?_⟩
      · exact hs.minKey.trans (le_getLast_of_pairwise hk hg hm)
      · exact (head_le_of_pairwise hk hf hm).trans hs.maxKey
      · exact (hs.minTime e₁ he₁).trans (ht₁.trans h₂)
      · exact h₁.trans (ht₂.trans (hs.maxTime e₂ he₂))

theorem call (fs : FixedSearch) (c : Call) (hc : c.keys.Pairwise (· ≤ ·)) :
    ∃ r', r.call fs c = .ok r' ∧ r'.Deleted file ps₀ fun k t => del k t ∨ c.Deletes k t := by
  cases c
  case delete keys => exact h.delete fs keys
  case deleteRange keys min max => exact h.deleteRange fs hc min max

theorem calls (fs : FixedSearch) (calls : List Call)
    (hc : ∀ c ∈ calls, c.keys.Pairwise (· ≤ ·)) :
    ∃ r', calls.foldlM (·.call fs ·) r = .ok r' ∧
      r'.Deleted file ps₀ fun k t => del k t ∨ ∃ c ∈ calls, c.Deletes k t := by
  induction calls generalizing r del
  case nil => exact ⟨r, rfl, h.congr fun p _ t _ => by simp⟩
  case cons c calls hi =>
    have ⟨hc, hcs⟩ := forall_mem_cons.mp hc
    have ⟨r₁, h₁, hd⟩ := h.call fs c hc
    have ⟨r', h', hd⟩ := hi hd hcs
    refine ⟨r', by rw [foldlM_cons, h₁, ok_bind, h'], hd.congr fun p _ t _ => ?_⟩
    simp [or_assoc]

end Deleted

end Calls

section ReadAll

variable {r : TSMReader} {tombstones : List TimeRange} {values : Values}

theorem foldl_exclude (h : values.Ascending) :
    tombstones.foldl (fun values t => Values.exclude values t.min t.max) values =
      values.filter fun v => ¬Hidden tombstones v.1 := by
  induction tombstones generalizing values
  case nil => simp [Hidden]
  case cons ts tombstones hi =>
    rw [foldl_cons, Values.exclude_eq h, hi (h.filter _), filter_filter]
    refine filter_congr fun v _ => ?_
    rw [← Bool.decide_and, decide_eq_decide, IndirectIndex.hidden_cons, not_or, and_comm]
    rfl

theorem readUndeleted_eq {block : IndexEntry} (hr : r.readBlock codec block = .ok values)
    (h : values.Ascending) (hb : ∀ v ∈ values, block.minTime ≤ v.1 ∧ v.1 ≤ block.maxTime) :
    r.readUndeleted codec tombstones block =
      .ok (values.filter fun v => ¬Hidden tombstones v.1) := by
  rw [readUndeleted]
  split
  case isTrue hc =>
    obtain ⟨ts, hts, h₁, h₂⟩ := hc
    have hn : values.filter (fun v => ¬Hidden tombstones v.1) = [] := by
      rw [filter_eq_nil_iff]
      intro v hv
      obtain ⟨hb₁, hb₂⟩ := hb v hv
      have hh : Hidden tombstones v.1 := ⟨ts, hts, h₁.trans hb₁, hb₂.trans h₂⟩
      simpa using hh
    rw [hn]
  case isFalse =>
    rw [hr, ok_bind, foldl_exclude h]
    rfl

theorem readAll_eq_filter {qs : List Placed} (he : r.index.entries fs k = .ok (qs.map (·.entry)))
    (hq : ∀ p ∈ qs, r.readBlock codec p.entry = .ok p.values ∧ p.values.Ascending) :
    r.readAll codec fs k = .ok ((qs.flatMap (·.values)).filter fun v =>
      ¬Hidden ((r.index.tombstones.lookup k).getD []) v.1) := by
  have hr : (qs.map (·.entry)).mapM
      (r.readUndeleted codec ((r.index.tombstones.lookup k).getD [])) =
        .ok (qs.map fun p => p.values.filter fun v =>
          ¬Hidden ((r.index.tombstones.lookup k).getD []) v.1) := by
    rw [mapM_map]
    refine mapM_eq_ok fun p hp => ?_
    have ⟨hb, ha⟩ := hq p hp
    exact readUndeleted_eq hb ha fun v hv => p.within_entry ha hv
  rw [readAll, he, ok_bind]
  dsimp only
  rw [hr, ok_bind, ← flatMap_def, filter_flatMap]
  rfl

end ReadAll

end TSMReader

section Written

variable {codec : BlockCodec} {fs : FixedSearch} {ws : List (Bytes × Values)} {file : Bytes}
  {keys : List Bytes} {d : IndirectIndex} {r : TSMReader} {del : Bytes → Int64 → Prop}

def written (ws : List (Bytes × Values)) (k : Bytes) : Values :=
  (ws.filter (·.1 = k)).flatMap (·.2)

abbrev indexOf (codec : BlockCodec) (ws : List (Bytes × Values)) (keys : List Bytes) :
    List (Nat × IndexBlock) :=
  IndirectIndex.place 0 (keys.map (blockOf (layout codec ws)))

theorem eq_blockOf (hp : p ∈ indexOf codec ws keys) : p.2 = blockOf (layout codec ws) p.2.key := by
  have hm := mem_map_of_mem (f := (·.2)) hp
  rw [IndirectIndex.map_snd_place] at hm
  have ⟨k, _, hk⟩ := mem_map.mp hm
  rw [← hk, key_blockOf]

theorem Writable.ascending_layout (h : Writable ws) (hp : p ∈ layout codec ws) :
    p.values.Ascending := by
  have hs : ((layout codec ws).map fun p => (p.key, p.values)).Sublist ws := map_foldl_sublist
  exact h.ascending _ <| hs.subset <| mem_map_of_mem hp

theorem Writable.pairwise_values (h : Writable ws) :
    ((layout codec ws).filter (·.key = k)).Pairwise fun p q =>
      ∀ a ∈ p.values, ∀ b ∈ q.values, a.1 < b.1 := by
  have hs : ((layout codec ws).map fun p => (p.key, p.values)).Sublist ws := map_foldl_sublist
  have hp := pairwise_map.mp <| h.blocks.sublist hs
  refine (hp.filter _).imp_of_mem fun {p q} hp hq hpq => hpq ?_
  have hp := of_decide_eq_true (mem_filter.mp hp).2
  have hq := of_decide_eq_true (mem_filter.mp hq).2
  exact hp.trans hq.symm

theorem Writable.within_blockOf (h : Writable ws)
    (hv : v ∈ ((layout codec ws).filter (·.key = k)).flatMap (·.values)) :
    Within (blockOf (layout codec ws) k) v.1 := by
  have hl : ∀ p ∈ layout codec ws, p.Laid codec (layout codec ws) :=
    laid_foldl (by simp)
  have hw : ((layout codec ws).filter (·.key = k)).Pairwise fun p q =>
      ∀ a ∈ p.values, ∀ b ∈ q.values, a.1 < b.1 := h.pairwise_values
  have hq q (hq : q ∈ (layout codec ws).filter (·.key = k)) :
      q.values.Ascending ∧ q.values ≠ [] :=
    ⟨h.ascending_layout (mem_of_mem_filter hq), (hl q <| mem_of_mem_filter hq).ne_nil⟩
  obtain ⟨p, hp, hvp⟩ := mem_flatMap.mp hv
  rw [Within, blockOf]
  dsimp only
  generalize (layout codec ws).filter (·.key = k) = qs at hp hw hq
  have hn := List.ne_nil_of_mem hp
  constructor
  case left =>
    obtain ⟨q, l, hqs⟩ := exists_cons_of_ne_nil hn
    subst hqs
    refine ⟨q.entry, rfl, ?_⟩
    rcases mem_cons.mp hp with rfl | hpl
    · exact (p.within_entry (hq p hp).1 hvp).1
    · obtain ⟨a, ha, he⟩ := q.exists_minTime (hq q mem_cons_self).2
      exact he ▸ ((pairwise_cons.mp hw).1 p hpl a ha v hvp).le
  case right =>
    obtain ⟨l, q, hqs⟩ := (eq_nil_or_concat' qs).resolve_left hn
    subst hqs
    refine ⟨q.entry, by simp, ?_⟩
    rcases mem_append.mp hp with hpl | hpl
    · obtain ⟨a, ha, he⟩ := q.exists_maxTime (hq q (by simp)).2
      have hpq := (pairwise_append.mp hw).2.2 p hpl q (mem_singleton_self q)
      exact he ▸ (hpq v hvp a ha).le
    · rw [mem_singleton.mp hpl] at hp hvp
      exact (q.within_entry (hq q hp).1 hvp).2

namespace Opens

variable (h : Opens codec ws file keys d)

include h

theorem deleted_nil :
    TSMReader.Deleted file (indexOf codec ws keys) (fun _ _ => False) ⟨file, d, []⟩ where
  b := rfl
  index := by
    refine ⟨_, h.represents, List.Subset.refl _, fun p hp => ?_, fun p hp t ht => ?_,
      fun p hp hn => absurd hp hn⟩
    · rw [eq_blockOf hp]
      exact h.spans _ <| not_not.mp fun hk => forall_ne hk p hp rfl
    · rw [h.tombstones, Finmap.lookup_empty, Option.getD_none]
      simp [Hidden]
  tombstones := by simp

theorem written_eq (k : Bytes) :
    ((layout codec ws).filter (·.key = k)).flatMap (·.values) = written ws k :=
  flatMap_layout h.encodes

theorem index_cases (hw : Writable ws) (hr : r.Deleted file (indexOf codec ws keys) del)
    (fs : FixedSearch) (k : Bytes) :
    r.index.entries fs k = d.entries fs k ∧
        (∀ v ∈ written ws k,
          Hidden ((r.index.tombstones.lookup k).getD []) v.1 ↔ del k v.1) ∨
      r.index.entries fs k = .ok [] ∧ ∀ v ∈ written ws k, del k v.1 := by
  have ⟨ps, hl⟩ := hr.index
  have hwithin v (hv : v ∈ written ws k) : Within (blockOf (layout codec ws) k) v.1 := by
    rw [← h.written_eq] at hv
    exact hw.within_blockOf hv
  rcases hl.represents.entries_cases fs k with ⟨p, hp, hk, he⟩ | ⟨hn, he⟩
  case inl =>
    subst hk
    have hb := eq_blockOf (hl.subset hp)
    refine .inl ⟨?_, fun v hv => hl.left p hp v.1 (hb ▸ hwithin v hv)⟩
    rw [he, h.entries_eq, ← hb]
  case inr =>
    refine .inr ⟨he, fun v hv => ?_⟩
    by_cases hk : k ∈ keys
    case pos =>
      have ⟨o, ho⟩ := exists_place codec ws hk
      exact hl.gone _ ho (fun hp => hn _ hp key_blockOf) v.1 (hwithin v hv)
    case neg =>
      rw [← h.written_eq] at hv
      have ⟨p, hp, _⟩ := mem_flatMap.mp hv
      have hp := mem_filter.mp hp
      exact absurd ((h.mem k).mpr ⟨p, hp.1, of_decide_eq_true hp.2⟩) hk

theorem readAll_of_deleted (hw : Writable ws) (hs : Addressable codec ws file)
    (hr : r.Deleted file (indexOf codec ws keys) del) [∀ k t, Decidable (del k t)]
    (fs : FixedSearch) (k : Bytes) :
    r.readAll codec fs k = .ok ((written ws k).filter fun v => ¬del k v.1) := by
  have ⟨rest, hb⟩ := h.bytes
  have hl : ∀ p ∈ layout codec ws, p.Laid codec (layout codec ws) :=
    laid_foldl (by simp)
  rcases h.index_cases hw hr fs k with ⟨he, hh⟩ | ⟨he, hh⟩
  case inl =>
    have hq p (hp : p ∈ (layout codec ws).filter (·.key = k)) :
        r.readBlock codec p.entry = .ok p.values ∧ p.values.Ascending := by
      have hp := mem_of_mem_filter hp
      exact ⟨TSMReader.readBlock_entry (hl p hp) (hr.b ▸ hb) (hr.b ▸ hs.positions) (hs.blocks p hp),
        hw.ascending_layout hp⟩
    rw [TSMReader.readAll_eq_filter (he.trans (h.entries_eq k)) hq, h.written_eq]
    exact congrArg _ <| filter_congr fun v hv => decide_eq_decide.mpr (hh v hv).not
  case inr =>
    have hn : (written ws k).filter (fun v => ¬del k v.1) = [] := by
      rw [filter_eq_nil_iff]
      intro v hv
      simpa using hh v hv
    rw [hn, TSMReader.readAll, he, ok_bind]
    rfl

theorem entries_of_deleted (hw : Writable ws)
    (hr : r.Deleted file (indexOf codec ws keys) del) (fs : FixedSearch) (k : Bytes) :
    r.index.entries fs k = d.entries fs k ∨
      r.index.entries fs k = .ok [] ∧ ∀ v ∈ written ws k, del k v.1 := by
  exact (h.index_cases hw hr fs k).imp_left And.left

theorem entries_eq_nil (hn : written ws k = []) : d.entries fs k = .ok [] := by
  have hl : ∀ p ∈ layout codec ws, p.Laid codec (layout codec ws) :=
    laid_foldl (by simp)
  have hf : (layout codec ws).filter (·.key = k) = [] := by
    rw [← h.written_eq, flatMap_eq_nil_iff] at hn
    rw [eq_nil_iff_forall_not_mem]
    exact fun p hp => (hl p <| mem_of_mem_filter hp).ne_nil (hn p hp)
  rw [h.entries_eq, blockOf, hf]
  rfl

theorem reopen (hr : r.Deleted file (indexOf codec ws keys) del) (fs : FixedSearch) :
    ∃ r', TSMReader.new fs file r.tombstones = .ok r' ∧
      r'.Deleted file (indexOf codec ws keys) del := by
  have ⟨ps, hl⟩ := h.deleted_nil.index
  have ⟨d', ps', hd', hl'⟩ := TSMReader.applyTombstones_eq hl fs r.tombstones
  refine ⟨⟨file, d', r.tombstones⟩, ?_, rfl, ⟨ps', hl'.congr hr.tombstones⟩, hr.tombstones⟩
  rw [TSMReader.new, h.opens, ok_bind, hd', ok_bind]
  rfl

end Opens

-- What calls leave of the values, to the reader that has served them and to one that opens the file
-- and its tombstones afterwards.
theorem readAll_calls (h : Writable ws) (hw : TSMWriter.writeFile codec ws = .ok file)
    (hs : Addressable codec ws file) (calls : List TSMReader.Call)
    (hc : ∀ c ∈ calls, c.keys.Pairwise (· ≤ ·)) :
    ∃ r₀ r r', TSMReader.new fs file [] = .ok r₀ ∧ calls.foldlM (·.call fs ·) r₀ = .ok r ∧
      TSMReader.new fs file r.tombstones = .ok r' ∧ ∀ s ∈ [r, r'], ∀ k,
        s.readAll codec fs k =
          .ok ((written ws k).filter fun v => ¬∃ c ∈ calls, c.Deletes k v.1) ∧
        (s.index.entries fs k = r₀.index.entries fs k ∨
          s.index.entries fs k = .ok [] ∧
            ∀ v ∈ written ws k, ∃ c ∈ calls, c.Deletes k v.1) ∧
        ((∀ c ∈ calls, k ∉ c.keys) → s.index.entries fs k = r₀.index.entries fs k ∧
          s.readAll codec fs k = r₀.readAll codec fs k) := by
  have ⟨keys, d, ho⟩ := h.opens hw hs
  have ⟨r, hr, hd⟩ := ho.deleted_nil.calls fs calls hc
  have hd : r.Deleted file (indexOf codec ws keys) fun k t => ∃ c ∈ calls, c.Deletes k t :=
    hd.congr fun p _ t _ => by simp
  have ⟨r', hr', hd'⟩ := ho.reopen hd fs
  refine ⟨_, r, r', TSMReader.new_eq ho.opens, hr, hr', fun s hmem k => ?_⟩
  have hsd : s.Deleted file (indexOf codec ws keys) fun k t => ∃ c ∈ calls, c.Deletes k t := by
    rcases mem_pair.mp hmem with rfl | rfl
    · exact hd
    · exact hd'
  have hread := ho.readAll_of_deleted h hs hsd fs k
  refine ⟨hread, ho.entries_of_deleted h hsd fs k, fun hk => ⟨?_, ?_⟩⟩
  · rcases ho.entries_of_deleted h hsd fs k with he | ⟨he, hall⟩
    · exact he
    · have hn : written ws k = [] := eq_nil_iff_forall_not_mem.mpr fun v hv =>
        have ⟨c, hc, hd⟩ := hall v hv
        hk c hc hd.1
      rw [he]
      exact (ho.entries_eq_nil hn).symm
  · rw [hread, ho.readAll_of_deleted h hs ho.deleted_nil fs k]
    refine congrArg _ <| filter_congr fun v _ => decide_eq_decide.mpr ?_
    exact iff_of_true (fun ⟨c, hc, hd⟩ => hk c hc hd.1) not_false

theorem readAll_calls_sample :
    let calls : List TSMReader.Call := [.deleteRange [[97], [99]] 2 9, .delete [[98]]]
    (∀ c ∈ calls, c.keys.Pairwise (· ≤ ·)) ∧
      ∃ r₀ r r', TSMReader.new linear sampleFile [] = .ok r₀ ∧
        calls.foldlM (·.call linear ·) r₀ = .ok r ∧
        TSMReader.new linear sampleFile r.tombstones = .ok r' ∧ ∀ s ∈ [r, r'], ∀ k,
          s.readAll integers linear k =
            .ok ((written sampleWrites k).filter fun v => ¬∃ c ∈ calls, c.Deletes k v.1) ∧
          (s.index.entries linear k = r₀.index.entries linear k ∨
            s.index.entries linear k = .ok [] ∧
              ∀ v ∈ written sampleWrites k, ∃ c ∈ calls, c.Deletes k v.1) ∧
          ((∀ c ∈ calls, k ∉ c.keys) → s.index.entries linear k = r₀.index.entries linear k ∧
            s.readAll integers linear k = r₀.readAll integers linear k) :=
  ⟨by decide, readAll_calls writable_sampleWrites writeFile_sampleWrites
    addressable_sampleFile _ (by decide)⟩

end Written

end Tsm1
