import Myts.Tsm1.Fanout

open List

namespace Tsm1.Fanout.Engine

variable {ε ρ ι : Type} {e : Engine ε ρ ι}

abbrev req (e : Engine ε ρ ι) (kf : String × Option ε) : Request ε ρ :=
  e.request kf.1 kf.2

def itr? (e : Engine ε ρ ι) (kf : String × Option ε) : Option ι :=
  e.produced (e.req kf)

section Group

variable {g i : Nat} {itrs : List ι} {s : List (String × Option ε)}

theorem group_cons (g i : Nat) (itrs : List ι) (kf : String × Option ε)
    (s : List (String × Option ε)) :
    (∃ err, e.createVarRefSeriesIterator (e.req kf) = .error err ∧ e.itr? kf = none ∧
      e.group g i itrs (kf :: s) = ⟨[e.req kf], [], [], itrs, some err⟩) ∨
    (e.createVarRefSeriesIterator (e.req kf) = .ok none ∧ e.itr? kf = none ∧
      e.group g i itrs (kf :: s) = { e.group g (i + 1) itrs s with
        requests := e.req kf :: (e.group g (i + 1) itrs s).requests }) ∨
    (∃ itr err, e.createVarRefSeriesIterator (e.req kf) = .ok (some itr) ∧ e.itr? kf = some itr ∧
      (e.interrupted g i ∨ 0 < e.maxSeriesN ∧ e.maxSeriesN < itrs.length + 1) ∧
      e.group g i itrs (kf :: s) = ⟨[e.req kf], [itr], itrs ++ [itr], [], some err⟩) ∨
    (∃ itr, e.createVarRefSeriesIterator (e.req kf) = .ok (some itr) ∧ e.itr? kf = some itr ∧
      ¬e.interrupted g i ∧ ¬(0 < e.maxSeriesN ∧ e.maxSeriesN < itrs.length + 1) ∧
      e.group g i itrs (kf :: s) = { e.group g (i + 1) (itrs ++ [itr]) s with
        requests := e.req kf :: (e.group g (i + 1) (itrs ++ [itr]) s).requests
        built := itr :: (e.group g (i + 1) (itrs ++ [itr]) s).built }) := by
  have hl (itr : ι) : ((itrs ++ [itr]).length : Int) = itrs.length + 1 := by simp
  rw [group, itr?, produced]
  dsimp only
  cases e.createVarRefSeriesIterator (e.req kf)
  case error err => exact .inl ⟨err, rfl, rfl, rfl⟩
  case ok o =>
    cases o
    case none => exact .inr <| .inl ⟨rfl, rfl, rfl⟩
    case some itr =>
      dsimp only
      rw [hl]
      by_cases hi : e.interrupted g i
      case pos =>
        refine .inr <| .inr <| .inl ⟨itr, "query interrupted", rfl, rfl, .inl hi, ?_⟩
        rw [if_pos hi]
      case neg =>
        by_cases hm : 0 < e.maxSeriesN ∧ e.maxSeriesN < itrs.length + 1
        case pos =>
          refine .inr <| .inr <| .inl ⟨itr, e.limitExceeded (itrs ++ [itr]).length, rfl, rfl,
            .inr hm, ?_⟩
          rw [if_neg hi, if_pos hm]
        case neg =>
          refine .inr <| .inr <| .inr ⟨itr, rfl, rfl, hi, hm, ?_⟩
          rw [if_neg hi, if_neg hm]

theorem group_requests (i : Nat) (itrs : List ι) (s : List (String × Option ε)) :
    (e.group g i itrs s).requests.Sublist (s.map e.req) := by
  induction s generalizing i itrs
  case nil => exact .refl []
  case cons kf s hi =>
    have h₁ : [e.req kf].Sublist ((kf :: s).map e.req) := .cons_cons _ (nil_sublist _)
    rcases group_cons g i itrs kf s with ⟨_, _, _, h⟩ | ⟨_, _, h⟩ | ⟨_, _, _, _, _, h⟩ |
      ⟨_, _, _, _, _, h⟩ <;> rw [h]
    · exact h₁
    · exact .cons_cons _ (hi ..)
    · exact h₁
    · exact .cons_cons _ (hi ..)

theorem group_eq_of_ok (h : (e.group g i itrs s).err = none) :
    (e.group g i itrs s).requests = s.map e.req ∧
      (e.group g i itrs s).itrs = itrs ++ s.filterMap e.itr? := by
  induction s generalizing i itrs
  case nil => exact ⟨rfl, (append_nil itrs).symm⟩
  case cons kf s hi =>
    rcases group_cons g i itrs kf s with ⟨_, _, _, hg⟩ | ⟨_, hp, hg⟩ | ⟨_, _, _, _, _, hg⟩ |
      ⟨_, _, hp, _, _, hg⟩ <;> rw [hg] at h ⊢
    · cases h
    · have ⟨h₁, h₂⟩ := hi h
      rw [map_cons, filterMap_cons_none hp, h₁, h₂]
      exact ⟨rfl, rfl⟩
    · cases h
    · have ⟨h₁, h₂⟩ := hi h
      rw [map_cons, filterMap_cons_some hp, h₁, h₂, append_assoc]
      exact ⟨rfl, rfl⟩

theorem group_closed (i : Nat) (itrs : List ι) (s : List (String × Option ε)) :
    (e.group g i itrs s).closed ++ (e.group g i itrs s).itrs =
      itrs ++ (e.group g i itrs s).built := by
  induction s generalizing i itrs
  case nil => exact (append_nil itrs).symm
  case cons kf s hi =>
    rcases group_cons g i itrs kf s with ⟨_, _, _, h⟩ | ⟨_, _, h⟩ | ⟨_, _, _, _, _, h⟩ |
      ⟨_, _, _, _, _, h⟩ <;> rw [h]
    · exact (append_nil itrs).symm
    · exact hi ..
    · exact append_nil _
    · rw [hi, append_assoc]
      rfl

theorem exists_interrupted_cons (kf : String × Option ε) (s : List (String × Option ε)) :
    (∃ j kf', (kf :: s)[j]? = some kf' ∧ (e.itr? kf').isSome ∧ e.interrupted g (i + j)) ↔
      ((e.itr? kf).isSome ∧ e.interrupted g i) ∨
      ∃ j kf', s[j]? = some kf' ∧ (e.itr? kf').isSome ∧ e.interrupted g (i + 1 + j) := by
  constructor
  case mp =>
    rintro ⟨j, kf', hj, hp, hx⟩
    cases j
    case zero => cases hj; exact .inl ⟨hp, hx⟩
    case succ j => exact .inr ⟨j, kf', hj, hp, by rwa [Nat.add_assoc, Nat.add_comm 1 j]⟩
  case mpr =>
    rintro (⟨hp, hx⟩ | ⟨j, kf', hj, hp, hx⟩)
    case inl => exact ⟨0, kf, rfl, hp, hx⟩
    case inr => exact ⟨j + 1, kf', hj, hp, by rwa [Nat.add_comm j 1, ← Nat.add_assoc]⟩

theorem group_err_iff (hm : 0 < e.maxSeriesN) (hl : itrs.length ≤ e.maxSeriesN) :
    (e.group g i itrs s).err ≠ none ↔
      (∃ kf ∈ s, ∃ err, e.createVarRefSeriesIterator (e.req kf) = .error err) ∨
      (∃ j kf, s[j]? = some kf ∧ (e.itr? kf).isSome ∧ e.interrupted g (i + j)) ∨
      e.maxSeriesN < itrs.length + (s.filterMap e.itr?).length := by
  induction s generalizing i itrs
  case nil => simpa [group] using hl
  case cons kf s hi =>
    rw [exists_interrupted_cons, exists_mem_cons_iff]
    rcases group_cons g i itrs kf s with ⟨_, hc, hp, h⟩ | ⟨hc, hp, h⟩ | ⟨_, _, hc, hp, hx, h⟩ |
      ⟨itr, hc, hp, hn, hx, h⟩ <;> rw [h]
    · simp [hc]
    · dsimp only
      rw [hi hl, filterMap_cons_none hp]
      simp [hc, hp]
    · refine iff_of_true nofun ?_
      rw [filterMap_cons_some hp, length_cons]
      rcases hx with hx | hx
      · exact .inr <| .inl <| .inl ⟨by rw [hp]; rfl, hx⟩
      · exact .inr <| .inr (by push_cast; omega)
    · dsimp only
      rw [hi (by rw [length_append, length_singleton]; push_cast; omega),
        filterMap_cons_some hp, length_cons, length_append, length_singleton]
      simp [hc, hn, add_assoc, add_comm]

end Group

variable {t : TagSet ε} {procs : Nat}

def outcomes (e : Engine ε ρ ι) (procs : Nat) (t : TagSet ε) : List (Outcome ε ρ ι) :=
  (series procs t).mapIdx fun g s => e.group g 0 [] s

theorem groups_eq (e : Engine ε ρ ι) (procs : Nat) (t : TagSet ε) :
    (((Groups.cut (min procs t.seriesKeys.length) t.seriesKeys).zip
      (Groups.cut (min procs t.seriesKeys.length) t.filters)).mapIdx
        fun g kf => e.createTagSetGroupIterators g kf.1 kf.2) = e.outcomes procs t := by
  rw [outcomes, series, ← Groups.zip_cut t.length_eq]
  refine ext_getElem? fun i => ?_
  rw [getElem?_mapIdx, getElem?_mapIdx, List.zip, getElem?_zipWith,
    getElem?_zipWith]
  cases (Groups.cut (min procs t.seriesKeys.length) t.seriesKeys)[i]? <;>
    cases (Groups.cut (min procs t.seriesKeys.length) t.filters)[i]? <;> rfl

theorem mem_outcomes_iff {o : Outcome ε ρ ι} : o ∈ e.outcomes procs t ↔
    ∃ g s, (series procs t)[g]? = some s ∧ o = e.group g 0 [] s := by
  rw [outcomes, mem_iff_getElem?]
  refine exists_congr fun g => ?_
  rw [getElem?_mapIdx, Option.map_eq_some_iff]
  exact exists_congr fun s => and_congr_right fun _ => eq_comm

theorem flatten_series (hp : 0 < procs) (ht : t.seriesKeys ≠ []) :
    (series procs t).flatten.map e.req = e.requests t := by
  have hl := length_pos_iff.mpr ht
  rw [series, Groups.flatten_cut (by omega), requests, map_zip_eq_zipWith]
  rfl

def combined (os : List (Outcome ε ρ ι)) (err : Option String) : Outcome ε ρ ι where
  requests := os.flatMap (·.requests)
  built := os.flatMap (·.built)
  closed := os.flatMap (·.closed) ++ if err.isSome then os.flatMap (·.itrs) else []
  itrs := if err.isSome then [] else os.flatMap (·.itrs)
  err := err

theorem foldl_err_eq_none_iff {os : List (Outcome ε ρ ι)} {err : Option String} :
    os.foldl (fun err o => o.err.or err) err = none ↔ err = none ∧ ∀ o ∈ os, o.err = none := by
  induction os generalizing err
  case nil => simp
  case cons o os hi =>
    rw [foldl_cons, hi, Option.or_eq_none_iff, forall_mem_cons]
    tauto

theorem exists_combined (e : Engine ε ρ ι) (procs : Nat) (t : TagSet ε) :
    ∃ err, e.createTagSetIterators procs t = combined (e.outcomes procs t) err ∧
      (err = none ↔ ∀ o ∈ e.outcomes procs t, o.err = none) := by
  refine ⟨_, ?_, foldl_err_eq_none_iff.trans (and_iff_right rfl)⟩
  rw [createTagSetIterators, ← groups_eq]
  rfl

theorem flatMap_mapIdx_sublist {f : Nat → α → β} {p : β → List γ} {q : α → List γ}
    (h : ∀ i a, (p (f i a)).Sublist (q a)) (l : List α) :
    ((l.mapIdx f).flatMap p).Sublist (l.flatMap q) := by
  induction l generalizing f
  case nil => exact .refl []
  case cons a l hi =>
    rw [mapIdx_cons, flatMap_cons, flatMap_cons]
    exact (h 0 a).append (hi fun i => h (i + 1))

theorem flatMap_mapIdx_eq {l : List α} {f : Nat → α → β} {p : β → List γ} {q : α → List γ}
    (h : ∀ i a, l[i]? = some a → p (f i a) = q a) : (l.mapIdx f).flatMap p = l.flatMap q := by
  induction l generalizing f
  case nil => rfl
  case cons a l hi =>
    rw [mapIdx_cons, flatMap_cons, flatMap_cons, h 0 a rfl,
      hi fun i b hb => h (i + 1) b hb]

theorem combined_closed {os : List (Outcome ε ρ ι)} (h : ∀ o ∈ os, o.closed ++ o.itrs = o.built)
    (err : String) : (combined os (some err)).closed.Perm (combined os (some err)).built := by
  refine (flatMap_append_perm os (·.closed) (·.itrs)).trans (.of_eq ?_)
  exact flatMap_congr h

theorem stops_iff (hm : 0 < e.maxSeriesN) {s : List (String × Option ε)} :
    (e.group g 0 [] s).err ≠ none ↔ e.Stops g s := by
  rw [group_err_iff hm (by simpa using hm.le), Stops]
  simp only [length_nil, Nat.cast_zero, zero_add]
  rfl

theorem outcomes_err_iff (hm : 0 < e.maxSeriesN) :
    (∀ o ∈ e.outcomes procs t, o.err = none) ↔
      ¬∃ g s, (series procs t)[g]? = some s ∧ e.Stops g s := by
  constructor
  case mp =>
    rintro h ⟨g, s, hs, hx⟩
    exact (stops_iff hm).mpr hx <| h _ (mem_outcomes_iff.mpr ⟨g, s, hs, rfl⟩)
  case mpr =>
    intro h o ho
    obtain ⟨g, s, hs, rfl⟩ := mem_outcomes_iff.mp ho
    by_contra hn
    exact h ⟨g, s, hs, (stops_iff hm).mp hn⟩

theorem correct_iff (hp : 0 < procs) (ht : t.seriesKeys ≠ []) :
    e.Correct procs t ↔ e.maxSeriesN ≤ 0 ∨
      ((e.requests t).filterMap e.produced).length ≤ e.maxSeriesN ∨
      ∃ g s, (series procs t)[g]? = some s ∧ e.Stops g s := by
  obtain ⟨err, hc, he⟩ := exists_combined e procs t
  have hf := flatten_series (e := e) hp ht
  constructor
  case mp =>
    intro h
    by_contra! hn
    obtain ⟨hm, hl, hs⟩ := hn
    refine (h.limit hm hl).1 ?_
    rw [hc]
    exact he.mpr <| (outcomes_err_iff hm).mpr fun ⟨g, s, h⟩ => hs g s h.1 h.2
  case mpr =>
    intro h
    constructor <;> rw [hc]
    case requests =>
      intro hn
      have hg := he.mp hn
      rw [← hf, map_flatten]
      refine flatMap_mapIdx_eq fun g s hs => (group_eq_of_ok ?_).1
      exact hg _ (mem_outcomes_iff.mpr ⟨g, s, hs, rfl⟩)
    case once =>
      rw [← hf, map_flatten]
      exact flatMap_mapIdx_sublist (fun g s => group_requests 0 [] s) _
    case itrs =>
      intro hn
      have hg := he.mp hn
      have hq : (e.outcomes procs t).flatMap (·.itrs) =
          (series procs t).flatMap (·.filterMap e.itr?) :=
        flatMap_mapIdx_eq fun g s hs =>
          (group_eq_of_ok (hg _ (mem_outcomes_iff.mpr ⟨g, s, hs, rfl⟩))).2
      have hn : err = none := hn
      rw [← hf, filterMap_map, filterMap_flatten, combined, hn]
      exact hq
    case limit =>
      intro hm hl
      have hs := (h.resolve_left hm.not_ge).resolve_left hl.not_ge
      have hn : err ≠ none := fun hn => (outcomes_err_iff hm).mp (he.mp hn) hs
      obtain ⟨err, rfl⟩ := Option.ne_none_iff_exists'.mp hn
      refine ⟨hn, combined_closed (fun o ho => ?_) err⟩
      obtain ⟨g, s, -, rfl⟩ := mem_outcomes_iff.mp ho
      exact group_closed 0 [] s

def sample (maxSeriesN : Int) : Engine Unit Unit String where
  exprNames _ := []
  createVarRefSeriesIterator r := .ok (some r.seriesKey)
  interrupted _ _ := false
  maxSeriesN := maxSeriesN

def fourSeries : TagSet Unit where
  seriesKeys := ["a", "b", "c", "d"]
  filters := [none, some (), none, none]
  length_eq := rfl

theorem correct_within_group : (sample 2).Correct 2 ⟨["a", "b", "c", "d", "e"],
    [none, none, none, none, none], rfl⟩ :=
  (correct_iff (by decide) (by simp)).mpr <| .inr <| .inr
    ⟨1, [("c", none), ("d", none), ("e", none)], rfl, .inr <| .inr (by decide)⟩

theorem limit_not_enforced :
    ((sample 2).createTagSetIterators 2 fourSeries).err = none ∧
    ((sample 2).createTagSetIterators 2 fourSeries).itrs = ["a", "b", "c", "d"] ∧
    ¬(sample 2).Correct 2 fourSeries := by
  refine ⟨rfl, rfl, fun h => ?_⟩
  exact (h.limit (by decide) (by decide)).1 rfl

end Tsm1.Fanout.Engine
