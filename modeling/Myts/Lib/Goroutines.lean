import Myts.Lib.Run

open List

-- A loop that starts a goroutine for each of `n` elements and waits for all of them. There is one
-- loop variable, which a goroutine reads when it runs. What the goroutines find is written to
-- something that they share.
namespace Goroutines

open Function

abbrev Party (n : Nat) := Option (Fin n)

structure Job (n : Nat) (α : Type) where
  loop : Fin n → Fin n → List α
  other : List α
  locked : Bool

structure State (n : Nat) (α : Type) where
  started : Nat
  reads : Fin n → Option (Fin n)
  pos : Party n → Nat
  writing : Finset (Party n)
  log : List α
  overlap : Bool

inductive Event (n : Nat)
  | start
  | run (i : Fin n)
  | enter (p : Party n)
  | leave (p : Party n)
deriving DecidableEq

def turn (i : Fin n) : List (Event n) :=
  [.start, .run i, .enter (some i), .leave (some i)]

def inTurn (n : Nat) : List (Event n) :=
  (finRange n).flatMap turn

namespace State

def init : State n α where
  started := 0
  reads := fun _ => none
  pos := fun _ => 0
  writing := ∅
  log := []
  overlap := false

variable (J : Job n α) (s : State n α)

def writes : Party n → List α
  | none => J.other
  | some i =>
    match s.reads i with
    | none => []
    | some j => J.loop i j

def start : State n α :=
  if s.started < n then { s with started := s.started + 1 } else s

def run (i : Fin n) : State n α :=
  if h : i < s.started ∧ s.started ≤ n ∧ s.reads i = none then
    { s with reads := update s.reads i (some ⟨s.started - 1, by omega⟩) }
  else
    s

def enter (p : Party n) : State n α :=
  if p ∉ s.writing ∧ s.pos p < (s.writes J p).length ∧ (J.locked → s.writing = ∅) then
    { s with
      writing := insert p s.writing
      overlap := s.overlap || decide (s.writing ≠ ∅) }
  else
    s

def leave (p : Party n) : State n α :=
  if p ∈ s.writing then
    { s with
      writing := s.writing.erase p
      pos := update s.pos p (s.pos p + 1)
      log := s.log ++ (s.writes J p)[s.pos p]?.toList }
  else
    s

def step (s : State n α) : Event n → State n α
  | .start => s.start
  | .run i => s.run i
  | .enter p => s.enter J p
  | .leave p => s.leave J p

structure Finished : Prop where
  started : s.started = n
  reads : ∀ i, (s.reads i).isSome
  pos : ∀ p, s.pos p = (s.writes J p).length

instance : Decidable (s.Finished J) :=
  decidable_of_iff ((s.started = n ∧ ∀ i, (s.reads i).isSome) ∧ ∀ p, s.pos p = (s.writes J p).length)
    ⟨fun ⟨⟨h₁, h₂⟩, h₃⟩ => ⟨h₁, h₂, h₃⟩, fun ⟨h₁, h₂, h₃⟩ => ⟨⟨h₁, h₂⟩, h₃⟩⟩

def Prompt (s : State n α) : Event n → Prop
  | .run i => i < s.started → s.reads i = none → s.started = i + 1
  | _ => True

def Exclusive (s : State n α) : Event n → Prop
  | .enter p => p ∉ s.writing → s.pos p < (s.writes J p).length → s.writing = ∅
  | _ => True

instance (e : Event n) : Decidable (s.Prompt e) := by
  cases e <;> dsimp only [Prompt] <;> infer_instance

instance (e : Event n) : Decidable (s.Exclusive J e) := by
  cases e <;> dsimp only [Exclusive] <;> infer_instance

def Once : Prop :=
  ∀ j, ∃! i, s.reads i = some j

def Straight : Prop :=
  ∀ i j, s.reads i = some j → j = i

structure Coherent : Prop where
  started : s.started ≤ n
  reads : ∀ {i j}, s.reads i = some j → i ≤ j
  pos : ∀ p, s.pos p ≤ (s.writes J p).length
  writing : ∀ p ∈ s.writing, s.pos p < (s.writes J p).length
  log : (s.log : Multiset α) = ∑ p, ((s.writes J p).take (s.pos p) : Multiset α)
  locked : J.locked → s.overlap = false

variable {J} {s}

theorem coherent_init : (init : State n α).Coherent J where
  started := Nat.zero_le _
  reads h := by cases h
  pos _ := Nat.zero_le _
  writing := by simp [init]
  log := by simp [init]
  locked := fun _ => rfl

@[simp]
theorem run_started : (s.run i).started = s.started := by
  unfold run
  split <;> rfl

@[simp]
theorem run_pos : (s.run i).pos = s.pos := by
  unfold run
  split <;> rfl

@[simp]
theorem run_writing : (s.run i).writing = s.writing := by
  unfold run
  split <;> rfl

@[simp]
theorem run_log : (s.run i).log = s.log := by
  unfold run
  split <;> rfl

@[simp]
theorem run_overlap : (s.run i).overlap = s.overlap := by
  unfold run
  split <;> rfl

theorem reads_run_eq_some_iff : (s.run i).reads k = some j ↔ s.reads k = some j ∨
    k = i ∧ i < s.started ∧ s.started ≤ n ∧ s.reads i = none ∧ j + 1 = s.started := by
  by_cases hr : i < s.started ∧ s.started ≤ n ∧ s.reads i = none
  case neg =>
    rw [run, dif_neg hr]
    refine (or_iff_left fun h => hr ⟨h.2.1, h.2.2.1, h.2.2.2.1⟩).symm
  case pos =>
    rw [run, dif_pos hr]
    dsimp only
    by_cases hk : k = i
    case pos =>
      subst hk
      rw [update_self, Option.some_inj, hr.2.2, Fin.ext_iff]
      have := hr.1
      simp only [reduceCtorEq, false_or, hr, true_and]
      omega
    case neg =>
      rw [update_of_ne hk]
      exact (or_iff_left fun h => hk h.1).symm

theorem writes_run_of_ne (hp : p ≠ some i) : (s.run i).writes J p = s.writes J p := by
  cases p
  case none => rfl
  case some k =>
    have hk : k ≠ i := fun h => hp (congrArg _ h)
    have hr : (s.run i).reads k = s.reads k := Option.ext fun j => by
      rw [reads_run_eq_some_iff]
      exact or_iff_left fun h => hk h.1
    simp only [writes, hr]

theorem Coherent.pos_eq_zero (h : s.Coherent J) (hr : s.reads i = none) : s.pos (some i) = 0 := by
  have hp := h.pos (some i)
  simpa only [writes, hr, length_nil, Nat.le_zero] using hp

theorem Coherent.start (h : s.Coherent J) : s.start.Coherent J := by
  unfold State.start
  split
  case isTrue hs => exact { h with started := hs }
  case isFalse => exact h

theorem Coherent.take_run (h : s.Coherent J) :
    ((s.run i).writes J p).take (s.pos p) = (s.writes J p).take (s.pos p) := by
  by_cases hp : p = some i
  case neg => rw [writes_run_of_ne hp]
  case pos =>
    subst hp
    cases hr : s.reads i
    case none => rw [h.pos_eq_zero hr, take_zero, take_zero]
    case some j => simp only [writes, hr, reads_run_eq_some_iff.mpr (.inl hr)]

theorem Coherent.run (h : s.Coherent J) : (s.run i).Coherent J where
  started := run_started (s := s) ▸ h.started
  reads := by
    intro k j hk
    obtain hk | ⟨rfl, hlt, _, _, hj⟩ := reads_run_eq_some_iff.mp hk
    case inl => exact h.reads hk
    case inr => rw [Fin.le_def]; omega
  pos p := by
    have ht := congrArg List.length (h.take_run (p := p) (i := i))
    have hp := h.pos p
    rw [length_take, length_take] at ht
    rw [run_pos]
    omega
  writing p hp := by
    rw [run_writing] at hp
    rw [run_pos]
    by_cases hpi : p = some i
    case neg => rw [writes_run_of_ne hpi]; exact h.writing p hp
    case pos =>
      have hlt := h.writing p hp
      subst hpi
      cases hr : s.reads i
      case none => simp only [writes, hr, length_nil, Nat.not_lt_zero] at hlt
      case some j => simpa only [writes, hr, reads_run_eq_some_iff.mpr (.inl hr)] using hlt
  log := by
    rw [run_log, run_pos, h.log]
    exact Finset.sum_congr rfl fun p _ => congrArg _ h.take_run.symm
  locked := run_overlap (s := s) ▸ h.locked

theorem Coherent.enter (h : s.Coherent J) : (s.enter J p).Coherent J := by
  unfold State.enter
  split
  case isFalse => exact h
  case isTrue hp =>
    obtain ⟨_, hlt, hlock⟩ := hp
    exact { h with
      writing := by
        intro q hq
        obtain rfl | hq := Finset.mem_insert.mp hq
        case inl => exact hlt
        case inr => exact h.writing q hq
      locked := by
        intro hl
        rw [h.locked hl, hlock hl]
        rfl }

theorem Coherent.leave (h : s.Coherent J) : (s.leave J p).Coherent J := by
  unfold State.leave
  split
  case isFalse => exact h
  case isTrue hp =>
    have hlt := h.writing p hp
    exact {
      started := h.started
      reads := h.reads
      pos := by
        intro q
        by_cases hq : q = p
        case pos => subst hq; simpa [writes] using hlt
        case neg => simpa [update_of_ne hq, writes] using h.pos q
      writing := by
        intro q hq
        obtain ⟨hne, hq⟩ := Finset.mem_erase.mp hq
        simpa [update_of_ne hne, writes] using h.writing q hq
      log := by
        have hq (q) (hq : q ∈ Finset.univ.erase p) :
            ((s.writes J q).take (update s.pos p (s.pos p + 1) q) : Multiset α) =
            (s.writes J q).take (s.pos q) := by
          rw [update_of_ne (Finset.ne_of_mem_erase hq)]
        have hp := Finset.mem_univ p
        change _ = ∑ q, ((s.writes J q).take (update s.pos p (s.pos p + 1) q) : Multiset α)
        rw [← Finset.add_sum_erase _ _ hp, Finset.sum_congr rfl hq, update_self,
          take_add_one, ← Multiset.coe_add, ← Multiset.coe_add, h.log,
          ← Finset.add_sum_erase _ _ hp]
        exact add_right_comm _ _ _
      locked := h.locked }

theorem Coherent.step (h : s.Coherent J) : (s.step J e).Coherent J := by
  cases e
  case start => exact h.start
  case run => exact h.run
  case enter => exact h.enter
  case leave => exact h.leave

theorem reads_start : s.start.reads = s.reads := by
  unfold start
  split <;> rfl

theorem reads_enter : (s.enter J p).reads = s.reads := by
  unfold enter
  split <;> rfl

theorem reads_leave : (s.leave J p).reads = s.reads := by
  unfold leave
  split <;> rfl

theorem started_enter : (s.enter J p).started = s.started := by
  unfold enter
  split <;> rfl

theorem started_leave : (s.leave J p).started = s.started := by
  unfold leave
  split <;> rfl

theorem straight_congr {s' : State n α} (h : s'.reads = s.reads) : s'.Straight ↔ s.Straight := by
  rw [Straight, h, Straight]

theorem reads_step_job {J' : Job n α} {s' : State n α}
    (h : s.started = s'.started ∧ s.reads = s'.reads) :
    (s.step J e).started = (s'.step J' e).started ∧ (s.step J e).reads = (s'.step J' e).reads := by
  cases e
  case start =>
    simp only [step, start, h.left]
    split <;> exact ⟨by simp [h.left], h.right⟩
  case run i =>
    simp only [step, run, h.left, h.right]
    split
    case isTrue => exact ⟨rfl, rfl⟩
    case isFalse => exact h
  case enter p =>
    simp only [step, reads_enter, started_enter]
    exact h
  case leave p =>
    simp only [step, reads_leave, started_leave]
    exact h

theorem reads_foldl_job (J J' : Job n α) (es : List (Event n)) :
    (es.foldl (step J) init).started = (es.foldl (step J') init).started ∧
    (es.foldl (step J) init).reads = (es.foldl (step J') init).reads := by
  have h {s s' : State n α} (h : s.started = s'.started ∧ s.reads = s'.reads) :
      (es.foldl (step J) s).started = (es.foldl (step J') s').started ∧
      (es.foldl (step J) s).reads = (es.foldl (step J') s').reads := by
    induction es generalizing s s'
    case nil => exact h
    case cons e es hi => exact hi (reads_step_job h)
  exact h ⟨rfl, rfl⟩

theorem Coherent.straight_step_iff (h : s.Coherent J) :
    (s.step J e).Straight ↔ s.Straight ∧ s.Prompt e := by
  cases e
  case start => exact (straight_congr reads_start).trans (and_iff_left trivial).symm
  case enter => exact (straight_congr reads_enter).trans (and_iff_left trivial).symm
  case leave => exact (straight_congr reads_leave).trans (and_iff_left trivial).symm
  case run i =>
    constructor
    case mp =>
      intro hs
      refine ⟨fun k j hk => hs k j (reads_run_eq_some_iff.mpr (.inl hk)), fun hlt hr => ?_⟩
      have hj : s.started - 1 < n := by have := h.started; omega
      have := hs i ⟨s.started - 1, hj⟩ <| reads_run_eq_some_iff.mpr <| .inr
        ⟨rfl, hlt, h.started, hr, by dsimp only; omega⟩
      have := congrArg Fin.val this
      dsimp only at this
      omega
    case mpr =>
      rintro ⟨hs, hp⟩ k j hk
      obtain hk | ⟨rfl, hlt, _, hr, hj⟩ := reads_run_eq_some_iff.mp hk
      case inl => exact hs k j hk
      case inr =>
        have := hp hlt hr
        exact Fin.ext (by omega)

theorem coherent_foldl (es : List (Event n)) : (es.foldl (step J) init).Coherent J := by
  have h : ∀ {s : State n α}, s.Coherent J → (es.foldl (step J) s).Coherent J := by
    induction es
    case nil => exact id
    case cons e es hi => exact fun h => hi h.step
  exact h coherent_init

theorem straight_foldl_iff :
    (es.foldl (step J) init).Straight ↔ Run.All (step J) Prompt init es := by
  refine (Run.holds_foldl_iff Coherent.step Coherent.straight_step_iff coherent_init).trans ?_
  exact and_iff_right nofun

theorem Finished.reads_eq_of_straight (hf : s.Finished J) (hs : s.Straight) (i : Fin n) :
    s.reads i = some i := by
  obtain ⟨j, hj⟩ := Option.isSome_iff_exists.mp (hf.reads i)
  exact hj.trans <| congrArg some (hs i j hj)

-- If the elements are spread over the goroutines, the last one that has got a later element than its
-- own shares it with the goroutine that was started for that element.
theorem Coherent.once_iff (h : s.Coherent J) (hf : s.Finished J) : s.Once ↔ s.Straight := by
  constructor
  case mp =>
    intro ho i j hij
    induction hk : n - i using Nat.strong_induction_on generalizing i j
    case _ k hi =>
      obtain hlt | rfl := lt_or_eq_of_le (h.reads hij)
      case inr => rfl
      case inl =>
        obtain ⟨j', hj'⟩ := Option.isSome_iff_exists.mp (hf.reads j)
        obtain rfl := hi (n - j) (by have := j.isLt; omega) j j' hj' rfl
        exact (ho j').unique hj' hij
  case mpr =>
    intro hs j
    exact ⟨j, hf.reads_eq_of_straight hs j, fun i hi => (hs i j hi).symm⟩

theorem Finished.once_of_forall_exists (hf : s.Finished J) (h : ∀ j, ∃ i, s.reads i = some j) :
    s.Once := by
  have hs : Surjective fun i => (s.reads i).get (hf.reads i) := fun j => by
    obtain ⟨i, hi⟩ := h j
    exact ⟨i, Option.get_of_eq_some _ hi⟩
  have hinj := Finite.injective_iff_surjective.mpr hs
  intro j
  obtain ⟨i, hi⟩ := h j
  refine ⟨i, hi, fun i' hi' => hinj ?_⟩
  exact (Option.get_of_eq_some _ hi').trans (Option.get_of_eq_some _ hi).symm

theorem Coherent.log_eq (h : s.Coherent J) (hf : s.Finished J) :
    (s.log : Multiset α) = ∑ p, (s.writes J p : Multiset α) := by
  rw [h.log]
  exact Finset.sum_congr rfl fun p _ => by rw [hf.pos, take_length]

theorem Coherent.log_eq_of_straight (h : s.Coherent J) (hf : s.Finished J) (hs : s.Straight) :
    (s.log : Multiset α) = J.other + ∑ i, (J.loop i i : Multiset α) := by
  rw [h.log_eq hf, Fintype.sum_option]
  refine congrArg₂ _ rfl <| Finset.sum_congr rfl fun i _ => ?_
  simp only [writes, hf.reads_eq_of_straight hs i]

theorem foldl_turn {i : Fin n} (hs : s.started = i) (hr : s.reads i = none)
    (hp : s.pos (some i) = 0) (hw : s.writing = ∅) (hl : (J.loop i i).length ≤ 1) :
    (turn i).foldl (step J) s = { s with
      started := i + 1
      reads := update s.reads i (some i)
      pos := update s.pos (some i) (J.loop i i).length
      log := s.log ++ J.loop i i } := by
  obtain ⟨started, reads, pos, writing, log, overlap⟩ := s
  dsimp only at hs hr hp hw
  subst hs hw
  match hc : J.loop i i with
  | [] => simp [turn, step, start, run, enter, leave, writes, hr, hp, hc]
  | [a] => simp [turn, step, start, run, enter, leave, writes, hr, hp, hc]
  | _ :: _ :: _ => simp [hc] at hl

structure Turns (J : Job n α) (s : State n α) (k : Nat) : Prop where
  started : s.started = k
  reads : ∀ i : Fin n, s.reads i = if i < k then some i else none
  pos : ∀ i : Fin n, s.pos (some i) = if i < k then (J.loop i i).length else 0
  other : s.pos none = 0
  writing : s.writing = ∅

theorem Turns.turn {i : Fin n} (h : s.Turns J i) (hl : (J.loop i i).length ≤ 1) :
    ((turn i).foldl (step J) s).Turns J (i + 1) := by
  have hr := h.reads i
  have hp := h.pos i
  rw [if_neg (Nat.lt_irrefl _)] at hr hp
  rw [foldl_turn h.started hr hp h.writing hl]
  refine ⟨rfl, fun k => ?_, fun k => ?_, ?_, h.writing⟩
  all_goals dsimp only
  · rw [update_apply, h.reads]
    grind
  · rw [update_apply, h.pos]
    grind
  · rw [update_of_ne (by simp), h.other]

theorem turns_inTurn (hl : ∀ i, (J.loop i i).length ≤ 1) :
    ((inTurn n).foldl (step J) init).Turns J n := by
  suffices h : ∀ k ≤ n, ((((finRange n).take k).flatMap turn).foldl (step J) init).Turns J k by
    have hn := h n le_rfl
    rwa [take_of_length_le (by simp)] at hn
  intro k hk
  induction k
  case zero => exact ⟨rfl, by simp [init], by simp [init], rfl, rfl⟩
  case succ k hi =>
    have hl' : k < (finRange n).length := by rwa [length_finRange]
    rw [take_succ_eq_append_getElem hl', flatMap_append, foldl_append, flatMap_singleton,
      getElem_finRange]
    exact (hi (Nat.le_of_succ_le hk)).turn (i := ⟨k, hk⟩) (hl _)

theorem finished_inTurn (hl : ∀ i, (J.loop i i).length ≤ 1) (ho : J.other = []) :
    ((inTurn n).foldl (step J) init).Finished J := by
  have h := turns_inTurn hl
  have hr (i : Fin n) := (h.reads i).trans (if_pos i.isLt)
  refine ⟨h.started, fun i => by rw [hr]; rfl, fun p => ?_⟩
  cases p
  case none => rw [h.other, writes, ho, length_nil]
  case some i => rw [h.pos, if_pos i.isLt, writes, hr]

end State

end Goroutines
