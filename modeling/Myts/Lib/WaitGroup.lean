import Myts.Lib.Run

-- As long as the goal is not reached something can happen, and whatever happens leads to it.
inductive Inevitable {σ : Type u} {ι : Type v} (step : σ → ι → σ) (goal : σ → Prop) : σ → Prop
  | now : goal s → Inevitable step goal s
  | later : (∃ i, step s i ≠ s) → (∀ i, step s i ≠ s → Inevitable step goal (step s i)) →
    Inevitable step goal s

namespace Inevitable

variable {step : σ → ι → σ} {goal C : σ → Prop} {s : σ}

theorem of_measure (μ : σ → Nat) (hc : ∀ {s i}, C s → C (step s i))
    (hm : ∀ {s i}, C s → step s i ≠ s → μ (step s i) < μ s)
    (hp : ∀ {s}, C s → ¬goal s → ∃ i, step s i ≠ s) (h : C s) : Inevitable step goal s := by
  induction hk : μ s using Nat.strong_induction_on generalizing s
  case h k hi =>
    by_cases hg : goal s
    case pos => exact .now hg
    case neg => exact .later (hp h hg) fun i hs => hi _ (hk ▸ hm h hs) (hc h) rfl

theorem exists_reached (h : Inevitable step goal s) : ∃ is : List ι, goal (is.foldl step s) := by
  induction h
  case now h => exact ⟨[], h⟩
  case later he _ hi =>
    have ⟨i, hs⟩ := he
    have ⟨is, h⟩ := hi i hs
    exact ⟨i :: is, h⟩

end Inevitable

-- A loop that starts `n` goroutines, waits for all of them and then takes a value from a channel if
-- there is one. Each goroutine sends at most one value, and nobody receives from the channel before.
namespace WaitGroup

inductive Phase
  | idle
  | running
  | sending
  | exiting
  | done
deriving DecidableEq

namespace Phase

def rank : Phase → Nat
  | idle => 4
  | running => 3
  | sending => 2
  | exiting => 1
  | done => 0

def Past : Phase → Prop
  | exiting | done => True
  | _ => False

instance : DecidablePred Past
  | idle | running | sending => .isFalse id
  | exiting | done => .isTrue trivial

end Phase

structure Job (n : Nat) (α : Type) where
  sends : Fin n → Option α
  cap : Nat

structure State (n : Nat) (α : Type) where
  started : Nat
  phase : Fin n → Phase
  chan : List α
  returned : Option (Option α)

inductive Event (n : Nat)
  | start
  | finish (i : Fin n)
  | send (i : Fin n)
  | exit (i : Fin n)
  | ret
deriving DecidableEq

namespace State

def init : State n α where
  started := 0
  phase := fun _ => .idle
  chan := []
  returned := none

@[simps]
def set (s : State n α) (i : Fin n) (p : Phase) : State n α :=
  { s with phase := Function.update s.phase i p }

variable (J : Job n α) (s : State n α)

def start : State n α :=
  if h : s.started < n then { s.set ⟨s.started, h⟩ .running with started := s.started + 1 } else s

def finish (i : Fin n) : State n α :=
  if s.phase i = .running then s.set i (if (J.sends i).isSome then .sending else .exiting) else s

def send (i : Fin n) : State n α :=
  if s.phase i = .sending ∧ s.chan.length < J.cap then
    { s.set i .exiting with chan := s.chan ++ (J.sends i).toList }
  else
    s

def exit (i : Fin n) : State n α :=
  if s.phase i = .exiting then s.set i .done else s

def ret : State n α :=
  if s.returned = none ∧ s.started = n ∧ ∀ i, s.phase i = .done then
    { s with returned := some s.chan.head? }
  else
    s

def step (s : State n α) : Event n → State n α
  | .start => s.start
  | .finish i => s.finish J i
  | .send i => s.send J i
  | .exit i => s.exit i
  | .ret => s.ret

def Blocked : Prop :=
  ∃ i, s.phase i = .sending ∧ ¬s.chan.length < J.cap

instance : Decidable (s.Blocked J) := inferInstanceAs (Decidable (∃ _, _))

def Returned : Prop :=
  s.returned.isSome

end State

def Job.load (J : Job n α) : Nat :=
  ∑ i, (J.sends i).toList.length

def Job.sent (J : Job n α) (i : Fin n) (p : Phase) : Multiset α :=
  if p.Past then (J.sends i).toList else 0

namespace State

structure Coherent (J : Job n α) (s : State n α) : Prop where
  started : s.started ≤ n
  idle : ∀ i, s.phase i = .idle ↔ s.started ≤ i
  sending : ∀ i, s.phase i = .sending → (J.sends i).isSome
  chan : (s.chan : Multiset α) = ∑ i, J.sent i (s.phase i)
  cap : s.chan.length ≤ J.cap
  returned : ∀ r ∈ s.returned, (∀ i, s.phase i = .done) ∧ r = s.chan.head?

variable {J : Job n α} {s : State n α} {i : Fin n} {e : Event n}

theorem coherent_init : (init : State n α).Coherent J where
  started := Nat.zero_le _
  idle _ := by simp [init]
  sending := by simp [init]
  chan := by simp [init, Job.sent, Phase.Past]
  cap := Nat.zero_le _
  returned := by simp [init]

theorem sum_update [AddCommMonoid M] (f : Fin n → Phase → M) (phase : Fin n → Phase) :
    f i (phase i) + ∑ j, f j (Function.update phase i p j) = f i p + ∑ j, f j (phase j) := by
  have hi := Finset.mem_univ i
  have hj : ∀ j ∈ Finset.univ.erase i, f j (Function.update phase i p j) = f j (phase j) :=
    fun j hj => by rw [Function.update_of_ne (Finset.ne_of_mem_erase hj)]
  rw [← Finset.add_sum_erase _ _ hi, Finset.sum_congr rfl hj, Function.update_self,
    ← Finset.add_sum_erase _ _ hi]
  exact add_left_comm _ _ _

theorem Coherent.move (h : s.Coherent J) (vs : List α) (hd : s.phase i ≠ .done) (hk : k ≤ n)
    (hi : ∀ j, Function.update s.phase i p j = .idle ↔ k ≤ j)
    (hs : p = .sending → (J.sends i).isSome) (hv : J.sent i p = J.sent i (s.phase i) + vs)
    (hc : (s.chan ++ vs).length ≤ J.cap) :
    ({ s.set i p with started := k, chan := s.chan ++ vs } : State n α).Coherent J where
  started := hk
  idle := hi
  sending j hj := by
    by_cases he : j = i
    case pos =>
      subst he
      exact hs <| by simpa using hj
    case neg => exact h.sending j <| by simpa [Function.update_of_ne he] using hj
  chan := by
    have hu := sum_update J.sent s.phase (i := i) (p := p)
    rw [hv, add_assoc] at hu
    have hu := add_left_cancel hu
    change ((s.chan ++ vs : List α) : Multiset α) = ∑ j, J.sent j (Function.update s.phase i p j)
    rw [hu, ← h.chan, add_comm]
    rfl
  cap := hc
  returned r hr := absurd ((h.returned r hr).left i) hd

theorem Coherent.move_silently (h : s.Coherent J) (hd : s.phase i ≠ .done) (hk : k ≤ n)
    (hi : ∀ j, Function.update s.phase i p j = .idle ↔ k ≤ j)
    (hs : p = .sending → (J.sends i).isSome) (hv : J.sent i p = J.sent i (s.phase i)) :
    ({ s.set i p with started := k } : State n α).Coherent J := by
  have hm := h.move [] hd hk hi hs (by simpa using hv) (by simpa using h.cap)
  simp only [List.append_nil] at hm
  exact hm

theorem Coherent.idle_update (h : s.Coherent J) (hi : s.phase i ≠ .idle) (hp : p ≠ .idle) (j : Fin n) :
    Function.update s.phase i p j = .idle ↔ s.started ≤ j := by
  rw [← h.idle]
  by_cases he : j = i
  case pos =>
    subst he
    simp [hi, hp]
  case neg => rw [Function.update_of_ne he]

inductive Moves (J : Job n α) (s : State n α) : State n α → Prop
  | start (h : s.started < n) :
    Moves J s { s.set ⟨s.started, h⟩ .running with started := s.started + 1 }
  | finish (i : Fin n) (h : s.phase i = .running) :
    Moves J s (s.set i (if (J.sends i).isSome then .sending else .exiting))
  | send (i : Fin n) (h : s.phase i = .sending) (hc : s.chan.length < J.cap) :
    Moves J s { s.set i .exiting with chan := s.chan ++ (J.sends i).toList }
  | exit (i : Fin n) (h : s.phase i = .exiting) : Moves J s (s.set i .done)
  | ret (h : s.returned = none) (hs : s.started = n) (hd : ∀ i, s.phase i = .done) :
    Moves J s { s with returned := some s.chan.head? }

theorem step_eq_or_moves : s.step J e = s ∨ Moves J s (s.step J e) := by
  cases e <;> simp only [step]
  case start =>
    rw [start]
    split
    case isTrue h => exact .inr (.start h)
    case isFalse => exact .inl rfl
  case finish i =>
    rw [finish]
    split
    case isTrue h => exact .inr (.finish i h)
    case isFalse => exact .inl rfl
  case send i =>
    rw [send]
    split
    case isTrue h => exact .inr (.send i h.left h.right)
    case isFalse => exact .inl rfl
  case exit i =>
    rw [exit]
    split
    case isTrue h => exact .inr (.exit i h)
    case isFalse => exact .inl rfl
  case ret =>
    rw [ret]
    split
    case isTrue h => exact .inr (.ret h.1 h.2.1 h.2.2)
    case isFalse => exact .inl rfl

theorem Coherent.moves (h : s.Coherent J) (hm : Moves J s s') : s'.Coherent J := by
  cases hm
  case start hs =>
    have hi := (h.idle ⟨s.started, hs⟩).mpr le_rfl
    refine h.move_silently (by simp [hi]) hs (fun j => ?_) nofun (by simp [Job.sent, Phase.Past, hi])
    by_cases he : j = ⟨s.started, hs⟩
    case pos => simp [he]
    case neg =>
      rw [Function.update_of_ne he, h.idle]
      have := Fin.val_ne_of_ne he
      dsimp only at this
      omega
  case finish i hp =>
    refine h.move_silently (by simp [hp]) h.started (h.idle_update (by simp [hp]) ?_) ?_ ?_
    · split <;> nofun
    · split <;> simp_all
    · cases hj : J.sends i <;> simp [Job.sent, hp, Phase.Past, hj]
  case send i hp hc =>
    refine h.move _ (by simp [hp]) h.started (h.idle_update (by simp [hp]) nofun) nofun ?_ ?_
    · simp [Job.sent, hp, Phase.Past]
    · cases J.sends i <;> simp <;> omega
  case exit i hp =>
    exact h.move_silently (by simp [hp]) h.started (h.idle_update (by simp [hp]) nofun) nofun
      (by simp [Job.sent, hp, Phase.Past])
  case ret hr _ hd =>
    exact { h with returned := by rintro _ ⟨⟩; exact ⟨hd, rfl⟩ }

theorem Coherent.step (h : s.Coherent J) : (s.step J e).Coherent J := by
  obtain he | hm := step_eq_or_moves (J := J) (s := s) (e := e)
  case inl => exact he.symm ▸ h
  case inr => exact h.moves hm

def measure (s : State n α) : Nat :=
  ∑ i, (s.phase i).rank + if s.returned.isSome then 0 else 1

theorem sum_rank_update (hp : p.rank < (s.phase i).rank) :
    ∑ j, (Function.update s.phase i p j).rank < ∑ j, (s.phase j).rank := by
  have := sum_update (fun _ => Phase.rank) s.phase (i := i) (p := p)
  omega

theorem Coherent.measure_lt (h : s.Coherent J) (hm : Moves J s s') : s'.measure < s.measure := by
  cases hm
  case start hs =>
    have hi := (h.idle ⟨s.started, hs⟩).mpr le_rfl
    exact Nat.add_lt_add_right (sum_rank_update (by rw [hi]; decide)) _
  case finish i hp =>
    refine Nat.add_lt_add_right (sum_rank_update ?_) _
    rw [hp]
    split <;> decide
  case send i hp _ => exact Nat.add_lt_add_right (sum_rank_update (by rw [hp]; decide)) _
  case exit i hp => exact Nat.add_lt_add_right (sum_rank_update (by rw [hp]; decide)) _
  case ret hr _ _ => simp [measure, hr]

theorem Coherent.chan_length (h : s.Coherent J) :
    s.chan.length = ∑ i, (J.sent i (s.phase i)).card := by
  rw [← Multiset.coe_card, h.chan, Multiset.card_sum]

theorem Coherent.not_blocked (h : s.Coherent J) (hl : J.load ≤ J.cap) : ¬s.Blocked J := by
  rintro ⟨i, hi, hc⟩
  refine hc <| lt_of_lt_of_le ?_ hl
  rw [h.chan_length]
  refine Finset.sum_lt_sum (fun j _ => ?_) ⟨i, Finset.mem_univ i, ?_⟩
  · unfold Job.sent; split <;> simp
  · have := h.sending i hi
    cases hj : J.sends i <;> simp_all [Job.sent, Phase.Past]

theorem Coherent.exists_move (h : s.Coherent J) (hb : ¬s.Blocked J) (hr : ¬s.Returned) :
    ∃ e, s.step J e ≠ s := by
  by_cases hs : s.started = n
  case neg =>
    have hs := lt_of_le_of_ne h.started hs
    refine ⟨.start, fun he => ?_⟩
    have := congrArg State.started he
    simp [State.step, start, hs] at this
  by_cases hd : ∀ i, s.phase i = .done
  case pos =>
    have hr : s.returned = none := by simpa [Returned] using hr
    refine ⟨.ret, fun he => ?_⟩
    have := congrArg State.returned he
    simp [State.step, ret, hr, hs, hd] at this
  push Not at hd
  obtain ⟨i, hd⟩ := hd
  have changes {e : Event n} (he : (s.step J e).phase i ≠ s.phase i) : ∃ e, s.step J e ≠ s :=
    ⟨e, fun hs => he (by rw [hs])⟩
  cases hp : s.phase i
  case idle => exact absurd ((h.idle i).mp hp) (by omega)
  case running =>
    refine changes (e := .finish i) ?_
    cases hj : J.sends i <;> simp [State.step, finish, hp, hj]
  case sending =>
    have hc : s.chan.length < J.cap := by
      by_contra hc
      exact hb ⟨i, hp, hc⟩
    exact changes (e := .send i) (by simp [State.step, send, hp, hc])
  case exiting => exact changes (e := .exit i) (by simp [State.step, exit, hp])
  case done => exact absurd hp hd

theorem Coherent.load_le (h : s.Coherent J) (hr : s.Returned) : J.load ≤ J.cap := by
  obtain ⟨r, hr⟩ := Option.isSome_iff_exists.mp hr
  have hd := (h.returned r hr).left
  calc J.load
      = ∑ i, (J.sent i (s.phase i)).card := by simp [Job.load, Job.sent, hd, Phase.Past]
    _ = s.chan.length := h.chan_length.symm
    _ ≤ J.cap := h.cap

theorem Coherent.sends_eq_none (h : s.Coherent J) (hr : s.returned = some none) (i : Fin n) :
    J.sends i = none := by
  obtain ⟨hd, hc⟩ := h.returned none hr
  have hl : (s.chan : Multiset α) = 0 := by simpa using hc.symm
  rw [h.chan, Finset.sum_eq_zero_iff] at hl
  have := hl i (Finset.mem_univ i)
  cases hj : J.sends i <;> simp_all [Job.sent, Phase.Past]

theorem coherent_foldl (J : Job n α) (es : List (Event n)) : (es.foldl (step J) init).Coherent J := by
  induction es using List.reverseRecOn
  case nil => exact coherent_init
  case append_singleton hi => simpa using hi.step

-- The end is reached if and only if the channel has room for all values.
theorem inevitable_iff : Inevitable (step J) Returned init ↔ J.load ≤ J.cap := by
  constructor
  case mp =>
    intro h
    have ⟨es, hr⟩ := h.exists_reached
    exact (coherent_foldl J es).load_le hr
  case mpr =>
    intro hl
    refine .of_measure measure (fun h => h.step) (fun h he => ?_)
      (fun h => h.exists_move (h.not_blocked hl)) coherent_init
    exact h.measure_lt <| step_eq_or_moves.resolve_left he

end State
end WaitGroup
