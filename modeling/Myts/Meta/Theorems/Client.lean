import Myts.Meta.Client
import Myts.Meta.Standard

namespace Meta

open Influx (Package)

variable {I : Package}

theorem Data.index_apply {d : Data} (h : d.apply I E l = some (d', err)) :
    d'.data.index = l.index := by
  rw [Data.apply] at h
  split at h
  case h_1 => cases h
  case h_2 => cases h; rfl
  case h_3 => cases h; rfl
  case h_4 =>
    split at h <;> cases h
    all_goals rfl

theorem Server.index_apply {s : Server} (h : s.apply I E l = some s') :
    s'.data.data.index = l.index := by
  obtain ⟨⟨d, err⟩, hd, rfl⟩ := Option.map_eq_some_iff.mp h
  exact Data.index_apply hd

namespace System

variable {s s' : System}

def Ahead (s : System) : Prop :=
  match s.poll with
  | .waiting _ _ server _ => ∀ srv ∈ s.servers server, s.client.index ≤ srv.data.data.index
  | .answered _ _ pb => s.client.index ≤ pb.index
  | .received data => s.client.index ≤ data.data.index
  | _ => True

structure Coherent (s : System) : Prop where
  ahead : s.Ahead
  calls : ∀ k i, s.calls k = some (.returned (.ok (some i))) → i ≤ s.client.index

theorem init_coherent : (init addrs tls up).Coherent where
  ahead := trivial
  calls := nofun

theorem client_receive : s.receive.client = s.client := by
  unfold receive
  split
  case h_2 => rfl
  case h_1 => split <;> rfl

theorem client_answer : (s.answer I o).client = s.client := by
  unfold answer
  split
  case h_2 => rfl
  case h_1 =>
    split
    case h_2 => rfl
    case h_1 => split <;> rfl

theorem client_fail : s.fail.client = s.client := by
  unfold fail
  split <;> rfl

theorem client_exec : (s.exec k r).client = s.client := by
  unfold exec
  split <;> rfl

theorem client_restart : (s.restart server srv?).client = s.client := by
  unfold restart
  split
  case h_2 => rfl
  case h_1 => split <;> rfl

theorem client_apply : (s.apply I server E l).client = s.client := by
  unfold apply
  split
  case h_2 => rfl
  case h_1 => split <;> rfl

theorem client_restore : (s.restore I server pb).client = s.client := by
  unfold restore
  split
  case h_2 => rfl
  case h_1 => split <;> rfl

namespace Coherent

theorem setCall (h : s.Coherent) (hc : ∀ i, c = .returned (.ok (some i)) → i ≤ s.client.index) :
    (s.setCall k c).Coherent where
  ahead := h.ahead
  calls := by
    intro k' i hk
    by_cases he : k' = k
    case neg => exact h.calls k' i <| by rwa [setCall_calls, Function.update_of_ne he] at hk
    case pos =>
      subst he
      rw [setCall_calls, Function.update_self] at hk
      exact hc i <| Option.some_inj.mp hk

theorem setServer (h : s.Coherent) (hs : ∀ idx cur ch, s.poll = .waiting idx cur server ch →
    ∀ srv ∈ srv?, s.client.index ≤ srv.data.data.index) : (s.setServer server srv?).Coherent where
  calls := h.calls
  ahead := by
    have ha := h.ahead
    unfold Ahead at ha ⊢
    simp only [setServer_poll, setServer_client, setServer_servers]
    split
    case h_1 idx cur server' ch hp =>
      rw [hp] at ha
      intro srv hm
      by_cases he : server' = server
      case neg => exact ha srv <| by rwa [Function.update_of_ne he] at hm
      case pos =>
        subst he
        rw [Function.update_self] at hm
        exact hs idx cur ch hp srv hm
    case h_2 hp => rwa [hp] at ha
    case h_3 hp => rwa [hp] at ha
    case h_4 => trivial

theorem setServer_of_le (h : s.Coherent) (hs : s.servers server = some srv)
    (hle : ∀ srv' ∈ srv?, srv.data.data.index ≤ srv'.data.data.index) :
    (s.setServer server srv?).Coherent := by
  refine h.setServer fun idx cur ch hp srv' hm => ?_
  have ha := h.ahead
  simp only [Ahead, hp] at ha
  exact UInt64.le_trans (ha srv hs) (hle srv' hm)

theorem pollStep (h : s.Coherent) (hs : s.pollStep I = some s') :
    s'.Coherent ∧ s.client.index ≤ s'.client.index := by
  have ha := h.ahead
  unfold Ahead at ha
  unfold System.pollStep at hs
  split at hs
  case h_1 =>
    cases hs
    exact ⟨{ ahead := trivial, calls := h.calls }, UInt64.le_refl _⟩
  case h_2 =>
    split at hs
    case isTrue =>
      split at hs <;> cases hs
      exact ⟨{ ahead := trivial, calls := h.calls }, UInt64.le_refl _⟩
    case isFalse =>
      obtain ⟨_, _, rfl⟩ := Option.map_eq_some_iff.mp hs
      exact ⟨{ ahead := trivial, calls := h.calls }, UInt64.le_refl _⟩
  case h_3 pb hp =>
    cases hs
    rw [hp] at ha
    exact ⟨{ ahead := ha, calls := h.calls }, UInt64.le_refl _⟩
  case h_4 data hp =>
    rw [hp] at ha
    have hc : ∀ k i, s.calls k = some (.returned (.ok (some i))) → i ≤ data.data.index :=
      fun k i hk => UInt64.le_trans (h.calls k i hk) ha
    split at hs <;> cases hs
    all_goals exact ⟨{ ahead := trivial, calls := hc }, ha⟩
  case h_5 =>
    cases hs
    exact ⟨h, UInt64.le_refl _⟩

theorem receive (h : s.Coherent) (hf : Fresh (some s) .receive) : s.receive.Coherent := by
  unfold System.receive
  split
  case h_2 => exact h
  case h_1 server hp =>
    split
    case h_2 => exact h
    case h_1 srv hs =>
      refine { ahead := fun srv' hm => hf s rfl srv' ?_, calls := h.calls }
      rwa [requested?, hp]

theorem answer (h : s.Coherent) : (s.answer I o).Coherent := by
  have ha := h.ahead
  unfold Ahead at ha
  unfold System.answer
  split
  case h_2 => exact h
  case h_1 hp =>
    rw [hp] at ha
    split
    case h_2 => exact h
    case h_1 srv hs =>
      split
      case isFalse => exact h
      case isTrue => exact { ahead := ha srv hs, calls := h.calls }

theorem fail (h : s.Coherent) : s.fail.Coherent := by
  unfold System.fail
  split
  case h_4 => exact h
  all_goals exact { ahead := trivial, calls := h.calls }

theorem advance (h : s.Coherent) (hs : s.advance k = some s') :
    s'.Coherent ∧ s'.client = s.client := by
  unfold System.advance at hs
  split at hs
  case h_1 =>
    split at hs
    case isTrue => cases hs; exact ⟨h.setCall nofun, rfl⟩
    case isFalse =>
      split at hs
      case isTrue => cases hs; exact ⟨h.setCall nofun, rfl⟩
      case isFalse =>
        obtain ⟨_, _, rfl⟩ := Option.map_eq_some_iff.mp hs
        exact ⟨h.setCall nofun, rfl⟩
  case h_2 =>
    split at hs <;> cases hs
    case isTrue hi => exact ⟨h.setCall (by rintro i ⟨⟩; exact hi), rfl⟩
    case isFalse => exact ⟨h.setCall nofun, rfl⟩
  case h_3 =>
    cases hs
    split
    case isTrue => exact ⟨h.setCall nofun, rfl⟩
    case isFalse => exact ⟨h, rfl⟩
  case h_4 => cases hs; exact ⟨h, rfl⟩

theorem exec (h : s.Coherent) : (s.exec k r).Coherent := by
  unfold System.exec
  split
  case h_2 => exact h
  case h_1 =>
    refine h.setCall fun i hc => ?_
    split at hc
    case h_1 => cases hc
    case h_2 =>
      unfold Client.retry at hc
      split at hc
      case isTrue => cases hc
      case isFalse => split at hc <;> cases hc

theorem restart (h : s.Coherent) : (s.restart server srv?).Coherent := by
  unfold System.restart
  split
  case h_1 server' _ hp =>
    split
    case isTrue => exact { ahead := trivial, calls := h.calls }
    case isFalse he =>
      refine h.setServer fun _ _ _ hw => ?_
      cases hp.symm.trans hw
      exact (he rfl).elim
  case h_2 hp => exact h.setServer fun _ _ _ hw => (hp _ _ _ _ hw).elim

theorem apply (h : s.Coherent) : (s.apply I server E l).Coherent := by
  unfold System.apply
  split
  case h_2 => exact h
  case h_1 srv hsrv =>
    split
    case isFalse => exact h
    case isTrue hl =>
      exact h.setServer_of_le hsrv fun srv' h' => Server.index_apply h' ▸ UInt64.le_of_lt hl

theorem restore (h : s.Coherent) : (s.restore I server pb).Coherent := by
  unfold System.restore
  split
  case h_2 => exact h
  case h_1 srv hsrv =>
    split
    case isFalse => exact h
    case isTrue hl =>
      refine h.setServer_of_le hsrv ?_
      rintro _ ⟨⟩
      exact UInt64.le_of_lt hl

end Coherent

theorem step_coherent (h : s.Coherent) (hf : Fresh (some s) e) (hs : step I (some s) e = some s') :
    s'.Coherent ∧ s.client.index ≤ s'.client.index := by
  simp only [step, Option.bind_some] at hs
  cases e
  case poll => exact h.pollStep hs
  case advance => obtain ⟨h, hc⟩ := h.advance hs; exact ⟨h, hc ▸ UInt64.le_refl _⟩
  case receive => cases hs; exact ⟨h.receive hf, client_receive ▸ UInt64.le_refl _⟩
  case answer => cases hs; exact ⟨h.answer, client_answer ▸ UInt64.le_refl _⟩
  case fail => cases hs; exact ⟨h.fail, client_fail ▸ UInt64.le_refl _⟩
  case call =>
    cases hs
    split
    case isTrue => exact ⟨h.setCall nofun, UInt64.le_refl _⟩
    case isFalse => exact ⟨h, UInt64.le_refl _⟩
  case exec => cases hs; exact ⟨h.exec, client_exec ▸ UInt64.le_refl _⟩
  case setMetaServers => cases hs; exact ⟨{ ahead := h.ahead, calls := h.calls }, UInt64.le_refl _⟩
  case close => cases hs; exact ⟨{ ahead := h.ahead, calls := h.calls }, UInt64.le_refl _⟩
  case apply => cases hs; exact ⟨h.apply, client_apply ▸ UInt64.le_refl _⟩
  case restore => cases hs; exact ⟨h.restore, client_restore ▸ UInt64.le_refl _⟩
  case restart => cases hs; exact ⟨h.restart, client_restart ▸ UInt64.le_refl _⟩

theorem run_coherent (h : s.Coherent) (hr : Run (step I) Fresh (some s) (some s')) :
    s'.Coherent ∧ s.client.index ≤ s'.client.index := by
  refine hr.invariant (I := fun t => ∀ t' ∈ t, t'.Coherent ∧ s.client.index ≤ t'.client.index)
    ?_ ?_ s' rfl
  · rintro _ ⟨⟩
    exact ⟨h, UInt64.le_refl _⟩
  · intro t e ht hf t' ht'
    obtain ⟨t, rfl, -⟩ := Option.bind_eq_some_iff.mp ht'
    obtain ⟨hc, hle⟩ := ht t rfl
    obtain ⟨hc', hle'⟩ := step_coherent hc hf ht'
    exact ⟨hc', UInt64.le_trans hle hle'⟩

-- The cache never goes back, and a call that has returned is seen by all later reads of the cache.
theorem cache_monotone (h : Run (step I) Fresh (some (init addrs tls up)) (some s))
    (h' : Run (step I) Fresh (some s) (some s')) :
    s.client.index ≤ s'.client.index
      ∧ ∀ k i, s.calls k = some (.returned (.ok (some i))) → i ≤ s'.client.index := by
  have hc := run_coherent init_coherent h |>.left
  have hle := run_coherent hc h' |>.right
  exact ⟨hle, fun k i hk => UInt64.le_trans (hc.calls k i hk) hle⟩

def twoServers (a b : UInt64) : String → Option Server
  | "a" => some { data := { Data.empty with data.index := a }, dataChanged := 0 }
  | "b" => some { data := { Data.empty with data.index := b }, dataChanged := 0 }
  | _ => none

def entry (index : UInt64) : Log where
  term := 1
  index := index
  cmd := .createDatabase "db" none

def opening (index : UInt64) : List Event :=
  [.poll, .fail, .poll, .receive, .answer ⟨[], fun _ => []⟩, .poll, .poll,
    .call 0, .advance 0, .exec 0 (.ok index), .advance 0]

def polling (index : UInt64) : List Event :=
  [.poll, .poll, .receive, .apply "a" (.follower (.ascending 1) []) (entry index),
    .answer ⟨[], fun _ => []⟩, .poll, .poll]

theorem cache_monotone_up_to_date :
    let s := (opening 10).foldl (step .standard) (some (init ["a", "b"] false (twoServers 10 10)))
    let s' := (polling 11).foldl (step .standard) s
    s'.map (·.client.index) = some 11 ∧ ∀ t ∈ s, ∀ t' ∈ s', t.client.index ≤ t'.client.index
      ∧ ∀ k i, t.calls k = some (.returned (.ok (some i))) → i ≤ t'.client.index := by
  refine ⟨by decide +kernel, fun t ht t' ht' => ?_⟩
  exact cache_monotone (.of_foldl_eq _ ht (by decide +kernel))
    (.of_foldl_eq _ (ht ▸ ht') (ht ▸ by decide +kernel))

-- The first server has fallen behind. It answers when it applies its next entry.
theorem cache_goes_back :
    ∃ s s', (opening 10).foldl (step .standard)
        (some (init ["a", "b"] false (twoServers 5 10))) = some s
      ∧ (polling 6).foldl (step .standard) (some s) = some s'
      ∧ s.calls 0 = some (.returned (.ok (some 10)))
      ∧ s.client.index = 10 ∧ s'.client.index = 6 := by
  refine ⟨_, _, Option.some_get (?_ : Option.isSome _ = true) |>.symm,
    Option.some_get (?_ : Option.isSome _ = true) |>.symm, ?_, ?_, ?_⟩
  case refine_3 => rfl
  all_goals decide +kernel

end System
end Meta
