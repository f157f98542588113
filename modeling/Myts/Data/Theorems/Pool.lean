import Myts.Data.Pool

open List

namespace BoundedPool.State

variable {s : State κ}

def weight : Getting κ → Nat
  | .factory | .created _ => 1
  | _ => 0

def reserved (s : State κ) : Nat :=
  (s.gets.map weight).sum

theorem opened_add_opening :
    s.opened + s.opening = s.pool.conns.length + s.held.length + s.reserved := by
  have hg : s.gets.countP Getting.isCreated + s.opening = s.reserved := by
    rw [opening, reserved]
    induction s.gets
    case nil => rfl
    case cons g l hi =>
      rw [countP_cons, countP_cons, map_cons, sum_cons, ← hi]
      cases g <;> simp [weight, Getting.isCreated, Getting.isFactory] <;> omega
  rw [opened, add_assoc, hg]

structure Sound (m : Nat) (s : State κ) : Prop where
  cap : s.pool.cap = m
  total : s.pool.total.toInt = s.pool.conns.length + s.held.countP (!·.unusable)
  bound : s.pool.conns.length + s.held.length + s.reserved ≤ m

theorem sound_new {conns : List κ} (h : conns.length ≤ m) (hm : m < 2 ^ 31) :
    (new conns m).Sound m where
  cap := rfl
  total := by simp [State.new, Int32.toInt_ofNat_of_lt (h.trans_lt hm)]
  bound := by simpa [State.new, reserved] using h

variable [DecidableEq κ]

theorem reserved_erase (h : g ∈ s.gets) :
    ((s.gets.erase g).map weight).sum + weight g = s.reserved := by
  rw [reserved, ((perm_cons_erase h).map weight).sum_eq, map_cons, sum_cons, add_comm]

theorem countP_erase_add {l : List (PooledConn κ)} (h : p ∈ l) :
    (l.erase p).countP (!·.unusable) + (if p.unusable then 0 else 1) = l.countP (!·.unusable) := by
  rw [(perm_cons_erase h).countP_eq, countP_cons]
  cases p.unusable <;> rfl

theorem Sound.advance (h : s.Sound m) (hg : g ∈ s.gets)
    (hb : s.pool.conns.length + s.held.length + s.reserved + weight g' ≤ m + weight g) :
    (s.advance g g').Sound m where
  cap := h.cap
  total := h.total
  bound := by
    have hr := reserved_erase hg
    have he : (s.advance g g').reserved = weight g' + ((s.gets.erase g).map weight).sum := rfl
    rw [he]
    change s.pool.conns.length + s.held.length + _ ≤ m
    omega

theorem sound_erase (h : s.Sound m) (hg : g ∈ s.gets) :
    { s with gets := s.gets.erase g }.Sound m where
  cap := h.cap
  total := h.total
  bound := by
    have hr := reserved_erase hg
    have hb := h.bound
    change s.pool.conns.length + s.held.length + ((s.gets.erase g).map weight).sum ≤ m
    omega

theorem sound_handOut (hc : s.pool.cap = m) (hg : g ∈ s.gets)
    (ht : s.pool.total.toInt = s.pool.conns.length + s.held.countP (!·.unusable) + 1)
    (hb : s.pool.conns.length + s.held.length + 1 + s.reserved ≤ m + weight g) :
    (s.handOut g conn).Sound m where
  cap := hc
  total := by
    change s.pool.total.toInt
      = s.pool.conns.length + ((⟨conn, false⟩ :: s.held).countP (!·.unusable) : Nat)
    rw [countP_cons_of_pos rfl, ht]
    omega
  bound := by
    have hr := reserved_erase hg
    change s.pool.conns.length + (s.held.length + 1) + ((s.gets.erase g).map weight).sum ≤ m
    omega

theorem Sound.take (h : s.Sound m) (hc : s.pool.conns = conn :: rest) (hg : g ∈ s.gets)
    (hw : weight g = 0) : ({ s with pool.conns := rest }.handOut g conn).Sound m := by
  have ht := h.total
  have hb := h.bound
  rw [hc, length_cons] at ht hb
  refine sound_handOut h.cap hg ?_ ?_
  · rw [ht]; push_cast; ring
  · change rest.length + s.held.length + 1 + s.reserved ≤ m + weight g
    omega

theorem toInt_add_one {n : Int32} {k : Nat} (hn : n.toInt = k) (hk : k < 2 ^ 31 - 1) :
    (n + 1).toInt = k + 1 := by
  rw [Int32.toInt_add, hn, show (1 : Int32).toInt = 1 from rfl]
  exact Int.bmod_eq_of_le (by omega) (by omega)

theorem toInt_sub_one {n : Int32} {k : Nat} (hn : n.toInt = k + 1) (hk : k < 2 ^ 31 - 1) :
    (n - 1).toInt = k := by
  rw [Int32.toInt_sub, hn, show (1 : Int32).toInt = 1 from rfl]
  exact (Int.bmod_eq_of_le (by omega) (by omega)).trans (by omega)

theorem sound_addTotal (h : s.Sound m) (hm : m < 2 ^ 31) (hg : .created conn ∈ s.gets) :
    ({ s with pool.total := s.pool.total + 1 }.handOut (.created conn) conn).Sound m := by
  have hb := h.bound
  have hr := reserved_erase hg
  have hl : s.held.countP (!·.unusable) ≤ s.held.length := countP_le_length
  have hw : weight (.created conn) = 1 := rfl
  refine sound_handOut h.cap hg ?_ ?_
  · have ht := toInt_add_one (k := s.pool.conns.length + s.held.countP (!·.unusable))
      (by exact_mod_cast h.total) (by omega)
    exact ht.trans <| by push_cast; rfl
  · change s.pool.conns.length + s.held.length + 1 + s.reserved ≤ m + weight (.created conn)
    omega

theorem sound_markUnusable (h : s.Sound m) (hm : m < 2 ^ 31) (hp : p ∈ s.held)
    (hu : p.unusable = false) : { s with
      pool.total := s.pool.total - 1
      held := { p with unusable := true } :: s.held.erase p }.Sound m := by
  have hb := h.bound
  have hc := countP_erase_add hp
  have hl := length_erase_add_one hp
  have hle : s.held.countP (!·.unusable) ≤ s.held.length := countP_le_length
  rw [hu] at hc
  constructor
  case cap => exact h.cap
  case total =>
    have ht : s.pool.total.toInt
        = (s.pool.conns.length + (s.held.erase p).countP (!·.unusable) : Nat) + 1 := by
      rw [h.total, ← hc]
      push_cast
      ring
    dsimp only
    rw [toInt_sub_one ht (by simp at hc; omega), countP_cons_of_neg (by simp)]
    push_cast
    rfl
  case bound =>
    change s.pool.conns.length + ((s.held.erase p).length + 1) + s.reserved ≤ m
    omega

theorem sound_close (h : s.Sound m) (hp : p ∈ s.held) :
    { s with pool := s.pool.close p, held := s.held.erase p }.Sound m := by
  have hb := h.bound
  have hc := countP_erase_add hp
  have hl := length_erase_add_one hp
  rw [BoundedPool.close]
  cases hu : p.unusable <;> rw [hu] at hc
  case true =>
    constructor
    case cap => exact h.cap
    case total => exact h.total.trans <| by rw [← hc]; rfl
    case bound =>
      change s.pool.conns.length + (s.held.erase p).length + s.reserved ≤ m
      omega
  case false =>
    -- There is room for the connection since it is counted itself.
    have hroom : s.pool.conns.length < s.pool.cap := by rw [h.cap]; omega
    simp only [Bool.false_eq_true, if_false, put, if_pos hroom]
    constructor
    case cap => exact h.cap
    case total =>
      dsimp only
      rw [h.total, ← hc, length_append, length_singleton, if_neg Bool.false_ne_true]
      push_cast
      ring
    case bound =>
      change (s.pool.conns ++ [p.conn]).length + (s.held.erase p).length + s.reserved ≤ m
      rw [length_append, length_singleton]
      omega

theorem step_sound (h : s.Sound m) (hm : m < 2 ^ 31) (ho : s.Orderly e) : (s.step e).Sound m := by
  have hb := h.bound
  cases e <;> simp only [step]
  case get =>
    exact { cap := h.cap, total := h.total, bound := by simpa [reserved, weight] using hb }
  case select =>
    split
    case isFalse => exact h
    case isTrue hg =>
      split
      case h_1 => exact h.advance hg (by simpa [weight] using hb)
      case h_2 hc => exact h.take hc hg rfl
  case loadTotal =>
    split
    case isFalse => exact h
    case isTrue hg =>
      refine h.advance hg ?_
      split
      case isFalse => simpa [weight] using hb
      case isTrue ht =>
        have ho := ho hg ht
        rw [opened_add_opening, h.cap] at ho
        change _ + 1 ≤ m + 0
        omega
  case factory conn =>
    split
    case isFalse => exact h
    case isTrue hg =>
      cases conn
      case none => exact sound_erase h hg
      case some => exact h.advance hg (by simpa [weight] using hb)
  case addTotal conn =>
    split
    case isTrue hg => exact sound_addTotal h hm hg
    case isFalse => exact h
  case receive =>
    split
    case isFalse => exact h
    case isTrue hg =>
      split
      case h_1 => exact h
      case h_2 hc => exact h.take hc hg rfl
  case timeout =>
    by_cases hg : .waiting ∈ s.gets
    case pos => exact sound_erase h hg
    case neg => rwa [erase_of_not_mem hg]
  case markUnusable p =>
    split
    case isTrue hp => exact sound_markUnusable h hm hp ho
    case isFalse => exact h
  case close p deferred =>
    split
    case isFalse => exact h
    case isTrue hp =>
      have he : (if deferred then { p with unusable := false } else p) = p := by
        cases deferred
        case false => rfl
        case true => cases p; cases ho rfl; rfl
      rw [he]
      exact sound_close h hp

theorem pool_bounded {conns : List κ} (hm : m < 2 ^ 31) (hc : conns.length ≤ m)
    (h : Run step Orderly (new conns m) s) :
    s.opened ≤ m ∧ (s.Quiet → s.pool.total.toInt = s.opened) := by
  have hs := h.invariant (sound_new hc hm) fun hs ho => step_sound hs hm ho
  have hb := hs.bound
  rw [← opened_add_opening] at hb
  refine ⟨by omega, fun ⟨hg, hh⟩ => ?_⟩
  have hu : s.held.countP (!·.unusable) = s.held.length :=
    countP_eq_length.mpr fun p hp => by simp [hh p hp]
  rw [hs.total, opened, hg, hu]
  simp

theorem pool_bounded_unusable :
    let s := [.get, .select, .get, .select, .loadTotal, .factory (some 1), .addTotal 1,
      .markUnusable ⟨1, false⟩, .close ⟨1, true⟩ false, .close ⟨0, false⟩ true].foldl step (new [0] 2)
    s.Quiet ∧ s.opened = 1 ∧ s.opened ≤ 2 ∧ (s.Quiet → s.pool.total.toInt = s.opened) :=
  ⟨by decide +kernel, by decide +kernel,
    pool_bounded (by decide) (by decide) <| .foldl (by decide +kernel)⟩

-- Two calls find the same total. There are three connections then, and one of them has no place in
-- the channel, although it stays in the total.
theorem pool_exceeded :
    let s := [.get, .select, .get, .get, .select, .select, .loadTotal, .loadTotal,
      .factory (some 1), .factory (some 2), .addTotal 1, .addTotal 2].foldl step (new [0] 2)
    let t := [.close ⟨0, false⟩ true, .close ⟨1, false⟩ true, .close ⟨2, false⟩ true].foldl step s
    s.opened = 3 ∧ t.Quiet ∧ t.opened = 2 ∧ t.pool.total.toInt = 3 := by
  decide +kernel

end BoundedPool.State
