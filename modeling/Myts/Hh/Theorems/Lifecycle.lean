import Myts.Hh.Lifecycle

namespace Hh.Lifecycle.Processor

variable {s s' : Processor} {e : Event}

inductive Moves (s : Processor) : Event → Processor → Prop
  | call (k : Nat) (h : s.calls k = none) : Moves s (.call k m) (s.setCall k ⟨m, .entering⟩)
  | announce (k : Nat) (h : s.calls k = some ⟨m, .entering⟩) (hm : m ≠ .writeShard)
    (hu : s.mu.announce (.call k) = some u) :
    Moves s (.announce k) { s.setCall k ⟨m, .announced⟩ with mu := u }
  | lock (k : Nat) (h : s.calls k = some ⟨m, .announced⟩) (hu : s.mu.lock (.call k) = some u) :
    Moves s (.lock k) { s.setCall k ⟨m, .locked⟩ with mu := u }
  | rlock (k : Nat) (h : s.calls k = some ⟨.writeShard, .entering⟩)
    (hu : s.mu.rlock (.call k) = some u) :
    Moves s (.rlock k) { s.setCall k ⟨.writeShard, .locked⟩ with mu := u }
  -- A call that holds the lock goes on. It may change the channel, and a sender is started if there
  -- is no channel.
  | body (k : Nat) (h : s.calls k = some ⟨m, .locked⟩) (hp : p = .leaving ∨ p = .waiting ∧ m = .close)
    (hr : r = s.sender ∨ r = some .select ∧ m = .open_ ∧ s.done = none) :
    Moves s (.body k ok) { s.setCall k ⟨m, p⟩ with done := d, sender := r }
  | wait (k : Nat) (h : s.calls k = some ⟨m, .waiting⟩) (hr : s.sender = none) :
    Moves s (.wait k) { s.setCall k ⟨m, .leaving⟩ with done := none }
  | unlock (k : Nat) (h : s.calls k = some ⟨m, .leaving⟩) :
    Moves s (.unlock k) { s.setCall k ⟨m, .returned⟩ with mu := s.release k m }
  | stop (h : s.sender = some .select) (hd : s.done = some true) :
    Moves s .stop { s with sender := none }
  | purge (h : s.sender = some .select) : Moves s .purge { s with sender := some .purging }
  | purged (h : s.sender = some .purging) : Moves s .purged { s with sender := some .select }
  | retry (h : s.sender = some .select) : Moves s .retry { s with sender := some .entering }
  | rlockSender (h : s.sender = some .entering) (hu : s.mu.rlock .sender = some u) :
    Moves s .rlockSender { s with mu := u, sender := some .sending }
  | sent (h : s.sender = some .sending) :
    Moves s (.sent ok) { s with
      mu := s.mu.runlock .sender
      sender := some (if ok then .sleeping else .select) }
  | wake (h : s.sender = some .sleeping) : Moves s .wake { s with sender := some .entering }

theorem moves_acquire {c : Call} (h : ∀ u, v = some u → Moves s e { s.setCall k c with mu := u }) :
    s.acquire k c v = s ∨ Moves s e (s.acquire k c v) := by
  cases v
  case none => exact .inl rfl
  case some u => exact .inr (h u rfl)

theorem moves_onCall (h : ∀ c, s.calls k = some c → f c = s ∨ Moves s e (f c)) :
    s.onCall k f = s ∨ Moves s e (s.onCall k f) := by
  rw [onCall]
  split
  case h_1 c hc => exact h c hc
  case h_2 => exact .inl rfl

theorem moves_ite {c : Prop} [Decidable c] {t : Processor} (h : c → t = s ∨ Moves s e t) :
    (if c then t else s) = s ∨ Moves s e (if c then t else s) := by
  split
  case isTrue hc => exact h hc
  case isFalse => exact .inl rfl

theorem moves_body (h : s.calls k = some ⟨m, .locked⟩) : Moves s (.body k ok) (s.body k ok m) := by
  cases m <;> simp only [body]
  case open_ =>
    split
    case isTrue => exact .body k h (.inl rfl) (.inl rfl)
    case isFalse hd =>
      split
      case isTrue => exact .body k h (.inl rfl) (.inr ⟨rfl, rfl, by simpa using hd⟩)
      case isFalse => exact .body k h (.inl rfl) (.inl rfl)
  case close =>
    split
    case isTrue => exact .body k h (.inl rfl) (.inl rfl)
    case isFalse => exact .body k h (.inr ⟨rfl, rfl⟩) (.inl rfl)
  case writeShard => exact .body k h (.inl rfl) (.inl rfl)

theorem step_eq_or_moves (s : Processor) (e : Event) : s.step e = s ∨ Moves s e (s.step e) := by
  cases e <;> simp only [step]
  case call k m => exact moves_ite fun h => .inr (.call k h)
  case announce k =>
    refine moves_onCall fun c hc => moves_ite fun h => moves_acquire fun _ hu => ?_
    exact .announce k (by rw [hc, ← h.left]) h.right hu
  case lock k =>
    refine moves_onCall fun c hc => moves_ite fun h => moves_acquire fun _ hu => ?_
    exact .lock k (by rw [hc, ← h]) hu
  case rlock k =>
    refine moves_onCall fun c hc => moves_ite fun h => moves_acquire fun _ hu => ?_
    obtain ⟨_, _⟩ := c
    obtain ⟨rfl, rfl⟩ := h
    exact .rlock k hc hu
  case body k ok =>
    refine moves_onCall fun c hc => moves_ite fun h => .inr <| moves_body ?_
    rw [hc, ← h]
  case wait k =>
    refine moves_onCall fun c hc => moves_ite fun h => .inr ?_
    exact .wait k (by rw [hc, ← h.left]) h.right
  case unlock k =>
    refine moves_onCall fun c hc => moves_ite fun h => .inr ?_
    exact .unlock k (by rw [hc, ← h])
  case stop => exact moves_ite fun h => .inr (.stop h.left h.right)
  case purge => exact moves_ite fun h => .inr (.purge h)
  case purged => exact moves_ite fun h => .inr (.purged h)
  case retry => exact moves_ite fun h => .inr (.retry h)
  case rlockSender =>
    split
    case h_1 h hu => exact .inr (.rlockSender h hu)
    case h_2 => exact .inl rfl
  case sent ok => exact moves_ite fun h => .inr (.sent h)
  case wake => exact moves_ite fun h => .inr (.wake h)

def Holds (c : Call) : Prop :=
  c.method ≠ .writeShard ∧ (c.phase = .locked ∨ c.phase = .waiting ∨ c.phase = .leaving)

structure Coherent (s : Processor) : Prop where
  exclusive : s.mu.Exclusive
  holds : ∀ {k c}, s.calls k = some c → Holds c → s.mu.writer = some (.call k)
  known : ∀ {k}, s.mu.writer = some (.call k) → s.calls k ≠ none
  reading : s.sender = some .sending → .sender ∈ s.mu.readers

theorem coherent_init : init.Coherent where
  exclusive := .free
  holds := nofun
  known := nofun
  reading := nofun

theorem calls_setCall_ne_none (h : s.calls j ≠ none) : (s.setCall k c).calls j ≠ none := by
  by_cases hj : j = k
  case pos => simp [hj]
  case neg => simpa [Function.update_of_ne hj] using h

theorem holds_setCall (hs : s.Coherent) {u : RWMutex Party}
    (hc : Holds c → u.writer = some (.call k))
    (hu : ∀ j, j ≠ k → s.mu.writer = some (.call j) → u.writer = some (.call j))
    (hj : (s.setCall k c).calls j = some c') (hh : Holds c') : u.writer = some (.call j) := by
  by_cases he : j = k
  case pos =>
    subst he
    have : c = c' := by simpa using hj
    exact hc (this ▸ hh)
  case neg =>
    refine hu j he <| hs.holds ?_ hh
    simpa [Function.update_of_ne he] using hj

theorem Coherent.setCall (h : s.Coherent) {u : RWMutex Party}
    (hc : Holds c → s.mu.writer = some (.call k)) (hu : u.Exclusive) (hw : u.writer = s.mu.writer)
    (hr : r = some .sending → .sender ∈ u.readers) :
    Coherent { s.setCall k c with mu := u, done := d, sender := r } where
  exclusive := hu
  holds := holds_setCall h (fun hh => hw.trans (hc hh)) fun _ _ => hw.trans
  known hk := calls_setCall_ne_none <| h.known <| hw.symm.trans hk
  reading := hr

theorem Coherent.moves (h : s.Coherent) (hm : Moves s e s') : s'.Coherent := by
  cases hm
  case call m k hc => exact h.setCall (by simp [Holds]) h.exclusive rfl h.reading
  case announce m u k hc hm hu =>
    have he := RWMutex.Exclusive.announce hu
    obtain ⟨hw, -, rfl⟩ := RWMutex.announce_eq_some.mp hu
    exact h.setCall (by simp [Holds]) he rfl h.reading
  case lock m u k hc hu =>
    have he := RWMutex.Exclusive.lock hu
    obtain ⟨hp, -, rfl⟩ := RWMutex.lock_eq_some.mp hu
    have hw := h.exclusive.writer_of_pending hp
    exact {
      exclusive := he
      holds := holds_setCall h (fun _ => rfl) (by simp [hw])
      known := fun hw => by
        obtain rfl := by simpa using hw
        simp
      reading := h.reading }
  case rlock u k hc hu =>
    have he := RWMutex.Exclusive.rlock hu
    obtain ⟨hw, -, rfl⟩ := RWMutex.rlock_eq_some.mp hu
    exact h.setCall (by simp [Holds]) he rfl fun hr => Finset.mem_insert_of_mem (h.reading hr)
  case body m p r ok d k hc hp hr =>
    refine h.setCall (fun hh => h.holds hc ⟨hh.left, .inl rfl⟩) h.exclusive rfl fun hr' => ?_
    obtain rfl | ⟨rfl, _⟩ := hr
    case inl => exact h.reading hr'
    case inr => cases hr'
  case wait m k hc hr =>
    exact h.setCall (fun hh => h.holds hc ⟨hh.left, .inr (.inl rfl)⟩) h.exclusive rfl h.reading
  case unlock m k hc =>
    by_cases hm : m = .writeShard
    case pos =>
      subst hm
      exact h.setCall (by simp [Holds]) h.exclusive.runlock rfl fun hr =>
        Finset.mem_erase.mpr ⟨nofun, h.reading hr⟩
    case neg =>
      have hk := h.holds hc ⟨hm, .inr (.inr rfl)⟩
      have hu : s.release k m = s.mu.unlock := by cases m <;> simp_all [release]
      rw [hu]
      exact {
        exclusive := .unlock
        holds := holds_setCall h (by simp [Holds]) fun j hj hw => by simp_all
        known := nofun
        reading := h.reading }
  case rlockSender u hr hu =>
    have he := RWMutex.Exclusive.rlock hu
    obtain ⟨hw, -, rfl⟩ := RWMutex.rlock_eq_some.mp hu
    exact ⟨he, h.holds, h.known, fun _ => Finset.mem_insert_self _ _⟩
  case sent ok hr =>
    exact ⟨h.exclusive.runlock, h.holds, h.known, by split <;> nofun⟩
  all_goals exact ⟨h.exclusive, h.holds, h.known, nofun⟩

theorem Coherent.step (h : s.Coherent) : (s.step e).Coherent := by
  obtain he | hm := step_eq_or_moves s e
  case inl => exact he.symm ▸ h
  case inr => exact h.moves hm

theorem methodOf_setCall (c' : Call) (h : s.calls k = some c) (hm : c'.method = c.method) :
    (s.setCall k c').methodOf = s.methodOf := by
  funext p
  cases p
  case sender => rfl
  case call j =>
    by_cases hj : j = k
    case pos =>
      subst hj
      simp [methodOf, h, hm]
    case neg => simp [methodOf, Function.update_of_ne hj]

theorem ClosedOut.congr (h : s'.ClosedOut) (hw : s'.mu.writer = s.mu.writer)
    (hm : s'.methodOf = s.methodOf) : s.ClosedOut := by
  rwa [ClosedOut, hw, hm] at h

def Undisturbed (s : Processor) : Prop :=
  s.ClosedOut → ∀ r ∈ s.sender, ¬r.Looping

theorem Undisturbed.not_looping (h : s.Undisturbed) (hr : s.sender = some r) (hl : r.Looping) :
    ¬s.ClosedOut :=
  fun hw => h hw r hr hl

theorem Undisturbed.moves (h : s.Undisturbed) (hs : s.Coherent) (ho : s.Orderly e)
    (hm : Moves s e s') : s'.Undisturbed := by
  intro hw
  cases hm
  case call m k hc =>
    refine h ?_
    have hk (hw : s.mu.writer = some (.call k)) : False := hs.known hw hc
    cases hp : s.mu.writer
    case none => simp [ClosedOut, hp] at hw
    case some p =>
      cases p
      case sender => simp [ClosedOut, hp, methodOf] at hw
      case call j =>
        have hj : j ≠ k := fun hj => hk (hj ▸ hp)
        simpa [ClosedOut, hp, methodOf, Function.update_of_ne hj] using hw
  case announce m u k hc hm hu =>
    obtain ⟨hn, -, rfl⟩ := RWMutex.announce_eq_some.mp hu
    simp [ClosedOut, hn] at hw
  case lock m u k hc hu =>
    obtain ⟨-, hr, rfl⟩ := RWMutex.lock_eq_some.mp hu
    have hb := ho <| by simpa [ClosedOut, methodOf, hc] using hw
    intro r hr' hl
    cases r <;> try cases hl
    case entering => exact hb _ hr' (.inl rfl)
    case sleeping => exact hb _ hr' (.inr rfl)
    case sending =>
      have := hs.reading hr'
      simp [hr] at this
  case rlock u k hc hu =>
    obtain ⟨hn, -, rfl⟩ := RWMutex.rlock_eq_some.mp hu
    simp [ClosedOut, hn] at hw
  case body m p r ok d k hc hp hr =>
    obtain rfl | ⟨rfl, _⟩ := hr
    case inl => exact h <| hw.congr rfl (methodOf_setCall ⟨m, p⟩ hc rfl)
    case inr => rintro _ ⟨⟩ ⟨⟩
  case wait m k hc hr => exact h <| hw.congr rfl (methodOf_setCall ⟨m, .leaving⟩ hc rfl)
  case unlock m k hc =>
    cases m
    case writeShard => exact h <| hw.congr rfl (methodOf_setCall ⟨.writeShard, .returned⟩ hc rfl)
    all_goals cases hw
  case stop => exact nofun
  case purge => rintro _ ⟨⟩ ⟨⟩
  case purged => rintro _ ⟨⟩ ⟨⟩
  case retry => exact absurd (hw.congr rfl rfl) ho
  case rlockSender hu =>
    obtain ⟨hn, -, rfl⟩ := RWMutex.rlock_eq_some.mp hu
    simp [ClosedOut, hn] at hw
  case sent hr => exact absurd (hw.congr rfl rfl) (h.not_looping hr trivial)
  case wake hr => exact absurd (hw.congr rfl rfl) (h.not_looping hr trivial)

theorem Undisturbed.step (h : s.Undisturbed) (hs : s.Coherent) (ho : s.Orderly e) :
    (s.step e).Undisturbed := by
  obtain he | hm := step_eq_or_moves s e
  case inl => exact he.symm ▸ h
  case inr => exact h.moves hs ho hm

theorem not_deadlocked (h : Run Processor.step Orderly init s) : ¬s.Deadlocked := by
  have ⟨_, hu⟩ := h.invariant (I := fun s => s.Coherent ∧ s.Undisturbed)
    ⟨coherent_init, fun _ => nofun⟩ fun h ho => ⟨h.left.step, h.right.step h.left ho⟩
  rintro ⟨k, hc, hw, hr⟩
  refine hu.not_looping hr trivial ?_
  simp [ClosedOut, hw, methodOf, hc]

def opened : List Event :=
  [.call 0 .open_, .announce 0, .lock 0, .body 0 true, .unlock 0]

def twoSends : List Event :=
  [.retry, .rlockSender, .sent true, .wake, .rlockSender, .sent false]

def closed : List Event :=
  [.call 1 .close, .announce 1, .lock 1, .body 1 true, .stop, .wait 1, .unlock 1]

theorem closed_not_deadlocked :
    let s := (opened ++ twoSends ++ closed).foldl Processor.step init
    ¬s.Deadlocked ∧ s.calls 1 = some ⟨.close, .returned⟩ ∧ s.done = none :=
  ⟨not_deadlocked (.foldl (by decide +kernel)), by decide +kernel, by decide +kernel⟩

theorem Deadlocked.moves (h : s.Deadlocked) (hs : s.Coherent) (hm : Moves s e s') :
    s'.Deadlocked := by
  obtain ⟨k, hk, hw, hr⟩ := h
  have hne {j c} (hj : s.calls j = some c) (hp : c.phase ≠ .waiting) : k ≠ j := by
    rintro rfl
    rw [hk, Option.some.injEq] at hj
    exact hp (hj ▸ rfl)
  have keeps {j c} (hj : k ≠ j) : (s.setCall j c).calls k = some ⟨.close, .waiting⟩ := by
    simpa [Function.update_of_ne hj] using hk
  have other {j c} (hj : s.calls j = some c) (hh : Holds c) : k = j := by
    have := hs.holds hj hh
    rw [hw, Option.some.injEq] at this
    injection this
  cases hm
  case call m j hc =>
    refine ⟨k, keeps ?_, hw, hr⟩
    rintro rfl
    simp [hk] at hc
  case announce hu =>
    obtain ⟨hn, -, -⟩ := RWMutex.announce_eq_some.mp hu
    simp [hw] at hn
  case lock hu =>
    obtain ⟨hp, -, -⟩ := RWMutex.lock_eq_some.mp hu
    have := hs.exclusive.writer_of_pending hp
    simp [hw] at this
  case rlock hu =>
    obtain ⟨hn, -, -⟩ := RWMutex.rlock_eq_some.mp hu
    simp [hw] at hn
  case body m p r ok d j hc hp hr' =>
    have hj := hne hc nofun
    obtain rfl | ⟨rfl, rfl, _⟩ := hr'
    case inl => exact ⟨k, keeps hj, hw, hr⟩
    case inr => exact absurd (other hc ⟨nofun, .inl rfl⟩) hj
  case wait hn => simp [hr] at hn
  case unlock m j hc =>
    have hj := hne hc nofun
    cases m
    case writeShard => exact ⟨k, keeps hj, hw, hr⟩
    all_goals exact absurd (other hc ⟨nofun, .inr (.inr rfl)⟩) hj
  case rlockSender hu =>
    obtain ⟨hn, -, -⟩ := RWMutex.rlock_eq_some.mp hu
    simp [hw] at hn
  all_goals simp_all

theorem Deadlocked.foldl (h : s.Deadlocked) (hs : s.Coherent) (es : List Event) :
    (es.foldl Processor.step s).Deadlocked := by
  induction es generalizing s
  case nil => exact h
  case cons e es hi =>
    refine hi ?_ hs.step
    obtain he | hm := step_eq_or_moves s e
    case inl => exact he.symm ▸ h
    case inr => exact h.moves hs hm

def closing : List Event :=
  [.retry, .rlockSender, .sent true, .call 1 .close, .announce 1, .lock 1, .wake, .body 1 true]

theorem close_between_sends_deadlocks :
    ((opened ++ closing).foldl Processor.step init).Deadlocked ∧
    ∀ es : List Event,
      (es.foldl Processor.step ((opened ++ closing).foldl Processor.step init)).Deadlocked := by
  have hd : ((opened ++ closing).foldl Processor.step init).Deadlocked :=
    ⟨1, by decide +kernel, by decide +kernel, by decide +kernel⟩
  refine ⟨hd, hd.foldl ?_⟩
  exact (Run.foldl (P := fun _ _ => True) (by decide +kernel)).invariant coherent_init
    fun h _ => h.step

end Hh.Lifecycle.Processor
