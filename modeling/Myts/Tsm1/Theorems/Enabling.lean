import Myts.Tsm1.Enabling

open List

namespace Tsm1.Enabling

theorem countP_set {f : Phase → Bool} {l : List Phase} (h : l[k]? = some p) :
    (l.set k q).countP f + (if f p then 1 else 0) = l.countP f + if f q then 1 else 0 := by
  have ⟨hk, hp⟩ := List.getElem?_eq_some_iff.mp h
  have hc : 0 < l.countP f ∨ ¬f p := by
    by_cases hf : f p
    · exact .inl <| countP_pos_iff.mpr ⟨p, hp ▸ getElem_mem hk, hf⟩
    · exact .inr hf
  rw [List.countP_set hk, hp]
  split
  case isTrue hf => have := hc.resolve_right (not_not.mpr hf); omega
  case isFalse hf => omega

namespace Engine

variable {e e' : Engine} {p q : Phase} {k : Nat}

section Channels

structure Channels (e : Engine) : Prop where
  nodup : e.closed.Nodup
  lt : ∀ c ∈ e.closed, c < e.channels
  done : ∀ c ∈ e.done, c < e.channels ∧ c ∉ e.closed
  snapDone : ∀ c ∈ e.snapDone, c < e.channels ∧ c ∉ e.closed
  ne : ∀ c ∈ e.done, c ∉ e.snapDone

theorem Channels.congr (h : Channels e) (hc : e'.closed = e.closed) (hn : e'.channels = e.channels)
    (hd : e'.done = e.done) (hs : e'.snapDone = e.snapDone) : Channels e' := by
  constructor <;> simp only [hc, hn, hd, hs]
  exacts [h.nodup, h.lt, h.done, h.snapDone, h.ne]

theorem Channels.forget (h : Channels e) : Channels { e with done := none } :=
  { h with done := nofun, ne := nofun }

theorem Channels.closeDone (h : Channels e) : Channels e.closeDone := by
  have ⟨h₁, h₂, h₃, h₄, h₅⟩ := h
  cases hd : e.done <;> constructor <;> grind [Engine.closeDone]

theorem Channels.closeSnapDone (h : Channels e) : Channels e.closeSnapDone := by
  have ⟨h₁, h₂, h₃, h₄, h₅⟩ := h
  cases hd : e.snapDone <;> constructor <;> grind [Engine.closeSnapDone]

theorem Channels.makeDone (h : Channels e) : Channels e.makeDone := by
  have ⟨h₁, h₂, h₃, h₄, h₅⟩ := h
  constructor <;> grind [Engine.makeDone]

theorem Channels.makeSnapDone (h : Channels e) : Channels e.makeSnapDone := by
  have ⟨h₁, h₂, h₃, h₄, h₅⟩ := h
  constructor <;> grind [Engine.makeSnapDone]

theorem Channels.disable (h : Channels e) : Channels e.disable := by
  unfold Engine.disable
  split
  case isTrue => exact h.closeDone
  case isFalse => exact h

theorem Channels.advance (h : Channels e) (ha : e.advance p = some (e', q)) : Channels e' := by
  cases p <;> simp only [Engine.advance] at ha
  case snapLock =>
    split at ha <;> cases ha
    exacts [h, h.makeSnapDone]
  case levelLock =>
    split at ha <;> cases ha
    exacts [h.congr rfl rfl rfl rfl, h.makeDone]
  case snapDisable => cases ha; exact h.closeSnapDone
  case levelDisable => cases ha; exact h.disable
  case deleteDisable => cases ha; exact h.disable.congr rfl rfl rfl rfl
  case closeLock => cases ha; exact h.forget
  case deleteBody =>
    split at ha <;> cases ha
    exacts [h.congr rfl rfl rfl rfl, h.makeDone.congr rfl rfl rfl rfl]
  case returned => cases ha
  case snapCheck | snapStart | levelStart | deleteStart =>
    cases ha
    exact h.congr rfl rfl rfl rfl
  case levelCheck | snapWait | levelWait | deleteWait =>
    split at ha <;> cases ha <;> exact h.congr rfl rfl rfl rfl

theorem Channels.step (h : Channels e) : Channels (e.step i) := by
  cases i
  case call m => exact h.congr rfl rfl rfl rfl
  case advance k =>
    simp only [Engine.step]
    split
    case h_1 => exact h
    case h_2 p hp =>
      split
      case h_1 => exact h
      case h_2 ha => exact (h.advance ha).congr rfl rfl rfl rfl
  all_goals
    simp only [Engine.step]
    split
    case isTrue => exact h.congr rfl rfl rfl rfl
    case isFalse => exact h

end Channels

section Counted

structure Counted (e : Engine) : Prop where
  wg : e.wg = e.loops.length + e.workers + e.calls.countP (·.Starting)
  workers : e.levelWorkers = e.calls.countP (·.Deleting)
  done : e.levelWorkers ≠ 0 → e.done = none
  body : .deleteBody ∈ e.calls → e.wg = 0
  last : e.Running ∨ (∃ quit, .deleteStart quit ∈ e.calls) → e.last = some true

theorem countP_deleting_pos {l : List Phase} (h : .deleteBody ∈ l) :
    0 < l.countP (·.Deleting) :=
  countP_pos_iff.mpr ⟨_, h, rfl⟩

theorem countP_starting_pos {l : List Phase} (h : .deleteStart quit ∈ l) :
    0 < l.countP (·.Starting) :=
  countP_pos_iff.mpr ⟨_, h, rfl⟩

theorem Counted.not_running (h : Counted e) (hw : e.wg = 0) : ¬e.Running := by
  have := h.wg
  rintro (hl | hn)
  · have := length_pos_of_ne_nil hl
    omega
  · omega

theorem Counted.not_starting (h : Counted e) (hw : e.wg = 0) (quit : Nat) :
    .deleteStart quit ∉ e.calls := by
  intro hm
  have := h.wg
  have := countP_starting_pos hm
  omega

structure Quiet (e e' : Engine) : Prop where
  wg : e'.wg = e.wg := by rfl
  loops : e'.loops = e.loops := by rfl
  workers : e'.workers = e.workers := by rfl
  levelWorkers : e'.levelWorkers = e.levelWorkers := by rfl
  calls : e'.calls = e.calls := by rfl
  done : e'.done = e.done ∨ e'.done = none := by exact .inl rfl
  last : e'.last = e.last ∨ e'.last = some true ∨ e.wg = 0 := by exact .inl rfl

theorem Quiet.enabled (e : Engine) : Quiet e { e with last := some true } where
  last := .inr <| .inl rfl

theorem Quiet.disable (l : List Phase) :
    Quiet { e with calls := l } { e.disable with calls := l } := by
  unfold Engine.disable
  split
  case isTrue => exact { done := .inr rfl }
  case isFalse => exact {}

theorem Quiet.running_iff (h : Quiet e e') : e'.Running ↔ e.Running := by
  rw [Running, h.loops, h.workers, Running]

theorem Counted.quiet (h : Counted e) (hq : Quiet e e') : Counted e' where
  wg := by rw [hq.wg, hq.loops, hq.workers, hq.calls, h.wg]
  workers := by rw [hq.levelWorkers, hq.calls, h.workers]
  done hn := by
    rcases hq.done with hd | hd
    · exact hd.trans <| h.done (hq.levelWorkers ▸ hn)
    · exact hd
  body hm := hq.wg.trans <| h.body (hq.calls ▸ hm)
  last hx := by
    rw [hq.running_iff, hq.calls] at hx
    rcases hq.last with hl | hl | hw
    · exact hl.trans (h.last hx)
    · exact hl
    · rcases hx with hr | ⟨quit, hm⟩
      · exact absurd hr (h.not_running hw)
      · exact absurd hm (h.not_starting hw quit)

theorem Counted.pass (h : Counted e) (hk : e.calls[k]? = some p)
    (hp : ¬p.Deleting ∧ ¬p.Starting) (hq : ¬q.Deleting ∧ ¬q.Starting) :
    Counted { e with calls := e.calls.set k q } := by
  have hS := countP_set (f := (·.Starting)) (q := q) hk
  have hD := countP_set (f := (·.Deleting)) (q := q) hk
  simp only [hp, hq, decide_false, Bool.false_eq_true, if_false, Nat.add_zero] at hS hD
  have hm {x} (hx : x ∈ e.calls.set k q) : x = q ∨ x ∈ e.calls :=
    (mem_or_eq_of_mem_set hx).symm
  refine { h with wg := by rw [h.wg, hS], workers := by rw [h.workers, hD], body := ?_, last := ?_ }
  · intro hb
    rcases hm hb with rfl | hb
    · exact absurd trivial hq.left
    · exact h.body hb
  · rintro (hr | ⟨quit, hs⟩)
    · exact h.last (.inl hr)
    · rcases hm hs with rfl | hs
      · exact absurd trivial hq.right
      · exact h.last (.inr ⟨quit, hs⟩)

theorem counts_set (hk : e.calls[k]? = some p) (q : Phase) :
    (e.calls.set k q).countP (·.Starting) + (if p.Starting then 1 else 0) =
      e.calls.countP (·.Starting) + (if q.Starting then 1 else 0) ∧
    (e.calls.set k q).countP (·.Deleting) + (if p.Deleting then 1 else 0) =
      e.calls.countP (·.Deleting) + (if q.Deleting then 1 else 0) ∧
    ∀ x ∈ e.calls.set k q, x = q ∨ x ∈ e.calls := by
  have hS := countP_set (f := (·.Starting)) (q := q) hk
  have hD := countP_set (f := (·.Deleting)) (q := q) hk
  refine ⟨by simpa using hS, by simpa using hD, fun x hx => ?_⟩
  exact (mem_or_eq_of_mem_set hx).symm

theorem Counted.levelStart (h : Counted e) (hk : e.calls[k]? = some (.levelStart quit)) :
    Counted { e with
      loops := quit :: e.loops, last := some true, calls := e.calls.set k .returned } := by
  have ⟨hS, hD, hm⟩ := counts_set hk .returned
  have ⟨h₁, h₂, h₃, h₄, h₅⟩ := h
  constructor <;> grind [Phase.Starting, Phase.Deleting, Engine.Running]

theorem Counted.deleteStart (h : Counted e) (hk : e.calls[k]? = some (.deleteStart quit)) :
    Counted { e with loops := quit :: e.loops, calls := e.calls.set k .returned } := by
  have ⟨hS, hD, hm⟩ := counts_set hk .returned
  have ⟨h₁, h₂, h₃, h₄, h₅⟩ := h
  constructor <;> grind [Phase.Starting, Phase.Deleting, Engine.Running]

theorem Counted.levelLock (h : Counted e) (hk : e.calls[k]? = some .levelLock)
    (hn : e.levelWorkers = 0) :
    Counted { e.makeDone with calls := e.calls.set k (.levelStart e.channels) } := by
  have ⟨hS, hD, hm⟩ := counts_set hk (.levelStart e.channels)
  have ⟨h₁, h₂, h₃, h₄, h₅⟩ := h
  have hb := countP_deleting_pos (l := e.calls)
  constructor <;> grind [Phase.Starting, Phase.Deleting, Engine.Running, Engine.makeDone]

theorem Counted.deleteDisable (h : Counted e) (hk : e.calls[k]? = some .deleteDisable) :
    Counted { e.disable with
      levelWorkers := e.levelWorkers + 1, calls := e.calls.set k .deleteWait } := by
  have ⟨hS, hD, hm⟩ := counts_set hk .deleteWait
  have ⟨h₁, h₂, h₃, h₄, h₅⟩ := h
  constructor <;>
    grind [Phase.Starting, Phase.Deleting, Engine.Running, Engine.disable, Engine.closeDone]

theorem Counted.deleteWait (h : Counted e) (hk : e.calls[k]? = some .deleteWait) (hw : e.wg = 0) :
    Counted { e with calls := e.calls.set k .deleteBody } := by
  have ⟨hS, hD, hm⟩ := counts_set hk .deleteBody
  have ⟨h₁, h₂, h₃, h₄, h₅⟩ := h
  constructor <;> grind [Phase.Starting, Phase.Deleting, Engine.Running]

theorem Counted.deleteReturn (h : Counted e) (hk : e.calls[k]? = some .deleteBody) :
    Counted { e with levelWorkers := e.levelWorkers - 1, calls := e.calls.set k .returned } := by
  have ⟨hS, hD, hm⟩ := counts_set hk .returned
  have ⟨h₁, h₂, h₃, h₄, h₅⟩ := h
  have hb := countP_deleting_pos (l := e.calls)
  constructor <;> grind [Phase.Starting, Phase.Deleting, Engine.Running]

theorem Counted.deleteBody (h : Counted e) (hk : e.calls[k]? = some .deleteBody)
    (hn : e.levelWorkers = 1) (hl : e.last = some true) :
    Counted { e.makeDone with
      levelWorkers := e.levelWorkers - 1, calls := e.calls.set k (.deleteStart e.channels) } := by
  have ⟨hS, hD, hm⟩ := counts_set hk (.deleteStart e.channels)
  have ⟨h₁, h₂, h₃, h₄, h₅⟩ := h
  have hb := countP_deleting_pos (l := e.calls.set k (.deleteStart e.channels))
  constructor <;> grind [Phase.Starting, Phase.Deleting, Engine.Running, Engine.makeDone]

theorem Counted.advance (h : Counted e) (hk : e.calls[k]? = some p)
    (hr : p = .deleteBody → e.levelWorkers = 1 → e.last = some true)
    (ha : e.advance p = some (e', q)) : Counted { e' with calls := e.calls.set k q } := by
  cases p <;> simp only [Engine.advance] at ha
  case returned => cases ha
  case levelStart => cases ha; exact h.levelStart hk
  case deleteStart => cases ha; exact h.deleteStart hk
  case deleteDisable => cases ha; exact h.deleteDisable hk
  case deleteWait => split at ha <;> cases ha; exact h.deleteWait hk ‹_›
  case deleteBody =>
    split at ha <;> cases ha
    case isTrue => exact h.deleteReturn hk
    case isFalse hn =>
      push Not at hn
      have hn : e.levelWorkers = 1 := by omega
      exact h.deleteBody hk hn (hr rfl hn)
  case levelLock =>
    split at ha <;> cases ha
    case isTrue => exact (h.pass hk ⟨id, id⟩ ⟨id, id⟩).quiet (.enabled _)
    case isFalse hn =>
      push Not at hn
      exact h.levelLock hk hn.left
  case levelCheck =>
    split at ha <;> cases ha
    case isTrue => exact (h.pass hk ⟨id, id⟩ ⟨id, id⟩).quiet (.enabled _)
    case isFalse => exact h.pass hk ⟨id, id⟩ ⟨id, id⟩
  case levelWait =>
    split at ha <;> cases ha
    have hq (closing : Bool) :
        ¬(if closing then Phase.closeLock else .returned).Deleting ∧
        ¬(if closing then Phase.closeLock else .returned).Starting := by
      cases closing <;> exact ⟨id, id⟩
    exact (h.pass hk ⟨id, id⟩ (hq _)).quiet { last := .inr <| .inr ‹_› }
  case levelDisable =>
    cases ha
    have hq : ∀ closing, ¬(Phase.levelWait closing).Deleting ∧ ¬(Phase.levelWait closing).Starting :=
      fun _ => ⟨id, id⟩
    exact (h.pass hk ⟨id, id⟩ (hq _)).quiet (.disable _)
  case closeLock =>
    cases ha
    exact (h.pass hk ⟨id, id⟩ ⟨id, id⟩).quiet { done := .inr rfl }
  case snapCheck =>
    cases ha
    split <;> exact h.pass hk ⟨id, id⟩ ⟨id, id⟩
  case snapLock | snapWait =>
    split at ha <;> cases ha <;> exact (h.pass hk ⟨id, id⟩ ⟨id, id⟩).quiet {}
  case snapStart | snapDisable =>
    cases ha
    exact (h.pass hk ⟨id, id⟩ ⟨id, id⟩).quiet {}

theorem Counted.call (h : Counted e) (m : Method) :
    Counted { e with calls := e.calls ++ [m.first] } := by
  have hp : ¬m.first.Deleting ∧ ¬m.first.Starting := by
    rcases m with ⟨_ | _⟩ | _ | _ <;> exact ⟨id, id⟩
  have hm {x} (hx : x ∈ e.calls ++ [m.first]) : x ∈ e.calls ∨ x = m.first := by simpa using hx
  refine { h with wg := ?_, workers := ?_, body := ?_, last := ?_ }
  · simp [h.wg, hp.right]
  · simp [h.workers, hp.left]
  · intro hb
    rcases hm hb with hb | hb
    · exact h.body hb
    · rw [← hb] at hp
      exact absurd trivial hp.left
  · rintro (hr | ⟨quit, hs⟩)
    · exact h.last (.inl hr)
    · rcases hm hs with hs | hs
      · exact h.last (.inr ⟨quit, hs⟩)
      · rw [← hs] at hp
        exact absurd trivial hp.right

theorem Counted.step (h : Counted e) (hr : e.Respects i) : Counted (e.step i) := by
  cases i
  case call m => exact h.call m
  case advance k =>
    simp only [Engine.step]
    split
    case h_1 => exact h
    case h_2 p hp =>
      split
      case h_1 => exact h
      case h_2 ha => exact h.advance hp (fun hb => hr (hb ▸ hp)) ha
  case snapExit quit =>
    simp only [Engine.step]
    split
    case isTrue => exact h.quiet {}
    case isFalse => exact h
  all_goals
    have ⟨h₁, h₂, h₃, h₄, h₅⟩ := h
    simp only [Engine.step]
    split
    case isTrue => constructor <;> grind [Engine.Running]
    case isFalse => exact h

end Counted

theorem counted_init : Counted init where
  wg := rfl
  workers := rfl
  done _ := rfl
  body h := nomatch h
  last h := by
    rcases h with h | ⟨_, h⟩
    · exact absurd h (by decide)
    · cases h

theorem channels_init : Channels init where
  nodup := nodup_nil
  lt _ h := nomatch h
  done _ h := nomatch h
  snapDone _ h := nomatch h
  ne _ h := nomatch h

theorem Counted.allowed (h : Counted e) (hc : Channels e) : Allowed e where
  running hr := ⟨h.last (.inl hr), fun hb => h.not_running (h.body hb) hr⟩
  workers := h.workers
  once := hc.nodup

-- In every run in which no last delete ends while compactions are disabled, they run only if they
-- are allowed to.
theorem compactions_allowed (h : Run step Respects init e) : Allowed e := by
  have hn : Counted e := h.invariant counted_init fun hi hr => hi.step hr
  have hc : Channels e := h.invariant channels_init fun hi _ => hi.step
  exact hn.allowed hc

def disabledThenDelete : List Event :=
  [.call (.setCompactionsEnabled false), .advance 0, .advance 0, .advance 0, .advance 0,
   .call .deleteSeriesRange, .advance 1, .advance 1, .advance 1, .advance 1]

theorem delete_enables_compactions :
    (disabledThenDelete.foldl step init).Running ∧
    (disabledThenDelete.foldl step init).last = some false ∧
    ¬Allowed (disabledThenDelete.foldl step init) := by
  have hr : (disabledThenDelete.foldl step init).Running := by decide +kernel
  have hl : (disabledThenDelete.foldl step init).last = some false := by decide +kernel
  exact ⟨hr, hl, fun h => absurd (hl.symm.trans (h.running hr).left) (by decide)⟩

def enabledThenDelete : List Event :=
  [.call (.setCompactionsEnabled true), .advance 0, .advance 0, .advance 0, .advance 0, .advance 0,
   .advance 0, .call .deleteSeriesRange, .advance 1, .exit 1, .advance 1, .advance 1, .advance 1]

theorem allowed_enabledThenDelete :
    Allowed (enabledThenDelete.foldl step init) ∧ (enabledThenDelete.foldl step init).Running :=
  ⟨compactions_allowed (Run.foldl (by decide +kernel)), by decide +kernel⟩

end Engine
end Tsm1.Enabling
