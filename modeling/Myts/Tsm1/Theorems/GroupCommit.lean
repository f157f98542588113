import Myts.Tsm1.GroupCommit

open List

namespace Tsm1.GroupCommit

open State

variable {s : State}

def State.Queued (s : State) : Prop :=
  ∀ c ∈ s.syncWaiters, ∃ w ∈ s.writer, c ∈ w.unsynced

def State.Assertion (s : State) : Option Section → Prop
  | some (.write _) => s.writer.isSome ∧ s.Queued
  | some (.enqueue c) => (∃ w ∈ s.writer, c ∈ w.unsynced) ∧ s.Queued
  | some (.sync _) => s.writer.isSome ∧ s.Queued
  | some (.notify ok _) => s.writer.isSome ∧ (ok → ∀ c ∈ s.syncWaiters, ∃ id, (c, id) ∈ s.durable)
  | some (.send c ok _) =>
    s.writer.isSome ∧ (ok → ∀ x ∈ c :: s.syncWaiters, ∃ id, (x, id) ∈ s.durable)
  | some (.closeFile _) => s.writer.isSome ∧ s.syncWaiters = []
  | some (.openFile _) => s.syncWaiters = []
  | some .panic => False
  | _ => s.Queued

structure Synced (s : State) : Prop where
  known : ∀ w ∈ s.writer, ∀ c ∈ w.unsynced, (c, w.id) ∈ s.written
  genuine : ∀ x ∈ s.durable, x ∈ s.written
  replied : ∀ c, (c, true) ∈ s.replies → ∃ id, (c, id) ∈ s.durable
  holder : s.Assertion s.holder

theorem synced_init (writer : Option Nat) : Synced (init writer) where
  known := by cases writer <;> simp [init]
  genuine := nofun
  replied := nofun
  holder := nofun

namespace Synced

theorem congr {s' : State} (h : Synced s) (ha : s.Assertion s'.holder)
    (hw : s'.writer = s.writer := by rfl) (hq : s'.syncWaiters = s.syncWaiters := by rfl)
    (hwr : s'.written = s.written := by rfl) (hd : s'.durable = s.durable := by rfl)
    (hr : s'.replies = s.replies := by rfl) : Synced s' where
  known := by rw [hw, hwr]; exact h.known
  genuine := by rw [hd, hwr]; exact h.genuine
  replied := by rw [hr, hd]; exact h.replied
  holder := by
    revert ha
    cases s'.holder
    case none => simp [Assertion, Queued, hw, hq]
    case some x => cases x <;> simp [Assertion, Queued, hw, hq, hd]

theorem move (h : Synced s) (ha : s.Assertion x) : Synced { s with holder := x } :=
  h.congr ha

end Synced

theorem queued_of_nil (h : s.syncWaiters = []) : s.Queued := by
  simp [Queued, h]

theorem Synced.abort (h : Synced s) (hq : s.syncWaiters = []) (p : Purpose) :
    Synced (s.abort p) := by
  cases p <;> exact h.move (queued_of_nil hq)

theorem Synced.setWriter (h : Synced s) (hq : s.syncWaiters = []) (w : Option SegmentWriter)
    (hw : ∀ v ∈ w, ∀ c ∈ v.unsynced, (c, v.id) ∈ s.written) :
    Synced { s with writer := w, holder := none } where
  known := hw
  genuine := h.genuine
  replied := h.replied
  holder := queued_of_nil hq

theorem eq_nil_of_queued (h : s.Queued) (hw : s.writer = none) : s.syncWaiters = [] := by
  rw [eq_nil_iff_forall_not_mem]
  intro c hc
  have ⟨w, hm, _⟩ := h c hc
  cases hw ▸ hm

theorem Synced.writeEntry (h : Synced s) (hw : s.writer = some w) (hq : s.Queued) (o : Outcome)
    (c : CallID) : Synced (s.writeEntry o c w) := by
  have hk : ∀ x ∈ w.unsynced, (x, w.id) ∈ s.written := h.known w hw
  have hq' : ∀ x ∈ s.syncWaiters, x ∈ w.unsynced := fun x hx =>
    have ⟨v, hv, hm⟩ := hq x hx
    (Option.some.inj (hw.symm.trans hv)) ▸ hm
  rw [State.writeEntry]
  split
  case isTrue =>
    refine ⟨fun v hv x hx => ?_, fun x hx => mem_append_left _ (h.genuine x hx), h.replied,
      ⟨_, rfl, mem_append_right _ (mem_singleton_self _)⟩,
      fun x hx => ⟨_, rfl, mem_append_left _ (hq' x hx)⟩⟩
    cases hv
    rcases mem_append.mp hx with hx | hx
    case inl => exact mem_append_left _ (hk x hx)
    case inr =>
      cases mem_singleton.mp hx
      exact mem_append_right _ (mem_singleton_self _)
  case isFalse =>
    refine ⟨fun v hv => ?_, h.genuine, h.replied, fun x hx => ⟨_, rfl, hq' x hx⟩⟩
    cases hv
    exact hk

theorem Synced.syncWriter (h : Synced s) (hw : s.writer = some w) (hq : s.Queued) (o : Outcome)
    (p : Purpose) : Synced (s.syncWriter o p w) := by
  have hk : ∀ x ∈ w.unsynced, (x, w.id) ∈ s.written := h.known w hw
  rw [State.syncWriter]
  split
  case isTrue =>
    refine ⟨fun v hv => ?_, fun x hx => ?_, fun c hc => ?_, rfl, fun _ x hx => ?_⟩
    · cases hv; exact nofun
    · rcases mem_append.mp hx with hx | hx
      case inl => exact h.genuine x hx
      case inr =>
        have ⟨c, hc, he⟩ := mem_map.mp hx
        exact he ▸ hk c hc
    · have ⟨id, hid⟩ := h.replied c hc
      exact ⟨id, mem_append_left _ hid⟩
    · have ⟨v, hv, hm⟩ := hq x hx
      cases hw.symm.trans hv
      exact ⟨w.id, mem_append_right _ (mem_map_of_mem hm)⟩
  case isFalse =>
    refine ⟨fun v hv => ?_, h.genuine, h.replied, rfl, nofun⟩
    cases hv
    exact nofun

theorem synced_runSection (h : Synced s) (hx : s.holder = some x) (o : Outcome) :
    Synced (s.runSection o x) := by
  have ha := h.holder
  rw [hx] at ha
  cases x
  case enter c =>
    refine h.move ?_
    cases s.closing <;> exact ha
  case rollSegment c =>
    rw [runSection]
    split
    case h_1 => exact h.move ha
    case h_2 w hw =>
      split
      case isTrue => exact h.move ha
      case isFalse => exact h.move ⟨by rw [hw]; rfl, ha⟩
  case write c =>
    have ⟨hw, hq⟩ := ha
    have ⟨w, hw⟩ := Option.isSome_iff_exists.mp hw
    rw [runSection, hw]
    exact h.writeEntry hw hq o c
  case enqueue c =>
    have ⟨⟨w, hw, hc⟩, hq⟩ := ha
    rw [runSection]
    split
    case isTrue =>
      refine ⟨h.known, h.genuine, h.replied, fun x hm => ?_⟩
      rcases mem_append.mp hm with hm | hm
      case inl => exact hq x hm
      case inr => exact ⟨w, hw, mem_singleton.mp hm ▸ hc⟩
    case isFalse => exact h.move hq
  case scheduleSync c =>
    rw [runSection]
    split
    case isTrue => exact h.move ha
    case isFalse => exact h.congr ha
  case leave c => exact h.congr ha
  case fail c => exact h.move ha
  case newSegmentFile p =>
    rw [runSection]
    by_cases hw : s.writer.isSome
    case pos =>
      rw [if_pos hw]
      exact h.congr ⟨hw, ha⟩
    case neg =>
      rw [if_neg hw]
      exact h.congr (eq_nil_of_queued ha (Option.not_isSome_iff_eq_none.mp hw))
  case sync p =>
    have ⟨hw, hq⟩ := ha
    have ⟨w, hw⟩ := Option.isSome_iff_exists.mp hw
    rw [runSection, hw]
    exact h.syncWriter hw hq o p
  case notify ok p =>
    rw [runSection]
    split
    case h_1 hnil =>
      cases p
      case close => exact h.setWriter hnil none nofun |>.move (queued_of_nil hnil)
      case background => exact h.congr (queued_of_nil hnil)
      all_goals exact h.move ⟨ha.left, hnil⟩
    case h_2 c cs hcs =>
      refine ⟨h.known, h.genuine, h.replied, ha.left, fun hok => ?_⟩
      exact hcs ▸ ha.right hok
  case send c ok p =>
    refine ⟨h.known, h.genuine, fun x hm => ?_, ha.left, fun hok x hm => ?_⟩
    · rcases mem_append.mp hm with hm | hm
      case inl => exact h.replied x hm
      case inr =>
        cases mem_singleton.mp hm
        exact ha.right rfl _ mem_cons_self
    · exact ha.right hok x (mem_cons_of_mem _ hm)
  case closeFile p =>
    have ⟨hw, hnil⟩ := ha
    have ⟨w, hw⟩ := Option.isSome_iff_exists.mp hw
    have hk : ∀ c ∈ w.unsynced, (c, w.id) ∈ s.written := h.known w hw
    rw [runSection, hw]
    dsimp only
    rw [State.closeWriter]
    split
    case isTrue =>
      exact (h.setWriter hnil (some { w with shut := true }) fun v hv => by
        cases hv; exact hk).move hnil
    case isFalse =>
      exact (h.setWriter hnil (some _) fun v hv => by
        cases hv; exact hk).abort hnil p
  case openFile p =>
    rw [runSection]
    split
    case isTrue =>
      have hn := h.setWriter ha (some ⟨s.currentSegmentID, 0, [], false, false⟩) (by simp)
      cases p
      case roll c => exact hn.move ⟨rfl, queued_of_nil ha⟩
      all_goals exact hn.move (queued_of_nil ha)
    case isFalse => exact h.abort ha p
  case closeSegment =>
    rw [runSection]
    split
    case h_1 => exact h.move ha
    case h_2 w _ =>
      refine h.move ?_
      split <;> exact ha
  case close =>
    rw [runSection]
    split
    case isTrue => exact h.move ha
    case isFalse =>
      by_cases hw : s.writer.isSome
      case pos =>
        rw [if_pos hw]
        exact h.congr ⟨hw, ha⟩
      case neg =>
        rw [if_neg hw]
        exact h.congr ha
  case tick =>
    rw [runSection]
    split
    case isTrue => exact h.congr ha
    case isFalse hne =>
      have ⟨c, hc⟩ := exists_mem_of_ne_nil _ hne
      have ⟨w, hw, _⟩ := ha c hc
      exact h.move ⟨Option.isSome_iff_exists.mpr ⟨w, hw⟩, ha⟩
  case unlock => exact h.move ha
  case panic => exact ha.elim

theorem synced_step (h : Synced s) (he : Enabled s e) : Synced (step s e) := by
  cases e
  case run o =>
    have ⟨x, hx, _⟩ := he
    rw [step, hx]
    exact synced_runSection h hx o
  case writeToLog c =>
    have ha := h.holder
    rw [he.left] at ha
    exact h.congr ha
  case closeSegment | close =>
    have ha := h.holder
    rw [he] at ha
    exact h.move ha
  case lock =>
    have ha := h.holder
    rw [he.left] at ha
    exact h.congr ha
  all_goals exact h.congr h.holder

def Purpose.isBackground : Purpose → Bool
  | background => true
  | _ => false

def Purpose.isClose : Purpose → Bool
  | close => true
  | _ => false

namespace Section

def purpose : Section → Option Purpose
  | newSegmentFile p | sync p | notify _ p | send _ _ p | closeFile p | openFile p => some p
  | _ => none

def background : Section → Bool
  | tick => true
  | x => x.purpose.any (·.isBackground)

def inRound : Section → Bool
  | tick => false
  | x => x.background

def ofClose (x : Section) : Bool :=
  x.purpose.any (·.isClose)

def scheduling : Section → Bool
  | scheduleSync _ => true
  | _ => false

def writing : Section → Bool
  | rollSegment _ | write _ | enqueue _ | scheduleSync _ | leave _ => true
  | x =>
    match x.purpose with
    | some (.roll _) => true
    | _ => false

def proper : Section → Bool
  | newSegmentFile p | closeFile p | openFile p =>
    match p with
    | .roll _ | .closeSegment => true
    | _ => false
  | _ => true

def inHand : Section → List CallID
  | send c _ _ => [c]
  | _ => []

def leaving : Section → List CallID
  | scheduleSync c | leave c => [c]
  | _ => []

def entering : Section → List CallID
  | enter c | rollSegment c | write c => [c]
  | x =>
    match x.purpose with
    | some (.roll c) => [c]
    | _ => []

def arriving : Section → List CallID
  | enqueue c => [c]
  | x => x.entering

def weight : Section → Nat
  | leave _ => 2
  | fail _ | unlock | tick => 1
  | scheduleSync _ => 6
  | enqueue _ => 20
  | write _ => 21
  | openFile _ => 22
  | closeFile _ => 23
  | notify _ p => if p.isBackground then 9 else 24
  | send _ _ p => if p.isBackground then 10 else 25
  | sync p => if p.isBackground then 10 else 26
  | newSegmentFile _ => 27
  | rollSegment _ | closeSegment | close => 28
  | enter _ => 29
  | panic => 0

structure Follows (x y : Section) : Prop where
  proper : y.proper := by rfl
  background : y.background = x.background := by rfl
  inRound : y.inRound = x.inRound := by rfl
  scheduling : x.scheduling = false := by rfl
  writing : y.writing → x.writing := by first | exact id | exact nofun | exact fun _ => rfl
  ofClose : x.ofClose → y.ofClose := by first | exact id | exact nofun
  inHand : y.inHand = x.inHand := by rfl
  leaving : y.leaving = x.leaving := by rfl
  calls : y.arriving = x.arriving ∧ y.entering = x.entering ∨ y.arriving = [] ∧ y.entering = [] :=
    by first | exact .inl ⟨rfl, rfl⟩ | exact .inr ⟨rfl, rfl⟩
  weight : y.weight < x.weight := by exact Nat.le_of_ble_eq_true rfl

end Section

open Section (Follows)

inductive Moves (s : State) : Section → State → Prop
  | plain (h : Follows x y) : Moves s x { s with
      holder := some y, currentSegmentID := n, writer := w, durable := d }
  | enter (h : s.closing = false) : Moves s (.enter c) { s with holder := some (.rollSegment c) }
  | write : Moves s (.write c) { s with
      holder := some (.enqueue c), writer := w, written := s.written ++ [(c, n)] }
  | enqueue : Moves s (.enqueue c) { s with
      holder := some (.scheduleSync c), syncWaiters := s.syncWaiters ++ [c]
      enqueued := s.enqueued ++ [c] }
  | scheduled (h : s.syncCount = true) : Moves s (.scheduleSync c) { s with
      holder := some (.leave c) }
  | schedule (h : s.syncCount = false) : Moves s (.scheduleSync c) { s with
      holder := some (.leave c), syncCount := true, syncer := some .select }
  | leave : Moves s (.leave c) { s with holder := none, left := s.left ++ [c] }
  | fail : Moves s (.fail c) { s with holder := none }
  | unlock : Moves s .unlock { s with holder := none }
  | take (h : s.syncWaiters = c :: cs) : Moves s (.notify ok p) { s with
      holder := some (.send c ok p), syncWaiters := cs }
  | send (h : c ∈ s.receiving) : Moves s (.send c ok p) { s with
      holder := some (.notify ok p), receiving := s.receiving.erase c
      replies := s.replies ++ [(c, ok)] }
  | closed (h : s.syncWaiters = []) : Moves s (.notify ok .close) { s with
      holder := some .unlock, writer := none }
  | synced (h : s.syncWaiters = []) : Moves s (.notify ok .background) { s with
      holder := none, syncer := some .select }
  | close (h : s.Queued) : Moves s .close { s with
      closing := true, holder := some (if s.writer.isSome then .sync .close else .unlock) }
  | stop (h : s.syncWaiters = []) : Moves s .tick { s with
      holder := none, syncCount := false, syncer := none }
  | round (h : s.syncWaiters ≠ []) : Moves s .tick { s with holder := some (.sync .background) }

theorem of_proper {p : Purpose} (h : (Section.closeFile p).proper) :
    p = .closeSegment ∨ ∃ c, p = .roll c := by
  cases p
  case roll c => exact .inr ⟨c, rfl⟩
  case closeSegment => exact .inl rfl
  all_goals cases h

theorem moves_abort {x : Section} (hw : 1 < x.weight)
    (hx : x = .closeFile p ∨ x = .openFile p) (hp : x.proper) (w : Option SegmentWriter) :
    Moves s x ({ s with writer := w }.abort p) := by
  rcases hx with rfl | rfl <;> rcases of_proper hp with rfl | ⟨c, rfl⟩
  all_goals exact .plain { weight := hw }

theorem moves_runSection (h : Synced s) (hx : s.holder = some x) (hp : x.proper)
    (hc : s.CanRun x) (o : Outcome) : Moves s x (s.runSection o x) := by
  have ha := h.holder
  rw [hx] at ha
  cases x
  case enter c =>
    rw [runSection]
    split
    case isTrue => exact .plain {}
    case isFalse h => exact .enter (Bool.eq_false_of_not_eq_true h)
  case rollSegment c =>
    rw [runSection]
    split
    case h_1 => exact .plain {}
    case h_2 => split <;> exact .plain {}
  case write c =>
    have ⟨w, hw⟩ := Option.isSome_iff_exists.mp ha.left
    simp only [runSection, hw, State.writeEntry]
    split
    case isTrue => exact .write
    case isFalse => exact .plain {}
  case enqueue c =>
    rw [runSection]
    split
    case isTrue => exact .enqueue
    case isFalse => exact .plain {}
  case scheduleSync c =>
    rw [runSection]
    split
    case isTrue h => exact .scheduled h
    case isFalse h => exact .schedule (Bool.eq_false_of_not_eq_true h)
  case leave c => exact .leave
  case fail c => exact .fail
  case newSegmentFile p =>
    rw [runSection]
    rcases of_proper hp with rfl | ⟨c, rfl⟩ <;> split
    all_goals exact .plain {}
  case sync p =>
    have ⟨w, hw⟩ := Option.isSome_iff_exists.mp ha.left
    have hl (ok : Bool) : (Section.notify ok p).weight < (Section.sync p).weight := by
      simp only [Section.weight]
      split <;> omega
    simp only [runSection, hw, State.syncWriter]
    split
    all_goals exact .plain { weight := hl _ }
  case notify ok p =>
    rw [runSection]
    split
    case h_2 hcs => exact .take hcs
    case h_1 hnil =>
      cases p
      case close => exact .closed hnil
      case background => exact .synced hnil
      all_goals exact .plain {}
  case send c ok p => exact .send hc
  case closeFile p =>
    have ⟨w, hw⟩ := Option.isSome_iff_exists.mp ha.left
    simp only [runSection, hw, State.closeWriter]
    split
    case isTrue => exact .plain { proper := hp }
    case isFalse => exact moves_abort (Nat.le_of_ble_eq_true rfl) (.inl rfl) hp _
  case openFile p =>
    rw [runSection]
    split
    case isFalse => exact moves_abort (Nat.le_of_ble_eq_true rfl) (.inr rfl) hp _
    case isTrue =>
      rcases of_proper hp with rfl | ⟨c, rfl⟩
      all_goals
        exact .plain {}
  case closeSegment =>
    rw [runSection]
    split
    case h_1 => exact .plain {}
    case h_2 => split <;> exact .plain {}
  case close =>
    rw [runSection]
    split
    case isFalse => exact .close ha
    case isTrue => exact .plain {}
  case tick =>
    rw [runSection]
    split
    case isTrue hnil => exact .stop hnil
    case isFalse hne => exact .round hne
  case unlock => exact .unlock
  case panic => exact hc.elim

structure Scheduled (s : State) : Prop where
  count : s.syncCount = s.syncer.isSome
  locked : s.syncer = some .locked ↔ s.holder.any (·.background)
  proper : s.holder.all (·.proper)
  opened : s.closing = false → s.syncWaiters ≠ [] → s.syncer.isSome ∨ s.holder.any (·.scheduling)
  closed : s.closing = true →
    s.holder.all (!·.writing) ∧ (s.syncWaiters ≠ [] → s.holder.any (·.ofClose))

theorem scheduled_init (writer : Option Nat) : Scheduled (init writer) := by
  constructor <;> simp [init]

namespace Scheduled

theorem opened_of_writing (h : Scheduled s) (hx : s.holder = some x) (hw : x.writing) :
    s.closing = false := by
  cases hc : s.closing
  case false => rfl
  case true => simpa [hx, hw] using (h.closed hc).left

theorem plain (h : Scheduled s) (hx : s.holder = some x) (hf : Follows x y) :
    Scheduled { s with holder := some y, currentSegmentID := n, writer := w, durable := d } := by
  have ⟨h₁, h₂, _, h₄, h₅⟩ := h
  rw [hx] at h₂ h₄ h₅
  simp only [Option.any_some, Option.all_some, hf.scheduling, Bool.false_eq_true, or_false]
    at h₂ h₄ h₅
  refine ⟨h₁, by rw [h₂, Option.any_some, hf.background], hf.proper, fun hc hq => .inl (h₄ hc hq),
    fun hc => ⟨?_, fun hq => hf.ofClose ((h₅ hc).right hq)⟩⟩
  have hn := (h₅ hc).left
  cases hw : y.writing
  case false => simp [hw]
  case true => simp [hf.writing hw] at hn

theorem moves (h : Scheduled s) (hx : s.holder = some x) (hm : Moves s x s') : Scheduled s' := by
  have ⟨h₁, h₂, h₃, h₄, h₅⟩ := h
  rw [hx] at h₂ h₄ h₅
  cases hm
  case plain hf => exact h.plain hx hf
  case enter hc => exact ⟨h₁, h₂, rfl, h₄, by simp [hc]⟩
  case write => exact ⟨h₁, h₂, rfl, h₄, h₅⟩
  case enqueue =>
    have hc := h.opened_of_writing hx rfl
    exact ⟨h₁, h₂, rfl, fun _ _ => .inr rfl, by simp [hc]⟩
  case scheduled hs =>
    -- The goroutine that has been started before is still there.
    have hc := h.opened_of_writing hx rfl
    exact ⟨h₁, h₂, rfl, fun _ _ => .inl (h₁ ▸ hs), by simp [hc]⟩
  case schedule =>
    have hc := h.opened_of_writing hx rfl
    exact ⟨rfl, by simp [Section.background, Section.purpose], rfl, fun _ _ => .inl rfl,
      by simp [hc]⟩
  case leave | fail | unlock =>
    exact ⟨h₁, h₂, rfl, h₄, fun hc => ⟨rfl, (h₅ hc).right⟩⟩
  case take hcs =>
    have hne : s.syncWaiters ≠ [] := by simp [hcs]
    exact ⟨h₁, h₂, rfl, fun hc _ => h₄ hc hne, fun hc => ⟨(h₅ hc).left, fun _ => (h₅ hc).right hne⟩⟩
  case send => exact ⟨h₁, h₂, rfl, h₄, h₅⟩
  case closed hnil =>
    exact ⟨h₁, h₂, rfl, fun _ hq => absurd hnil hq, fun _ => ⟨rfl, fun hq => absurd hnil hq⟩⟩
  case synced hnil =>
    have hl : s.syncer = some .locked := h₂.mpr rfl
    exact ⟨by rw [h₁, hl]; rfl, by simp, rfl, fun _ hq => absurd hnil hq,
      fun _ => ⟨rfl, fun hq => absurd hnil hq⟩⟩
  case close hq =>
    cases hw : s.writer
    case some w => exact ⟨h₁, h₂, rfl, nofun, fun _ => ⟨rfl, fun _ => rfl⟩⟩
    case none =>
      have hnil := eq_nil_of_queued hq hw
      exact ⟨h₁, h₂, rfl, nofun, fun _ => ⟨rfl, fun hne => absurd hnil hne⟩⟩
  case stop hnil =>
    exact ⟨rfl, by simp, rfl, fun _ hq => absurd hnil hq, fun _ => ⟨rfl, fun hq => absurd hnil hq⟩⟩
  case round hne =>
    exact ⟨h₁, h₂, rfl, h₄, fun hc => ⟨rfl, (h₅ hc).right⟩⟩

theorem take (h : Scheduled s) (hx : s.holder = none) (hp : y.proper) (hb : y.background = false)
    (hw : y.writing = false) : Scheduled { s with holder := some y, started := l } := by
  have ⟨h₁, h₂, _, h₄, h₅⟩ := h
  rw [hx] at h₂ h₄ h₅
  refine ⟨h₁, by simpa [hb] using h₂, hp, fun hc hq => .inl ?_,
    fun hc => ⟨by simp [hw], fun hq => nomatch (h₅ hc).right hq⟩⟩
  simpa using h₄ hc hq

end Scheduled

theorem moves_run (h : Scheduled s) (hs : Synced s) (he : Enabled s (.run o)) :
    ∃ x, s.holder = some x ∧ Moves s x (step s (.run o)) := by
  have ⟨x, hx, hc⟩ := he
  have hp := h.proper
  rw [hx] at hp
  rw [step, hx]
  exact ⟨x, rfl, moves_runSection hs hx hp hc o⟩

theorem scheduled_step (h : Scheduled s) (hs : Synced s) (he : Enabled s e) :
    Scheduled (step s e) := by
  cases e
  case run o =>
    have ⟨x, hx, hm⟩ := moves_run h hs he
    exact h.moves hx hm
  case receive c => exact ⟨h.count, h.locked, h.proper, h.opened, h.closed⟩
  case timer =>
    have he : s.syncer = some .select := he
    have hs : s.syncer.isSome := by rw [he]; rfl
    refine ⟨h.count.trans hs, ?_, h.proper, fun _ _ => .inl rfl, h.closed⟩
    simpa [step, he] using h.locked
  case quit =>
    have ⟨hs, hc⟩ := he
    refine ⟨rfl, ?_, h.proper, fun h₀ => (nomatch hc.symm.trans h₀), h.closed⟩
    simpa [step, hs] using h.locked
  case lock =>
    have ⟨hn, hs⟩ := he
    have hs' : s.syncer.isSome := by rw [hs]; rfl
    have hq : s.closing = true → s.syncWaiters = [] := by
      intro hc
      simpa [hn] using (h.closed hc).right
    exact ⟨h.count.trans hs', iff_of_true rfl rfl, rfl, fun _ _ => .inl rfl,
      fun hc => ⟨rfl, fun hne => absurd (hq hc) hne⟩⟩
  case writeToLog c => exact h.take he.left rfl rfl rfl
  case closeSegment | close => exact h.take he rfl rfl rfl

def State.sec (s : State) (f : Section → List CallID) : List CallID :=
  s.holder.elim [] f

structure Counted (s : State) : Prop where
  waiting : (s.syncWaiters ++ s.sec (·.inHand)).Perm (s.left ++ s.receiving ++ s.sec (·.leaving))
  enqueued : s.enqueued.Perm (s.syncWaiters ++ s.sec (·.inHand) ++ s.replies.map Prod.fst)
  once : (s.enqueued ++ s.sec (·.arriving)).Nodup
  written : (s.written.map Prod.fst ++ s.sec (·.entering)).Nodup
  entry : ∀ c ∈ s.enqueued, c ∈ s.written.map Prod.fst
  fresh : ∀ c ∈ s.sec (·.arriving), c ∈ s.written.map Prod.fst ∨ c ∈ s.sec (·.entering)
  started : ∀ c ∈ s.written.map Prod.fst ++ s.sec (·.entering), c ∈ s.started

theorem counted_init (writer : Option Nat) : Counted (init writer) := by
  constructor <;> simp [init, State.sec]

theorem sec_of_holder (h : s.holder = some x) (f : Section → List CallID) : s.sec f = f x := by
  rw [State.sec, h]
  rfl

namespace Counted

theorem plain (h : Counted s) (hx : s.holder = some x) (hf : Follows x y) :
    Counted { s with holder := some y, currentSegmentID := n, writer := w, durable := d } := by
  have ⟨h₁, h₂, h₃, h₄, h₅, h₆, h₇⟩ := h
  simp only [sec_of_holder hx] at h₁ h₂ h₃ h₄ h₆ h₇
  rw [← hf.inHand, ← hf.leaving] at h₁
  rw [← hf.inHand] at h₂
  rcases hf.calls with ⟨ha, he⟩ | ⟨ha, he⟩
  case inl =>
    rw [← ha] at h₃ h₆
    rw [← he] at h₄ h₆ h₇
    exact ⟨h₁, h₂, h₃, h₄, h₅, h₆, h₇⟩
  case inr =>
    refine ⟨h₁, h₂, ?_, ?_, h₅, ?_, ?_⟩
    all_goals simp only [State.sec, Option.elim_some, ha, he, append_nil]
    · exact h₃.of_append_left
    · exact h₄.of_append_left
    · exact nofun
    · exact fun c hc => h₇ c (mem_append_left _ hc)

theorem moves (h : Counted s) (hx : s.holder = some x) (hm : Moves s x s') : Counted s' := by
  have ⟨h₁, h₂, h₃, h₄, h₅, h₆, h₇⟩ := h
  simp only [sec_of_holder hx] at h₁ h₂ h₃ h₄ h₆ h₇
  cases hm
  case plain hf => exact h.plain hx hf
  case write c _ _ =>
    refine ⟨h₁, h₂, h₃, ?_, ?_, ?_, ?_⟩
    · simpa [State.sec, Section.entering, Section.purpose] using h₄
    · exact fun x hx => by simpa using .inl (by simpa using h₅ x hx)
    · exact forall_mem_singleton.mpr (.inl (by simp))
    · simpa [State.sec, Section.entering, Section.purpose] using h₇
  case enqueue c =>
    have hc : c ∈ s.written.map Prod.fst := by
      simpa [Section.arriving, Section.entering, Section.purpose] using h₆
    refine ⟨?_, ?_, ?_, h₄, forall_mem_append.mpr ⟨h₅, forall_mem_singleton.mpr hc⟩, nofun, h₇⟩
    · simpa [State.sec, Section.inHand, Section.leaving] using h₁.append_right [c]
    · simp only [Section.inHand, append_nil] at h₂
      simp only [State.sec, Option.elim_some, Section.inHand, append_nil, append_assoc]
      refine (h₂.append_right [c]).trans ?_
      rw [append_assoc]
      exact perm_append_comm.append_left _
    · simpa [State.sec, Section.arriving, Section.entering, Section.purpose] using h₃
  case leave c =>
    refine ⟨h₁.trans ?_, h₂, h₃, h₄, h₅, h₆, h₇⟩
    simp only [State.sec, Option.elim_none, Section.leaving, append_nil, append_assoc]
    exact perm_append_comm.append_left _
  case fail c =>
    exact ⟨h₁, h₂, h₃, h₄, h₅, h₆, h₇⟩
  case take c cs ok p hcs =>
    simp only [hcs] at h₁ h₂
    have hp : (cs ++ [c]).Perm (c :: cs ++ []) := by
      rw [append_nil]
      exact perm_append_singleton c cs
    exact ⟨hp.trans h₁, h₂.trans (hp.symm.append_right _), h₃, h₄, h₅, h₆, h₇⟩
  case send c ok p hc =>
    have hr : s.receiving.Perm (c :: s.receiving.erase c) := perm_cons_erase hc
    refine ⟨?_, h₂.trans ?_, h₃, h₄, h₅, h₆, h₇⟩
    · have hp : (c :: s.syncWaiters).Perm (c :: (s.left ++ s.receiving.erase c)) := calc
        (c :: s.syncWaiters).Perm (s.syncWaiters ++ [c]) := (perm_append_singleton c _).symm
        _ |>.Perm (s.left ++ s.receiving) := by simpa [Section.inHand, Section.leaving] using h₁
        _ |>.Perm (s.left ++ c :: s.receiving.erase c) := hr.append_left _
        _ |>.Perm (c :: (s.left ++ s.receiving.erase c)) := perm_middle
      simpa [State.sec, Section.inHand, Section.leaving] using hp.cons_inv
    · simp only [State.sec, Option.elim_some, Section.inHand, map_append, map_cons, map_nil,
        append_nil, append_assoc]
      exact perm_append_comm.append_left _
  case close =>
    cases hw : s.writer <;> exact ⟨h₁, h₂, h₃, h₄, h₅, h₆, h₇⟩
  all_goals exact ⟨h₁, h₂, h₃, h₄, h₅, h₆, h₇⟩

end Counted

theorem counted_step (h : Counted s) (hd : Scheduled s) (hs : Synced s) (he : Enabled s e) :
    Counted (step s e) := by
  have ⟨h₁, h₂, h₃, h₄, h₅, h₆, h₇⟩ := h
  cases e
  case run o =>
    have ⟨x, hx, hm⟩ := moves_run hd hs he
    exact h.moves hx hm
  case writeToLog c =>
    have ⟨hn, hc⟩ := he
    simp only [State.sec, hn, Option.elim_none, append_nil] at h₁ h₂ h₃ h₄ h₇
    have hw : c ∉ s.written.map Prod.fst := fun hm => hc (h₇ c hm)
    refine ⟨?_, ?_, ?_, ?_, h₅, fun x hx => .inr hx, ?_⟩
    · simpa [step, State.sec, Section.inHand, Section.leaving] using h₁
    · simpa [step, State.sec, Section.inHand] using h₂
    · exact nodup_append.mpr ⟨h₃, nodup_singleton c, fun a ha b hb he =>
      hw (mem_singleton.mp hb ▸ he ▸ h₅ a ha)⟩
    · exact nodup_append.mpr ⟨h₄, nodup_singleton c, fun a ha b hb he =>
      hw (mem_singleton.mp hb ▸ he ▸ ha)⟩
    · refine forall_mem_append.mpr ⟨fun x hx => mem_append_left _ (h₇ x hx), ?_⟩
      exact forall_mem_singleton.mpr (mem_append_right _ (mem_singleton_self c))
  case receive c =>
    refine ⟨h₁.trans (Perm.append_right _ ?_), h₂, h₃, h₄, h₅, h₆, h₇⟩
    have hl : s.left.Perm (c :: s.left.erase c) := perm_cons_erase he
    refine (hl.append_right _).trans ?_
    rw [cons_append]
    simpa [step] using (perm_append_singleton c (s.left.erase c ++ s.receiving)).symm
  case closeSegment | close =>
    simp only [State.sec, show s.holder = none from he] at h₁ h₂ h₃ h₄ h₆ h₇
    exact ⟨h₁, h₂, h₃, h₄, h₅, h₆, h₇⟩
  case lock =>
    simp only [State.sec, he.left] at h₁ h₂ h₃ h₄ h₆ h₇
    exact ⟨h₁, h₂, h₃, h₄, h₅, h₆, h₇⟩
  case timer | quit => exact ⟨h₁, h₂, h₃, h₄, h₅, h₆, h₇⟩

section Progress

def Syncer.weight : Syncer → Nat
  | select => 3
  | locking => 2
  | locked => 0

def State.weight (s : State) : Nat :=
  s.holder.elim 0 (·.weight) + s.syncer.elim 0 (·.weight) + 3 * s.syncWaiters.length +
    (if s.syncWaiters ≠ [] ∧ s.holder.all (!·.inRound) then 10 else 0) + s.left.length

theorem weight_of_holder (hx : s.holder = some x) :
    s.weight = x.weight + s.syncer.elim 0 (·.weight) + 3 * s.syncWaiters.length +
      (if s.syncWaiters ≠ [] ∧ x.inRound = false then 10 else 0) + s.left.length := by
  rw [State.weight, hx]
  simp

theorem weight_moves (hx : s.holder = some x) (hm : Moves s x s') : s'.weight < s.weight := by
  rw [weight_of_holder hx]
  cases hm
  case plain hf =>
    have := hf.weight
    rw [weight_of_holder rfl, hf.inRound]
    dsimp only
    omega
  case take c cs ok p hcs =>
    have hr : (Section.send c ok p).inRound = (Section.notify ok p).inRound := rfl
    rw [weight_of_holder rfl, hcs, hr]
    simp only [Section.weight, length_cons]
    split <;> split <;> split <;> simp_all <;> omega
  case send c ok p _ =>
    have hr : (Section.send c ok p).inRound = (Section.notify ok p).inRound := rfl
    rw [weight_of_holder rfl, hr]
    simp only [Section.weight]
    split <;> omega
  case close =>
    cases hw : s.writer
    all_goals
      simp [State.weight, Section.weight, Section.inRound, Section.background, Section.purpose,
        Purpose.isBackground]
  all_goals
    simp_all [State.weight, Section.weight, Syncer.weight, Section.inRound, Section.background,
      Section.purpose, Purpose.isBackground]
  all_goals omega

theorem weight_syncer {s' : State} (hh : s'.holder = s.holder)
    (hq : s'.syncWaiters = s.syncWaiters) (hl : s'.left = s.left)
    (hw : s'.syncer.elim 0 (·.weight) < s.syncer.elim 0 (·.weight)) : s'.weight < s.weight := by
  rw [State.weight, State.weight, hh, hq, hl]
  omega

theorem weight_step (h : Scheduled s) (hs : Synced s) (he : Enabled s e) (hi : e.Internal) :
    (step s e).weight < s.weight := by
  cases e
  case writeToLog | closeSegment | close => exact hi.elim
  case run o =>
    have ⟨x, hx, hm⟩ := moves_run h hs he
    exact weight_moves hx hm
  case receive c =>
    have hlen : (s.left.erase c).length < s.left.length := by
      have hpos := length_pos_of_mem he
      rw [length_erase_of_mem he]
      omega
    exact Nat.add_lt_add_left hlen _
  case timer =>
    have he : s.syncer = some .select := he
    exact weight_syncer rfl rfl rfl (by simp [step, he, Syncer.weight])
  case quit =>
    exact weight_syncer rfl rfl rfl (by simp [step, he.left, Syncer.weight])
  case lock =>
    have ⟨hn, hl⟩ := he
    simp [step, State.weight, hn, hl, Syncer.weight, Section.weight, Section.inRound]

theorem idle_of_quiet (hk : Counted s) (h : Scheduled s) (hs : Synced s) (hq : Quiet s) :
    s.holder = none ∧ s.syncWaiters = [] ∧ s.left = [] ∧ s.receiving = [] := by
  have hleft : s.left = [] := by
    rw [eq_nil_iff_forall_not_mem]
    exact fun c hc => hq (.receive c) trivial hc
  have hholder : s.holder = none := by
    cases hx : s.holder
    case none => rfl
    case some x =>
      have hrun : ¬s.CanRun x := fun hc => hq (.run ⟨true, false, 0⟩) trivial ⟨x, hx, hc⟩
      cases x
      case send c ok p =>
        have hw := hk.waiting
        simp only [sec_of_holder hx, hleft, Section.inHand, Section.leaving, nil_append,
          append_nil] at hw
        exact absurd (hw.subset (by simp)) hrun
      case panic =>
        have ha := hs.holder
        rw [hx] at ha
        exact ha.elim
      all_goals exact absurd trivial hrun
  have hsyncer : s.syncer = none := by
    cases hy : s.syncer
    case none => rfl
    case some y =>
      cases y
      case select => exact absurd hy (hq .timer trivial)
      case locking => exact absurd ⟨hholder, hy⟩ (hq .lock trivial)
      case locked =>
        have hl := h.locked.mp hy
        rw [hholder] at hl
        cases hl
  have hwaiters : s.syncWaiters = [] := by
    by_contra hne
    cases hc : s.closing
    case false => simpa [hsyncer, hholder] using h.opened hc hne
    case true => simpa [hholder] using (h.closed hc).right hne
  refine ⟨hholder, hwaiters, hleft, ?_⟩
  have hw := hk.waiting
  simpa [State.sec, hholder, hwaiters, hleft] using hw

end Progress

structure Sound (s : State) : Prop where
  counted : Counted s
  scheduled : Scheduled s
  synced : Synced s

theorem Sound.step (h : Sound s) (he : Enabled s e) : Sound (step s e) where
  counted := counted_step h.counted h.scheduled h.synced he
  scheduled := scheduled_step h.scheduled h.synced he
  synced := synced_step h.synced he

theorem sound_of_run {seg : Option Nat} (h : Run step Enabled (init seg) s) : Sound s :=
  h.invariant ⟨counted_init seg, scheduled_init seg, synced_init seg⟩ fun hs he => hs.step he

theorem Sound.length_le (h : Sound s)
    (ha : Run.All GroupCommit.step (fun s e => Enabled s e ∧ e.Internal) s es) :
    es.length ≤ s.weight := by
  induction es generalizing s
  case nil => exact Nat.zero_le _
  case cons e es hi =>
    have ⟨⟨he, hint⟩, ha⟩ := ha
    have hw := weight_step h.scheduled h.synced he hint
    have hl := hi (h.step he) ha
    rw [length_cons]
    omega

theorem serves {seg : Option Nat} (h : Run step Enabled (init seg) s) : Serves s := by
  have hs := sound_of_run h
  have ⟨hk, hsch, hsy⟩ := hs
  have honce : (s.replies.map Prod.fst).Nodup :=
    (hk.enqueued.nodup_iff.mp hk.once.of_append_left).of_append_right
  refine ⟨⟨honce, fun r hr => ?_⟩, ⟨s.weight, fun es => hs.length_le⟩, fun hq c hc => ?_,
    fun c hc => ?_, fun hc hne => ?_, fun hw hq => ?_, fun hp => ?_⟩
  · exact hk.enqueued.symm.subset (mem_append_right _ (mem_map_of_mem hr))
  · have ⟨hn, hw, _, _⟩ := idle_of_quiet hk hsch hsy hq
    have hm := hk.enqueued.subset hc
    rw [hw, State.sec, hn] at hm
    have ⟨r, hr, he⟩ := mem_map.mp (by simpa using hm : c ∈ s.replies.map Prod.fst)
    exact ⟨r.2, he ▸ hr⟩
  · have ⟨id, hid⟩ := hsy.replied c hc
    have hmem := hsy.genuine _ hid
    refine ⟨⟨id, hmem⟩, fun id' hid' => ?_⟩
    have hinj := inj_on_of_nodup_map hk.written.of_append_left
    cases hinj hmem hid' rfl
    exact hid
  · refine (hsch.opened hc hne).imp_right fun hany => ?_
    cases hx : s.holder <;> rw [hx] at hany
    case none => cases hany
    case some x =>
      cases x
      case scheduleSync c => exact ⟨c, rfl⟩
      all_goals cases hany
  · have ⟨hn, _, hl, hr⟩ := idle_of_quiet hk hsch hsy hq
    rcases hw with hw | hw
    case inl => simp [hn] at hw
    case inr => simp [hl, hr] at hw
  · have ha := hsy.holder
    rw [hp] at ha
    exact ha

section Sample

def fine : Outcome where
  ok := true
  flush := false
  size := 20

def enqueuing : List Event :=
  [.writeToLog 0, .run fine, .run fine, .run fine, .run fine]

def replying : List Event :=
  enqueuing ++ [.run fine, .run fine, .writeToLog 1] ++ replicate 6 (.run fine) ++
    [.timer, .lock, .run fine, .run fine, .run fine, .receive 0, .run fine, .run fine, .receive 1,
      .run fine, .run fine]

theorem run_enqueuing : Run step Enabled (init (some 1)) (enqueuing.foldl step (init (some 1))) :=
  .foldl ⟨⟨rfl, by decide⟩, ⟨_, rfl, trivial⟩, ⟨_, rfl, trivial⟩, ⟨_, rfl, trivial⟩,
    ⟨_, rfl, trivial⟩, trivial⟩

theorem run_replying : Run step Enabled (init (some 1)) (replying.foldl step (init (some 1))) :=
  .foldl ⟨⟨rfl, by decide⟩, ⟨_, rfl, trivial⟩, ⟨_, rfl, trivial⟩, ⟨_, rfl, trivial⟩,
    ⟨_, rfl, trivial⟩, ⟨_, rfl, trivial⟩, ⟨_, rfl, trivial⟩, ⟨rfl, by decide⟩, ⟨_, rfl, trivial⟩,
    ⟨_, rfl, trivial⟩, ⟨_, rfl, trivial⟩, ⟨_, rfl, trivial⟩, ⟨_, rfl, trivial⟩, ⟨_, rfl, trivial⟩,
    rfl, ⟨rfl, rfl⟩, ⟨_, rfl, trivial⟩, ⟨_, rfl, trivial⟩, ⟨_, rfl, trivial⟩, mem_cons_self,
    ⟨_, rfl, mem_singleton_self 0⟩, ⟨_, rfl, trivial⟩, mem_singleton_self 1,
    ⟨_, rfl, mem_singleton_self 1⟩, ⟨_, rfl, trivial⟩, trivial⟩

theorem serves_two_writes :
    (replying.foldl step (init (some 1))).replies = [(0, true), (1, true)] ∧
    (replying.foldl step (init (some 1))).durable = [(0, 1), (1, 1)] ∧
    Serves (replying.foldl step (init (some 1))) :=
  ⟨rfl, rfl, serves run_replying⟩

-- Between the channel and the compare-and-swap there is a waiter without a goroutine.
theorem waiter_before_goroutine : ∃ s, Run step Enabled (init (some 1)) s ∧ s.closing = false ∧
    s.syncWaiters = [0] ∧ s.syncer = none ∧ s.holder = some (.scheduleSync 0) :=
  ⟨_, run_enqueuing, rfl, rfl, rfl, rfl⟩

end Sample

end Tsm1.GroupCommit
