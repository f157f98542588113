import Myts.Tsm1.TombstoneStats

open List

namespace Tsm1.TombstoneStats

namespace Call

structure Inv (added : Bool) (c : Call) : Prop where
  added : (∀ files, c.phase ≠ .returned files) → c.due → added
  statted : ∀ stat, c.phase = .statted stat → c.due → ∃ st, stat = .found st
  reports : c.Reports

theorem Inv.waive {c : Call} (h : c.Inv b) : c.waive.Inv false := by
  obtain ⟨phase, due⟩ := c
  cases phase
  case returned files => exact { h with added := fun hn => absurd rfl (hn files) }
  all_goals exact ⟨nofun, nofun, nofun⟩

theorem Inv.imp {c : Call} {b b' : Bool} (h : c.Inv b) (hb : b → b') : c.Inv b' :=
  { h with added := fun h₁ h₂ => hb (h.added h₁ h₂) }

end Call

namespace Tombstoner

structure Inv (t : Tombstoner) : Prop where
  cached : t.statsLoaded → t.fileStats = [] → t.file = none
  file : t.added → t.file ≠ none
  adding : t.writer = .adding → t.statsLoaded = false
  renamed : t.writer = .renamed → t.statsLoaded = false ∧ t.file ≠ none
  deleting : t.writer = .deleting ∨ t.writer = .removed → t.added = false
  calls : ∀ c ∈ t.calls, c.Inv t.added

variable {t : Tombstoner}

theorem Inv.init (file : Option FileStat) : (init file).Inv where
  cached := nofun
  file := nofun
  adding := nofun
  renamed := nofun
  deleting := nofun
  calls := nofun

theorem mem_modify {l : List α} (h : a ∈ l.modify i f) : a ∈ l ∨ ∃ b, l[i]? = some b ∧ a = f b := by
  obtain ⟨j, hj⟩ := mem_iff_getElem?.mp h
  rw [getElem?_modify] at hj
  obtain ⟨b, hb, rfl⟩ := Option.map_eq_some_iff.mp hj
  by_cases hij : i = j
  case pos => exact .inr ⟨b, hij ▸ hb, by simp [hij]⟩
  case neg => exact .inl (by simpa [hij] using mem_of_getElem? hb)

theorem Inv.calls_move (h : t.Inv) (hp : t.phase? i = some p)
    (hm : ∀ due, Call.Inv t.added { phase := p, due } → Call.Inv t.added { phase := p', due }) :
    ∀ c ∈ (t.move i p').calls, c.Inv t.added := by
  intro c hc
  rcases mem_modify hc with hc | ⟨b, hb, rfl⟩
  case inl => exact h.calls c hc
  case inr =>
    rw [phase?, hb, Option.map_some, Option.some_inj] at hp
    subst hp
    exact hm b.due (h.calls b <| mem_of_getElem? hb)

theorem Inv.check (h : t.Inv) (hp : t.phase? i = some .entered) : (t.check i).Inv := by
  refine { h with calls := h.calls_move hp fun due hc => ?_ }
  cases hs : t.statsLoaded
  case false => exact ⟨fun _ => hc.added nofun, nofun, nofun⟩
  case true =>
    refine ⟨fun hn => absurd rfl (hn t.fileStats), nofun, ?_⟩
    rintro files ⟨⟩ hd
    -- The statistics that are remembered are not those of a missing file.
    exact fun he => h.file (hc.added nofun hd) (h.cached hs he)

theorem Inv.statted (h : t.Inv) (hp : t.phase? i = some .missed) :
    (t.move i (.statted (t.osStat false))).Inv := by
  refine { h with calls := h.calls_move hp fun due hc => ?_ }
  refine ⟨fun _ => hc.added nofun, ?_, nofun⟩
  rintro stat ⟨⟩ hd
  obtain ⟨st, hst⟩ := Option.ne_none_iff_exists'.mp <| h.file (hc.added nofun hd)
  exact ⟨st, by rw [osStat, hst]; rfl⟩

theorem Inv.publish (h : t.Inv) {stat : Stat}
    (hp : t.phase? i = some (.statted stat)) (hw : t.writer = .idle)
    (hf : stat = .notExist → t.file = none) : (t.publish i stat).Inv := by
  have ha : t.writer ≠ .adding := by simp [hw]
  have hr : t.writer ≠ .renamed := by simp [hw]
  cases stat
  case found st =>
    refine { h with
      cached := fun _ => nofun, adding := (absurd · ha), renamed := (absurd · hr), calls := ?_ }
    refine h.calls_move hp fun due hc => ?_
    exact ⟨fun hn => absurd rfl (hn [st]), nofun, by rintro files ⟨⟩ hd; simp⟩
  case notExist =>
    refine { h with
      cached := fun _ _ => hf rfl, adding := (absurd · ha), renamed := (absurd · hr), calls := ?_ }
    refine h.calls_move hp fun due hc => ?_
    refine ⟨fun hn => absurd rfl (hn []), nofun, ?_⟩
    rintro files ⟨⟩ hd
    cases (hc.statted _ rfl hd).choose_spec
  case failed =>
    refine { h with
      cached := nofun, adding := (absurd · ha), renamed := (absurd · hr), calls := ?_ }
    refine h.calls_move hp fun due hc => ?_
    refine ⟨fun hn => absurd rfl (hn []), nofun, ?_⟩
    rintro files ⟨⟩ hd
    cases (hc.statted _ rfl hd).choose_spec

theorem Inv.step (h : t.Inv) (hf : t.Fresh e) : (t.step e).Inv := by
  have ⟨h₁, h₂, h₃, h₄, h₅, h₆⟩ := h
  cases e <;> rw [Tombstoner.step]
  case call =>
    refine { h with calls := ?_ }
    rw [forall_mem_append, forall_mem_singleton]
    exact ⟨h₆, fun _ => id, nofun, nofun⟩
  case check i =>
    split
    case isTrue hc => exact h.check hc.2
    case isFalse => exact h
  case stat i failed =>
    split
    case isTrue hc => exact hf ▸ h.statted hc
    case isFalse => exact h
  case publish i =>
    split
    case h_2 => exact h
    case h_1 st hp =>
      split
      case isTrue hw => exact h.publish hp hw fun he => hf (he ▸ hp)
      case isFalse => exact h
  case lockDelete =>
    split
    case isFalse => exact h
    case isTrue =>
      refine ⟨h₁, nofun, nofun, nofun, fun _ => rfl, forall_mem_map.mpr fun c hc => ?_⟩
      exact (h₆ c hc).waive
  case readFails =>
    split
    case isFalse => exact h
    case isTrue =>
      exact ⟨h₁, fun _ => hf, nofun, nofun, nofun, fun c hc => (h₆ c hc).imp fun _ => rfl⟩
  case addReturns err =>
    split
    case isFalse => exact h
    case isTrue hw =>
      refine ⟨h₁, fun _ => (h₄ hw).2, nofun, nofun, nofun, fun c hc => ?_⟩
      exact (h₆ c hc).imp (Bool.or_inl ·)
  all_goals
    split
    · constructor <;> grind
    · exact h

-- A call reports the file if it starts after an `AddRange` that has returned `nil`.
theorem reports_of_fresh {file : Option FileStat} (h : Run step Fresh (Tombstoner.init file) t) :
    ∀ c ∈ t.calls, c.Reports :=
  fun c hc => (h.invariant (Inv.init file) Inv.step).calls c hc |>.reports

def missedThenFound : List Event :=
  [.call, .check 0, .stat 0 false, .publish 0, .lockAdd, .rename ⟨1, 40⟩, .addReturns false,
    .call, .check 1, .stat 1 false, .publish 1, .call, .check 2]

theorem reports_missed_then_found :
    let t := missedThenFound.foldl step (Tombstoner.init none)
    t.calls = [⟨.returned [], false⟩, ⟨.returned [⟨1, 40⟩], true⟩, ⟨.returned [⟨1, 40⟩], true⟩] ∧
    ∀ c ∈ t.calls, c.Reports :=
  ⟨by decide, reports_of_fresh (.foldl (by decide))⟩

def publishedLate : List Event :=
  [.call, .check 0, .stat 0 false, .lockAdd, .rename ⟨1, 40⟩, .addReturns false, .publish 0,
    .call, .check 1]

theorem published_late_hides_file :
    let t := publishedLate.foldl step (Tombstoner.init none)
    t.file = some ⟨1, 40⟩ ∧ t.calls = [⟨.returned [], false⟩, ⟨.returned [], true⟩] ∧
    ¬∀ c ∈ t.calls, c.Reports := by
  refine ⟨by decide, by decide, fun h => ?_⟩
  exact h ⟨.returned [], true⟩ (by decide) [] rfl rfl rfl

end Tombstoner

end Tsm1.TombstoneStats
