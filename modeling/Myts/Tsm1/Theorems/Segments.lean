import Myts.Tsm1.Segments

open List

namespace Tsm1

section Names

theorem isSegmentName_segmentName (n : Nat) : isSegmentName (segmentName n) := by
  simp [isSegmentName, segmentName]

theorem segmentName_injective : Function.Injective segmentName := by
  intro m n h
  exact Decimal.padUint_injective 5 <| append_cancel_right (List.cons.inj h).2

theorem segmentName_lexLe (h : m < n) (hl : (segmentName m).length = (segmentName n).length) :
    (segmentName m).lexLe (segmentName n) := by
  have hl : (Decimal.padUint 5 m).length = (Decimal.padUint 5 n).length := by
    simpa [segmentName] using hl
  have hn : Decimal.padUint 5 m ≠ Decimal.padUint 5 n :=
    (Decimal.padUint_injective 5).ne h.ne
  have hp := FileName.lexLe_append hl hn (Decimal.padUint_lexLe h hl) ".wal".toList ".wal".toList
  simpa [segmentName, FileName.lexLe] using hp

theorem idFromFileName_segmentName :
    idFromFileName (segmentName n) = if n < 2 ^ 32 then some n else none := by
  have hd : ∀ c ∈ '_' :: Decimal.padUint 5 n, (c == '.') = false := by
    intro c hc
    refine beq_false_of_ne ?_
    rintro rfl
    rcases mem_cons.mp hc with hc | hc
    case inl => cases hc
    case inr => cases Decimal.padUint_isNumeral 5 n '.' hc
  have hs : (segmentName n).splitOn '.' = ['_' :: Decimal.padUint 5 n, "wal".toList] :=
    splitOnP_append_cons_of_forall_mem hd '.' rfl "wal".toList
  rw [idFromFileName, hs]
  simp only [drop_succ_cons, drop_zero, Decimal.parseUint_padUint, Option.filter_some,
    decide_eq_true_eq]

end Names

namespace Log

variable {s : Log} {l : WAL}

structure Numbered (d : Directory) (ns : List Nat) : Prop where
  names : d.map (·.name) = ns.map segmentName
  ascending : ns.Pairwise (· < ·)
  length : ∀ m ∈ ns, ∀ n ∈ ns, (segmentName m).length = (segmentName n).length

theorem Numbered.segmentFileNames (h : Numbered d ns) :
    segmentFileNames d = ns.map segmentName := by
  have hf : (ns.map segmentName).filter isSegmentName = ns.map segmentName := by
    rw [filter_eq_self]
    intro n hn
    obtain ⟨m, -, rfl⟩ := mem_map.mp hn
    exact isSegmentName_segmentName m
  have hs : (ns.map segmentName).Pairwise (·.lexLe ·) := by
    rw [pairwise_map]
    refine h.ascending.imp_of_mem fun hm hn hlt => ?_
    exact segmentName_lexLe hlt (h.length _ hm _ hn)
  rw [Tsm1.segmentFileNames, h.names, hf]
  exact hs.insertionSort_eq

theorem Numbered.of_sublist (h : Numbered d ns)
    (hs : (d'.map (·.name)).Sublist (d.map (·.name))) :
    ∃ ns' : List Nat, ns'.Sublist ns ∧ Numbered d' ns' := by
  rw [h.names, sublist_map_iff] at hs
  obtain ⟨ns', hn, he⟩ := hs
  exact ⟨ns', hn, he, h.ascending.sublist hn,
    fun m hm n hn' => h.length m (hn.subset hm) n (hn.subset hn')⟩

theorem numbered_write (h : Numbered d ns) : Numbered (d.write n c) ns := by
  refine { h with names := ?_ }
  rw [← h.names, Directory.write, map_map]
  refine map_congr_left fun e _ => ?_
  simp only [Function.comp_apply]
  split <;> rfl

theorem numbered_sync (h : Numbered d ns) (w : Option WALSegmentWriter) :
    Numbered ((w.map (·.sync d)).getD d) ns := by
  cases w
  case none => exact h
  case some w => exact numbered_write h

theorem Numbered.append (h : Numbered d ns) (hn : ∀ m ∈ ns, m ≤ n)
    (hl : ∀ m ∈ ns, (segmentName m).length = (segmentName (n + 1)).length) :
    ∃ d', d.openFile (segmentName (n + 1)) = ([], d') ∧ Numbered d' (ns ++ [n + 1]) := by
  have hd : ∀ e ∈ d, e.name ≠ segmentName (n + 1) := by
    intro e he hn'
    have hm : e.name ∈ ns.map segmentName := h.names ▸ mem_map_of_mem he
    obtain ⟨m, hm, he⟩ := mem_map.mp hm
    have := segmentName_injective (he.trans hn')
    have := hn m hm
    omega
  refine ⟨_, Directory.openFile_of_notMem hd, ?_⟩
  constructor
  case names => rw [map_append, map_append, h.names]; rfl
  case ascending =>
    refine pairwise_append.mpr ⟨h.ascending, pairwise_singleton .., fun m hm k hk => ?_⟩
    have := hn m hm
    rw [mem_singleton.mp hk]
    omega
  case length =>
    intro m hm k hk
    rw [mem_append, mem_singleton] at hm hk
    rcases hm with hm | rfl <;> rcases hk with hk | rfl
    · exact h.length m hm k hk
    · exact hl m hm
    · exact (hl k hk).symm
    · rfl

structure Sound (s : Log) (ns : List Nat) : Prop where
  numbered : Numbered s.disk ns
  current : ∀ l ∈ s.wal, ∀ n ∈ ns, n ≤ l.currentSegmentID
  found : ∀ b ∈ s.found, b = []

theorem fits_iff (h : Numbered s.disk ns) :
    s.Fits n ↔ ∀ m ∈ ns, (segmentName m).length = (segmentName (n + 1)).length := by
  have hm : (∀ e ∈ s.disk, e.name.length = (segmentName (n + 1)).length) ↔
      ∀ x ∈ s.disk.map (·.name), x.length = (segmentName (n + 1)).length :=
    (forall_mem_map (P := fun x : FileName => x.length = (segmentName (n + 1)).length)).symm
  rw [Fits, hm, h.names, forall_mem_map]

theorem sound_newSegmentFile (h : Numbered s.disk ns) (hf : ∀ b ∈ s.found, b = [])
    (hn : ∀ n ∈ ns, n ≤ l.currentSegmentID)
    (hl : ∀ m ∈ ns, (segmentName m).length = (segmentName (l.currentSegmentID + 1)).length) :
    ∃ ns, (s.newSegmentFile l).Sound ns := by
  obtain ⟨d', hd', hN⟩ := (numbered_sync h l.currentSegmentWriter).append hn hl
  refine ⟨ns ++ [l.currentSegmentID + 1], ?_, ?_, ?_⟩
  · rw [newSegmentFile, hd']
    exact hN
  · intro l' hl' m hm
    cases hl'
    rcases mem_append.mp hm with hm | hm
    case inl => exact (hn m hm).trans (Nat.le_succ _)
    case inr => exact (mem_singleton.mp hm).le
  · intro b hb
    rw [newSegmentFile, hd'] at hb
    rcases mem_append.mp hb with hb | hb
    case inl => exact hf b hb
    case inr => exact mem_singleton.mp hb

theorem sublist_remove (d : Directory) (n : FileName) :
    ((d.remove n).map (·.name)).Sublist (d.map (·.name)) :=
  filter_sublist.map _

theorem Numbered.le_getLast (h : Numbered d ns) (hn : n ∈ ns.getLast?) : ∀ m ∈ ns, m ≤ n := by
  intro m hm
  obtain ⟨ms, rfl⟩ := getLast?_eq_some_iff.mp hn
  rcases mem_append.mp hm with hm | hm
  case inl =>
    have hp := (pairwise_append.mp h.ascending).2.2 m hm n (mem_singleton_self n)
    exact hp.le
  case inr => exact (mem_singleton.mp hm).le

theorem sound_openWAL (h : s.Sound ns)
    (hu : ∀ last ∈ (segmentFileNames s.disk).getLast?, ∀ n ∈ idFromFileName last, s.Fits n) :
    ∃ ns, (s.openWAL l).Sound ns := by
  unfold openWAL
  split
  case h_1 he =>
    rw [h.numbered.segmentFileNames, getLast?_map, Option.map_eq_none_iff,
      getLast?_eq_none_iff] at he
    subst he
    exact ⟨[], h.numbered, fun _ _ => nofun, h.found⟩
  case h_2 last hlast =>
    have hlast' := hlast
    rw [h.numbered.segmentFileNames, getLast?_map, Option.map_eq_some_iff] at hlast
    obtain ⟨n, hn, rfl⟩ := hlast
    split
    case h_1 => exact ⟨ns, h.numbered, nofun, h.found⟩
    case h_2 m hm =>
      have hf := (fits_iff h.numbered).mp <| hu _ hlast' m hm
      rw [idFromFileName_segmentName] at hm
      split at hm <;> cases hm
      have hle := h.numbered.le_getLast hn
      dsimp only
      split
      case isFalse => exact sound_newSegmentFile h.numbered h.found hle hf
      case isTrue =>
        obtain ⟨ns', hs, hN⟩ := h.numbered.of_sublist (sublist_remove s.disk (segmentName n))
        exact sound_newSegmentFile hN h.found (fun k hk => hle k (hs.subset hk))
          fun k hk => hf k (hs.subset hk)

theorem Sound.append (h : s.Sound ns) (hl : ∀ n ∈ ns, n ≤ l.currentSegmentID) :
    (s.append l b).Sound ns where
  numbered := h.numbered
  current _ hl' := by cases hl'; exact hl
  found := h.found

theorem sound_writeToLog (h : s.Sound ns) (hl : l ∈ s.wal)
    (hu : l.Full → s.Fits l.currentSegmentID) : ∃ ns, (s.writeToLog l b).Sound ns := by
  have hc := h.current l hl
  unfold writeToLog
  split
  case isTrue => exact ⟨ns, h⟩
  case isFalse =>
    split
    case isFalse => exact ⟨ns, h.append hc⟩
    case isTrue hf =>
      obtain ⟨ns', h'⟩ :=
        sound_newSegmentFile h.numbered h.found hc ((fits_iff h.numbered).mp (hu hf))
      exact ⟨ns', h'.append fun n hn => h'.current _ rfl n hn⟩

theorem sound_flush (h : s.Sound ns) (hl : l ∈ s.wal) : (s.flush l n).Sound ns := by
  unfold flush
  split
  case h_1 => exact h
  case h_2 =>
    refine ⟨numbered_write h.numbered, fun l' hl' => ?_, h.found⟩
    cases hl'
    exact h.current l hl

theorem sound_closeSegment (h : s.Sound ns) (hl : l ∈ s.wal)
    (hu : l.NotEmpty → s.Fits l.currentSegmentID) : ∃ ns, (s.closeSegment l).Sound ns := by
  unfold closeSegment
  split
  case isFalse => exact ⟨ns, h⟩
  case isTrue hn =>
    exact sound_newSegmentFile h.numbered h.found (h.current l hl)
      ((fits_iff h.numbered).mp (hu hn))

theorem Sound.of_sublist (h : s.Sound ns)
    (hs : (d.map (·.name)).Sublist (s.disk.map (·.name))) (hw : ∀ l ∈ w, l ∈ s.wal) :
    ∃ ns, Sound ⟨d, w, c, s.found⟩ ns := by
  obtain ⟨ns', hn, hN⟩ := h.numbered.of_sublist hs
  exact ⟨ns', hN, fun l hl n hn' => h.current l (hw l hl) n (hn.subset hn'), h.found⟩

theorem sound_remove (h : s.Sound ns) : ∃ ns, (s.remove n).Sound ns := by
  unfold remove
  split
  case isTrue => exact h.of_sublist (sublist_remove ..) fun _ => id
  case isFalse => exact ⟨ns, h⟩

theorem sound_close (h : s.Sound ns) (hl : l ∈ s.wal) : (s.close l).Sound ns := by
  unfold close
  split
  case isTrue => exact h
  case isFalse =>
    refine ⟨numbered_sync h.numbered _, fun l' hl' => ?_, h.found⟩
    cases hl'
    exact h.current l hl

theorem sound_crash (h : s.Sound ns) : ∃ ns, (s.crash left).Sound ns := by
  refine h.of_sublist ?_ nofun
  induction s.disk
  case nil => exact .slnil
  case cons e d hi =>
    rw [filterMap_cons]
    cases left e.name
    case none => exact hi.cons _
    case some n => exact hi.cons_cons _

theorem sound_withWAL (h : s.Sound ns) (hf : ∀ l ∈ s.wal, ∃ ns, (f l).Sound ns) :
    ∃ ns, (s.withWAL f).Sound ns := by
  unfold withWAL
  split
  case h_1 => exact ⟨ns, h⟩
  case h_2 hw => exact hf _ hw

theorem sound_step (h : s.Sound ns) (hu : s.Uniform e) : ∃ ns, (s.step e).Sound ns := by
  cases e
  case start =>
    rw [step]
    split
    case isTrue => exact sound_openWAL h hu
    case isFalse => exact ⟨ns, h⟩
  case reopen => exact sound_withWAL h fun l hl => sound_openWAL h hu
  case write => exact sound_withWAL h fun l hl => sound_writeToLog h hl (hu l hl)
  case flush => exact sound_withWAL h fun l hl => ⟨ns, sound_flush h hl⟩
  case closeSegment => exact sound_withWAL h fun l hl => sound_closeSegment h hl (hu l hl)
  case closedSegments => exact sound_withWAL h fun l hl => ⟨ns, h.numbered, h.current, h.found⟩
  case remove => exact sound_withWAL h fun _ _ => sound_remove h
  case close => exact sound_withWAL h fun l hl => ⟨ns, sound_close h hl⟩
  case crash => exact sound_crash h

-- In a run in which the names of the segments fit to each other, they are listed as they were
-- created, and no segment is opened that exists already.
theorem segments_in_order (h : Run step Uniform init s) : s.InOrder ∧ ∀ b ∈ s.found, b = [] := by
  obtain ⟨ns, hs⟩ := h.invariant (I := fun s => ∃ ns, s.Sound ns)
    ⟨[], ⟨rfl, .nil, nofun⟩, nofun, nofun⟩ fun ⟨_, h⟩ hu => sound_step h hu
  exact ⟨hs.numbered.segmentFileNames.trans hs.numbered.names.symm, hs.found⟩

theorem segments_in_order_restart :
    let s := [.start, .write [1], .closeSegment, .write [2], .flush 1, .crash fun _ => some 1,
      .start].foldl step init
    s.disk.map (·.name) = [segmentName 1, segmentName 2, segmentName 3] ∧ s.InOrder ∧
      ∀ b ∈ s.found, b = [] :=
  ⟨by decide +kernel, segments_in_order <| .foldl (by decide +kernel)⟩

def round (n : Nat) : List Event :=
  [.write [1], .closeSegment, .closedSegments, .remove (segmentName n)]

structure Turned (s : Log) (n : Nat) : Prop where
  disk : s.disk = [⟨segmentName n, false, []⟩]
  wal : s.wal = some ⟨n, some ⟨segmentName n, 0, []⟩, false, false⟩

theorem turned_round (h : s.Turned n) : ((round n).foldl step s).Turned (n + 1) := by
  have hn : segmentName n ≠ segmentName (n + 1) := segmentName_injective.ne n.succ_ne_self.symm
  obtain ⟨disk, wal, closed, found⟩ := s
  obtain ⟨rfl, rfl⟩ := h
  have hm {d : Directory} (hd : d.map (·.name) = [segmentName n, segmentName (n + 1)]) :
      segmentName n ∈ segmentFileNames d := by
    rw [segmentFileNames, mem_insertionSort, mem_filter, hd]
    exact ⟨mem_cons_self, isSegmentName_segmentName n⟩
  constructor
  all_goals
    simp [round, step, withWAL, writeToLog, append, closeSegment, closedSegments, remove,
      newSegmentFile, WAL.Full, WAL.NotEmpty, WALSegmentWriter.write, WALSegmentWriter.sync,
      WALSegmentWriter.flush, Directory.write, Directory.openFile, Directory.remove, hm, hn, hn.symm]

theorem exists_turned (n : Nat) :
    ∃ events : List Event, (events.foldl step init).Turned (n + 1) := by
  induction n
  case zero => exact ⟨[.start, .closeSegment], by decide +kernel, by decide +kernel⟩
  case succ n hi =>
    obtain ⟨events, h⟩ := hi
    refine ⟨events ++ round (n + 1), ?_⟩
    rw [foldl_append]
    exact turned_round h

-- The segment 100000 is listed before the segment 99999, and it is opened again after a restart.
theorem segment_overwritten : ∃ events : List Event, let s := events.foldl step init
    ¬s.InOrder ∧ ∃ b ∈ s.found, b ≠ [] := by
  obtain ⟨events, h⟩ := exists_turned 99998
  refine ⟨events ++ [.write [1], .closeSegment, .write [2], .flush 1, .crash fun _ => some 1,
    .start], ?_⟩
  rw [foldl_append]
  generalize events.foldl step init = s at h
  obtain ⟨disk, wal, closed, found⟩ := s
  obtain ⟨rfl, rfl⟩ := h
  constructor
  case left =>
    have hd : (List.foldl step ⟨[⟨segmentName 99999, false, []⟩], some ⟨99999,
        some ⟨segmentName 99999, 0, []⟩, false, false⟩, closed, found⟩ [.write [1], .closeSegment,
        .write [2], .flush 1, .crash fun _ => some 1, .start]).disk =
        [⟨segmentName 99999, false, [1]⟩, ⟨segmentName 100000, false, [2]⟩] := rfl
    rw [InOrder, hd]
    decide +kernel
  case right => exact ⟨[2], mem_append_right _ (mem_singleton_self _), by decide⟩

end Log

end Tsm1
