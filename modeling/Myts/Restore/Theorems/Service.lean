import Myts.Restore.Service

open List

namespace Restore

theorem sendLoop_sublist : (sendLoop sent i reads).Sublist (reads.takeWhile (!·.isEmpty)) := by
  induction reads generalizing i
  case nil => exact .slnil
  case cons b rest hi =>
    rw [sendLoop]
    split
    case isTrue => exact nil_sublist _
    case isFalse hb =>
      rw [takeWhile_cons_of_pos (by simpa using hb)]
      split
      case isTrue => exact hi.cons_cons b
      case isFalse => exact hi.cons b

theorem sendLoop_eq_iff : sendLoop sent i reads = reads.takeWhile (!·.isEmpty)
    ↔ ∀ j < (reads.takeWhile (!·.isEmpty)).length, sent (i + j) := by
  induction reads generalizing i
  case nil => simp [sendLoop]
  case cons b rest hi =>
    rw [sendLoop]
    split
    case isTrue hb => simp [hb]
    case isFalse hb =>
      rw [takeWhile_cons_of_pos (by simpa using hb), length_cons,
        Nat.forall_lt_succ_left]
      simp only [Nat.add_zero, ← Nat.add_assoc, Nat.add_right_comm i _ 1]
      split
      case isTrue hs => rw [cons_inj_right, hi, and_iff_right hs]
      case isFalse hs =>
        refine iff_of_false (fun he => ?_) fun h => hs h.left
        have hl := congrArg List.length he
        have := (sendLoop_sublist : (sendLoop sent (i + 1) rest).Sublist _).length_le
        rw [length_cons] at hl
        omega

theorem recvLoop_sublist : (recvLoop fails ms).Sublist ms := by
  fun_induction recvLoop
  case case1 => exact nil_sublist _
  case case2 => exact .slnil
  case case3 hi => exact hi.cons_cons _
  case case4 hi => exact hi.cons_cons _

theorem recvLoop_eq_iff : recvLoop fails ms = ms ↔ ∀ n ∈ fails, ms.length ≤ n := by
  fun_induction recvLoop
  case case1 ms => simp [eq_comm]
  case case2 => simp
  case case3 hi => simpa using hi
  case case4 hi => simpa using hi

namespace Transfer

variable {t : Transfer} {R : Bytes → Load}

theorem received_sublist : t.received.Sublist t.messages := by
  rw [received]
  split
  case isTrue => exact recvLoop_sublist.trans sendLoop_sublist
  case isFalse => exact nil_sublist _

theorem received_eq_iff (h : t.shard) : t.received = t.messages
    ↔ (∀ i < t.messages.length, t.sent i) ∧ ∀ n ∈ t.recvFails, t.messages.length ≤ n := by
  have hs : sendLoop t.sent 0 t.backup.reads = t.messages ↔ ∀ i < t.messages.length, t.sent i := by
    rw [messages, sendLoop_eq_iff]
    simp only [Nat.zero_add]
  rw [received, if_pos h]
  constructor
  case mp =>
    intro he
    -- Both loops only ever drop messages.
    have hm := (he ▸ recvLoop_sublist).antisymm sendLoop_sublist
    rw [← hm] at he
    exact ⟨hs.mp hm.symm, recvLoop_eq_iff.mp he⟩
  case mpr =>
    rintro ⟨hsent, hrecv⟩
    rw [hs.mpr hsent, recvLoop_eq_iff.mpr hrecv]

theorem ne_nil_of_mem_messages (h : b ∈ t.messages) : b ≠ [] := by
  simpa using mem_takeWhile_imp h

theorem flatten_reads : t.backup.reads.flatten = t.backup.written := by
  rw [Backup.reads, Backup.written]
  induction t.backup.writes
  case nil => rfl
  case cons hi =>
    rw [flatMap_cons, flatten_append, flatten_cons, hi, Pipe.flatten_reads]

theorem flatten_messages_prefix : t.messages.flatten <+: t.backup.written := by
  rw [← flatten_reads]
  exact ( takeWhile_prefix _).flatten

theorem flatten_messages (h : t.Finished) : t.messages.flatten = t.backup.written := by
  have hd : (t.backup.reads.dropWhile (!·.isEmpty)).flatten = [] := by
    obtain ⟨-, -, ht⟩ := h
    rw [Backup.reads]
    generalize t.backup.writes = writes at ht
    induction writes
    case nil => rfl
    case cons w ws hi =>
      by_cases hw : w = []
      case pos =>
        rw [hw, dropWhile_cons_of_neg (by simp), tail_cons] at ht
        rw [hw, ht]
        rfl
      case neg =>
        rw [dropWhile_cons_of_pos (by simpa using hw)] at ht
        rw [flatMap_cons, dropWhile_append_of_pos fun r hr => by
          simpa using Pipe.ne_nil_of_mem_reads (by decide) hw hr]
        exact hi ht
  rw [← flatten_reads, ← takeWhile_append_dropWhile (p := (!·.isEmpty)) (l := t.backup.reads),
    flatten_append, hd, append_nil, messages]

theorem Undisturbed.arrived_eq (h : t.Undisturbed) : t.arrived = t.backup.written := by
  rw [arrived, received_eq_iff h.finished.left |>.mpr ⟨h.sent, h.recv⟩, flatten_messages h.finished]

theorem complete_iff : t.Complete R ↔ t.Faultless R := by
  constructor
  case mp =>
    rintro ⟨hf, hg⟩
    have hl := congrArg List.length hg
    rw [given, length_take] at hl
    have hp := flatten_messages_prefix (t := t) |>.length_le
    have he : t.received = t.messages := by
      refine Pipe.eq_of_length_flatten_le received_sublist (fun _ => ne_nil_of_mem_messages) ?_
      rw [arrived] at hl
      omega
    have ha : t.arrived = t.backup.written := by rw [arrived, he, flatten_messages hf]
    rw [ha] at hl
    have hr := received_eq_iff hf.left |>.mp he
    exact { finished := hf, sent := hr.left, recv := hr.right, read := by omega }
  case mpr => exact fun h => ⟨h.finished, by rw [given, h.arrived_eq, take_of_length_le h.read]⟩

end Transfer

theorem succeeds_iff : Succeeds R t ↔ (t.fromNode ∧ t.stream) ∧ (R t.arrived).err = none := by
  rw [Succeeds, shardRestore]
  split
  case isFalse h => simp [h]
  case isTrue h =>
    rw [and_iff_right h]
    cases (R t.arrived).err <;> simp

theorem restore_complete_iff : ((Succeeds R t → t.Complete R)
      ↔ t.Faultless R ∨ ¬(t.fromNode ∧ t.stream) ∨ (R t.arrived).err ≠ none) ∧
    ((∀ R, ReadsAll R → Succeeds R t → t.Complete R)
      ↔ t.Undisturbed ∨ ¬(t.fromNode ∧ t.stream)) := by
  refine ⟨by rw [succeeds_iff, Transfer.complete_iff, ← not_and_or, or_comm, imp_iff_not_or], ?_⟩
  constructor
  case mp =>
    intro h
    refine or_iff_not_imp_right.mpr fun hs => ?_
    have hc := h (fun b => { read := b.length, err := none }) (fun _ _ => le_rfl)
      (succeeds_iff.mpr ⟨not_not.mp hs, rfl⟩)
    exact (Transfer.complete_iff.mp hc).toUndisturbed
  case mpr =>
    rintro (hu | hn) R hR hs
    case inl =>
      have hr := hR _ (succeeds_iff.mp hs).2
      exact Transfer.complete_iff.mpr ⟨hu, hu.arrived_eq ▸ hr⟩
    case inr => exact absurd (succeeds_iff.mp hs).1 hn

-- `BackupShard` fails after its first file. What has been written until then is an archive, too.
theorem restore_truncated :
    let t : Transfer := {
      fromNode := true
      stream := true
      shard := true
      backup := { writes := [[1, 2], [3]], err := some "no such file or directory" }
      sent := fun _ => true
      recvFails := none }
    let R : Bytes → Load := fun b => { read := b.length, err := none }
    Succeeds R t ∧ ¬t.Complete R ∧ store 7 2 (shardRestore R t) = some (.setStatus 7 2) := by
  refine ⟨⟨_, rfl, rfl⟩, ?_, rfl⟩
  rintro ⟨⟨-, ⟨⟩, -⟩, -⟩

end Restore
