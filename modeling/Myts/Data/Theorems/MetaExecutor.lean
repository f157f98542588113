import Myts.Data.MetaExecutor

open List

open WaitGroup

namespace MetaExecutor.Execution

variable {x : Execution}

theorem sum_toList_length (l : List α) (f : α → Option β) :
    ∑ i : Fin l.length, (f (l.get i)).toList.length = l.countP fun a => (f a).isSome := by
  refine (Fin.sum_univ_fun_getElem l fun a => (f a).toList.length).trans ?_
  induction l
  case nil => rfl
  case cons a l hi => cases ha : f a <;> simp [ha, hi, add_comm]

theorem failure_eq_none_iff :
    x.failure remote = none ↔ executeOnNode (x.conversation remote.2) = .ok () := by
  rw [failure]
  split <;> simp [*]

theorem load_eq :
    x.job.load = x.nodes.zipIdx.countP fun p => decide (p.1.id ≠ x.nodeID) && (x.failure p).isSome := by
  refine (sum_toList_length x.remotes x.failure).trans ?_
  rw [remotes, countP_filter]
  simp only [Bool.and_comm]

theorem load_le_cap_iff (hn : x.nodes ≠ []) : x.job.load ≤ x.job.cap ↔
    (∃ node ∈ x.nodes, node.id = x.nodeID) ∨
      ∃ remote ∈ x.remotes, executeOnNode (x.conversation remote.2) = .ok () := by
  have hl := length_pos_iff.mpr hn
  have hc : x.job.load ≤ x.job.cap ↔ ¬x.job.load = x.nodes.zipIdx.length := by
    have : x.job.load ≤ x.nodes.zipIdx.length := load_eq ▸ countP_le_length
    have hj : x.job.cap = x.nodes.length - 1 := rfl
    rw [length_zipIdx] at this ⊢
    omega
  rw [hc, load_eq, countP_eq_length]
  constructor
  case mp =>
    intro h
    push Not at h
    obtain ⟨p, hm, hp⟩ := h
    by_cases hi : p.1.id = x.nodeID
    case pos => exact .inl ⟨p.1, fst_mem_of_mem_zipIdx hm, hi⟩
    case neg =>
      refine .inr ⟨p, by simpa [remotes, hi] using hm, ?_⟩
      simpa [hi, failure_eq_none_iff] using hp
  case mpr =>
    rintro (⟨node, hm, hi⟩ | ⟨p, hm, hp⟩) h
    case inl =>
      obtain ⟨i, hi'⟩ := mem_iff_getElem?.mp hm
      have := h (node, i) (mk_mem_zipIdx_iff_getElem?.mpr hi')
      simp [hi] at this
    case inr =>
      have := h p (mem_of_mem_filter hm)
      simp [failure_eq_none_iff.mpr hp] at this

theorem coherent_after (es : List (Event x.remotes.length)) : (x.after es).Coherent x.job :=
  State.coherent_foldl x.job es

theorem executeOnNode_of_returned (hr : x.executeStatement es = some none) (hm : remote ∈ x.remotes) :
    executeOnNode (x.conversation remote.2) = .ok () := by
  rw [executeStatement] at hr
  split at hr
  case h_1 => cases hr
  case h_2 hd => simp [remotes, nodes, hd] at hm
  case h_3 =>
    have hr : (x.after es).returned = some none := by
      cases h : (x.after es).returned <;> simp_all
    obtain ⟨i, rfl⟩ := get_of_mem hm
    exact failure_eq_none_iff.mp <| (coherent_after es).sends_eq_none hr i

theorem sound_iff (x : Execution) : x.Sound ↔ x.LeavesRoom := by
  by_cases hn : x.nodes = []
  case pos =>
    refine iff_of_true ⟨absurd hn, fun es hb => ?_, fun _ hr _ => executeOnNode_of_returned hr⟩
      (.inl hn)
    obtain ⟨i, _⟩ := hb
    have hr : x.remotes = [] := by simp [remotes, hn]
    exact absurd i.isLt (by simp [hr])
  case neg =>
    rw [LeavesRoom, or_iff_right hn, ← load_le_cap_iff hn]
    constructor
    case mp => exact fun h => State.inevitable_iff.mp (h.returns hn)
    case mpr =>
      exact fun hl => {
        returns _ := State.inevitable_iff.mpr hl
        unblocked es := (coherent_after es).not_blocked hl
        reports _ hr _ := executeOnNode_of_returned hr }

def down : Conversation where
  dial := some "connection refused"
  marshal := none
  write := none
  read := none
  unmarshal := .ok { code := 0, message := "" }

def allDown : Execution where
  nodeID := 1
  dataNodes := .ok [⟨2, "h2", "t2"⟩, ⟨3, "h3", "t3"⟩]
  conversation := fun _ => down

def allDownEvents : List (Event allDown.remotes.length) :=
  let first  : Fin allDown.remotes.length := ⟨0, by decide⟩
  let second : Fin allDown.remotes.length := ⟨1, by decide⟩
  [.start, .start, .finish first, .finish second, .send first, .exit first]

theorem allDown_blocked :
    (allDown.after allDownEvents).Blocked allDown.job
    ∧ ∀ es, allDown.executeStatement es = none := by
  refine ⟨by decide +kernel, fun es => ?_⟩
  have hr : ¬(allDown.after es).Returned := fun hr =>
    absurd ((coherent_after es).load_le hr) (by decide +kernel)
  have hr : (allDown.after es).returned = none := by simpa [State.Returned] using hr
  change (allDown.after es).returned.map _ = none
  rw [hr]
  rfl

end MetaExecutor.Execution
