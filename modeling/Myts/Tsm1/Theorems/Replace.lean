import Myts.Tsm1.Replace

open List

namespace Tsm1.Replacing

variable {D : Type} {fails : Op → Bool} {j : Nat} {old : List Path}

theorem forall_getElem?_cons {P : Nat → α → Prop} {l : List α} :
    (∀ k, ∀ a ∈ (x :: l)[k]?, P (i + k) a) ↔ P i x ∧ ∀ k, ∀ a ∈ l[k]?, P (i + 1 + k) a := by
  rw [← Nat.and_forall_add_one]
  simp [Nat.add_assoc, Nat.add_comm 1]

namespace Reader

variable {x : Reader D}

structure Pruned (fails : Op → Bool) (j : Nat) (old : List Path) (x : Reader D)
    (r : Option Op × Bool × Reader D) : Prop where
  error : r.1 = (x.script j old).find? fails
  keep : r.2.1 = decide (x.path ∉ old)
  content : r.2.2.content = x.content
  readable : r.2.2.Readable ↔ x.Readable ∧ x.Spared fails j old
  kept : x.path ∉ old → r.2.2 = x

theorem Pruned.of_ne {o : Option Op × Bool × Reader D} (h : Pruned fails j old x o)
    (hr : r ≠ x.path) : Pruned fails j (r :: old) x o := by
  have hc : x.path ∈ r :: old ↔ x.path ∈ old := by simp [Ne.symm hr]
  have hs : x.script j (r :: old) = x.script j old := by simp [script, names, hr, hc]
  exact {
    error := hs ▸ h.error
    keep := by simpa only [hc] using h.keep
    content := h.content
    readable := by simpa only [Spared, hc] using h.readable
    kept := by simpa only [hc] using h.kept
  }

theorem prune_not_inUse (h : x.inUse = false) (hm : x.mapped) :
    Pruned fails j old x (x.prune fails j old) := by
  induction old
  case nil => constructor <;> simp [script, prune, Spared, h]
  case cons r old hi =>
    unfold prune
    by_cases hr : r = x.path
    case neg =>
      rw [if_neg hr]
      exact hi.of_ne hr
    case pos =>
      subst hr
      rw [if_pos rfl, h, if_neg Bool.false_ne_true, close, hm]
      cases h₁ : fails (.munmap j x.path)
      case true => constructor <;> simp [script, Spared, h, h₁]
      case false =>
        cases h₂ : fails (.closeFile j x.path)
        case true => constructor <;> simp [script, Spared, Readable, h, h₁, h₂]
        case false =>
          cases h₃ : fails (.munmapIndex j x.path) <;>
            constructor <;> simp [script, Spared, Readable, remove, h, h₁, h₂, h₃]

theorem rename_eq (fails : Op → Bool) (j : Nat) (target : Path) :
    ((x.renameScript j x.path).find? fails = some (.munmap j x.path) ∧ fails (.munmap j x.path) ∧
      x.rename fails j target = (some (.munmap j x.path), x)) ∨
    ¬fails (.munmap j x.path) ∧
      ((∃ op, (x.renameScript j x.path).find? fails = some op ∧ ∃ x',
        x.rename fails j target = (some op, x') ∧ x'.content = x.content ∧ x'.indexed = false) ∨
      ((x.renameScript j x.path).find? fails =
        ((x.tombstones ++ [x.path]).map (.removeAll j x.path)).find? fails ∧
      x.rename fails j target =
        (none, { x with path := target, mapped := true, indexed := false }))) := by
  by_cases hu : fails (.munmap j x.path)
  case pos => exact .inl ⟨find?_cons_of_pos hu, hu, if_pos hu⟩
  case neg =>
    have hs : (x.renameScript j x.path).find? fails =
        ([.closeFile j x.path, .renameFile j x.path, .reopen j x.path].find? fails).or
          (([.seek j x.path, .stat j x.path, .mmap j x.path].find? fails).or
            (((x.tombstones ++ [x.path]).map (.removeAll j x.path)).find? fails)) := by
      rw [← find?_append, ← find?_append]
      exact find?_cons_of_neg hu
    refine .inr ⟨hu, ?_⟩
    rw [rename, if_neg hu, hs]
    cases [.closeFile j x.path, .renameFile j x.path, .reopen j x.path].find? fails
    case some op => exact .inl ⟨op, rfl, _, rfl, rfl, rfl⟩
    case none =>
      cases [.seek j x.path, .stat j x.path, .mmap j x.path].find? fails
      case some op => exact .inl ⟨op, rfl, _, rfl, rfl, rfl⟩
      case none => exact .inr ⟨rfl, rfl⟩

theorem prune_inUse (h : x.inUse) : Pruned fails j old x (x.prune fails j old) := by
  induction old generalizing x
  case nil => constructor <;> simp [script, prune, Spared, names]
  case cons r old hi =>
    unfold prune
    by_cases hr : r = x.path
    case neg =>
      rw [if_neg hr]
      exact (hi h).of_ne hr
    case pos =>
      subst hr
      have hs : x.script j (x.path :: old) =
          x.renameScript j x.path ++ (names old (x.path ++ tmpExt)).flatMap (x.renameScript j) := by
        rw [script, if_pos h, names, if_pos rfl, flatMap_cons]
      rw [if_pos rfl, if_pos h]
      rcases x.rename_eq fails j (x.path ++ tmpExt) with
        ⟨hf, hu, hx⟩ | ⟨hu, ⟨op, hf, x', hx, hc, hn⟩ | ⟨hf, hx⟩⟩
      · rw [hx]
        refine ⟨?_, by simp, rfl, by simp [Spared, hu], by simp⟩
        rw [hs, find?_append, hf]
        rfl
      · rw [hx]
        refine ⟨?_, by simp, hc, by simp [Spared, Readable, hu, hn], by simp⟩
        rw [hs, find?_append, hf]
        rfl
      · rw [hx]
        dsimp only
        cases hd : ((x.tombstones ++ [x.path]).map (.removeAll j x.path)).find? fails
        case some op =>
          refine ⟨?_, by simp, rfl, by simp [Spared, Readable, hu], by simp⟩
          rw [hs, find?_append, hf, hd]
          rfl
        case none =>
          have hi := hi (x := { x with
            path := x.path ++ tmpExt, mapped := true, indexed := false }) h
          refine ⟨?_, by simp, hi.content, ?_, by simp⟩
          · rw [hi.error, hs, find?_append, hf, hd, script, if_pos h]
            rfl
          · rw [hi.readable]
            simp [Spared, Readable, hu]

theorem prune_spec (fails : Op → Bool) (j : Nat) (old : List Path) (h : x.mapped) :
    Pruned fails j old x (x.prune fails j old) := by
  cases hu : x.inUse
  case false => exact prune_not_inUse hu h
  case true => exact prune_inUse hu

theorem isSome_prune_iff (fails : Op → Bool) (j : Nat) (old : List Path) (h : x.mapped) :
    (x.prune fails j old).1.isSome ↔ ¬x.Succeeds fails j old := by
  rw [(prune_spec fails j old h).error]
  simp [Succeeds]

end Reader

section Prune

variable {xs : List (Reader D)}

theorem prune_cons (x : Reader D) :
    prune fails old j (x :: xs) =
      if (x.prune fails j old).1.isSome then
        ((x.prune fails j old).1, (x.prune fails j old).2 :: xs.map (true, ·))
      else
        ((prune fails old (j + 1) xs).1,
          (x.prune fails j old).2 :: (prune fails old (j + 1) xs).2) := by
  rw [prune]
  match x.prune fails j old with
  | (some op, keep, y) => rfl
  | (none, keep, y) => rfl

theorem prune_readable (h : ∀ x ∈ xs, x.Readable) (i : Nat) :
    ∀ y ∈ (prune fails old j xs).2[i]?, ∃ x, xs[i]? = some x ∧
      (y.2.Readable ↔ ((∀ k < i, ∀ x ∈ xs[k]?, Reader.Succeeds fails (j + k) old x) →
        x.Spared fails (j + i) old)) := by
  induction xs generalizing j i
  case nil => exact nofun
  case cons x xs hi =>
    rw [forall_mem_cons] at h
    have hp := x.prune_spec fails j old h.1.1
    have hs := x.isSome_prune_iff fails j old h.1.1
    rw [prune_cons]
    split
    case isTrue he =>
      cases i
      case zero =>
        rintro _ ⟨⟩
        exact ⟨x, rfl, hp.readable.trans <| (and_iff_right h.1).trans ⟨fun h _ => h, fun h => h nofun⟩⟩
      case succ i =>
        simp only [getElem?_cons_succ, getElem?_map, Option.mem_def,
          Option.map_eq_some_iff, Nat.forall_lt_succ_left]
        rintro _ ⟨x', hx', rfl⟩
        refine ⟨x', hx', iff_of_true (h.2 x' (mem_of_getElem? hx')) fun hk => ?_⟩
        exact absurd (hk.1 x rfl) (hs.mp he)
    case isFalse he =>
      cases i
      case zero =>
        rintro _ ⟨⟩
        exact ⟨x, rfl, hp.readable.trans <| (and_iff_right h.1).trans ⟨fun h _ => h, fun h => h nofun⟩⟩
      case succ i =>
        simp only [getElem?_cons_succ, Nat.forall_lt_succ_left]
        intro y hy
        have ⟨x', hx', hm⟩ := hi h.2 i y hy
        refine ⟨x', hx', hm.trans ?_⟩
        simp only [Nat.add_assoc, Nat.add_comm 1]
        refine ⟨fun hk h => hk h.2, fun hk h => hk ⟨?_, h⟩⟩
        rintro _ ⟨⟩
        exact not_not.mp (mt hs.mpr he)

theorem prune_content (h : ∀ x ∈ xs, x.Readable) :
    ((prune fails old j xs).2.map Prod.snd).map Reader.content = xs.map Reader.content := by
  induction xs generalizing j
  case nil => rfl
  case cons x xs hi =>
    rw [forall_mem_cons] at h
    rw [prune_cons]
    split
    · simp [(x.prune_spec fails j old h.1.1).content]
    · simpa [(x.prune_spec fails j old h.1.1).content] using hi h.2

theorem prune_error (h : ∀ x ∈ xs, x.Readable) :
    (prune fails old j xs).1 = none ↔
      ∀ i, ∀ x ∈ xs[i]?, Reader.Succeeds fails (j + i) old x := by
  induction xs generalizing j
  case nil => simp [prune]
  case cons x xs hi =>
    rw [forall_mem_cons] at h
    have hs := x.isSome_prune_iff fails j old h.1.1
    rw [prune_cons, forall_getElem?_cons (P := fun i x => Reader.Succeeds fails i old x)]
    split
    case isTrue he =>
      refine iff_of_false (fun hn => ?_) fun hn => hs.mp he hn.1
      exact absurd he (by simpa using hn)
    case isFalse he =>
      rw [and_iff_right (not_not.mp (mt hs.mpr he)), hi h.2]

theorem prune_keep (h : ∀ x ∈ xs, x.Readable) (he : (prune fails old j xs).1 = none) :
    ((prune fails old j xs).2.filter Prod.fst).map Prod.snd = xs.filter (·.path ∉ old) := by
  induction xs generalizing j
  case nil => rfl
  case cons x xs hi =>
    rw [forall_mem_cons] at h
    have hp := x.prune_spec fails j old h.1.1
    rw [prune_cons] at he ⊢
    split at he
    case isTrue hs => exact absurd hs (by simpa using he)
    case isFalse hs =>
      rw [if_neg hs, filter_cons, filter_cons, hp.keep]
      by_cases hx : x.path ∈ old
      case pos => simpa [hx] using hi h.2 he
      case neg => simpa [hx, hp.kept hx] using hi h.2 he

theorem length_prune : (prune fails old j xs).2.length = xs.length := by
  induction xs generalizing j
  case nil => rfl
  case cons x xs hi =>
    rw [prune_cons]
    split <;> simp [hi]

end Prune

section Load

variable {contents : Path → D} {i : Nat} {files : List Path}

theorem load_eq_ok (h : ∀ k, ∀ file ∈ files[k]?, ∀ op ∈ loading (i + k) file, ¬fails op) :
    load contents fails i files = .ok (files.map (opened contents)) := by
  induction files generalizing i
  case nil => rfl
  case cons file files hi =>
    rw [forall_getElem?_cons (P := fun i file => ∀ op ∈ loading i file, ¬fails op)] at h
    rw [load, find?_eq_none.mpr h.1, hi h.2]
    rfl

theorem load_eq_error (h : ¬∀ k, ∀ file ∈ files[k]?, ∀ op ∈ loading (i + k) file, ¬fails op) :
    ∃ op, load contents fails i files = .error op := by
  induction files generalizing i
  case nil => exact absurd nofun h
  case cons file files hi =>
    rw [load]
    cases hf : (loading i file).find? fails
    case some op => exact ⟨op, rfl⟩
    case none =>
      rw [forall_getElem?_cons (P := fun i file => ∀ op ∈ loading i file, ¬fails op)] at h
      have ⟨op, ho⟩ := hi (not_and.mp h (find?_eq_none.mp hf))
      exact ⟨op, by rw [ho]; rfl⟩

end Load

namespace FileStore

variable {contents : Path → D} {oldFiles newFiles : List Path} {f : FileStore D}

theorem Valid.readers (h : f.Valid) : ∀ x ∈ f.readers contents newFiles, x.Readable := by
  intro x hx
  rcases mem_append.mp hx with hx | hx
  · have ⟨_, _, he⟩ := mem_map.mp hx
    exact he ▸ ⟨rfl, rfl⟩
  · exact h.readable x hx

section Error

variable (h : f.Valid)
include h

theorem error_iff :
    ((((prune fails oldFiles 0 (f.readers contents newFiles)).2.drop newFiles.length).map
        Prod.snd).map Reader.content = f.files.map Reader.content ∧
      ∀ x ∈ ((prune fails oldFiles 0 (f.readers contents newFiles)).2.drop newFiles.length).map
        Prod.snd, x.Readable) ↔ f.Harmless contents fails oldFiles newFiles := by
  have hr : ∀ x ∈ f.readers contents newFiles, x.Readable := h.readers
  have hl : (prune fails oldFiles 0 (f.readers contents newFiles)).2.length = _ := length_prune
  have hc : (((prune fails oldFiles 0 (f.readers contents newFiles)).2.drop newFiles.length).map
      Prod.snd).map Reader.content = f.files.map Reader.content := by
    rw [map_drop, map_drop, prune_content hr, ← map_drop, FileStore.readers,
      drop_left' (by simp)]
  rw [and_iff_right hc]
  constructor
  · intro hx j hj x hxj hs
    have ⟨y, hy⟩ : ∃ y, (prune fails oldFiles 0 (f.readers contents newFiles)).2[j]? = some y := by
      have := (List.getElem?_eq_some_iff.mp hxj).1
      exact ⟨_, getElem?_eq_getElem (hl ▸ this)⟩
    have ⟨x', hx', hm⟩ := prune_readable hr j y hy
    obtain rfl := Option.some.inj (hx'.symm.trans hxj)
    rw [Nat.zero_add] at hm
    refine hm.mp (hx _ ?_) (by simpa only [Nat.zero_add, SucceedsUntil] using hs)
    refine mem_map_of_mem (mem_iff_getElem?.mpr ⟨j - newFiles.length, ?_⟩)
    rw [getElem?_drop, Nat.add_sub_cancel' hj, hy]
  · intro hh z hz
    have ⟨y, hy, he⟩ := mem_map.mp hz
    have ⟨i, hi⟩ := mem_iff_getElem?.mp hy
    rw [getElem?_drop] at hi
    have ⟨x, hx, hm⟩ := prune_readable hr _ y hi
    rw [← he, hm]
    intro hs
    simp only [Nat.zero_add] at hs ⊢
    exact hh _ (Nat.le_add_right _ _) x hx hs

end Error

theorem map_path_opened :
    (newFiles.map (opened contents)).map Reader.path = newFiles.map newName := by
  rw [map_map]
  rfl

theorem filter_readers : (f.readers contents newFiles).filter (·.path ∉ oldFiles) =
    (newFiles.map (opened contents)).filter (·.path ∉ oldFiles) ++
      f.files.filter (·.path ∉ oldFiles) :=
  filter_append ..

theorem filter_opened :
    (newFiles.map (opened contents)).filter (·.path ∉ oldFiles) = newFiles.map (opened contents) ↔
      ∀ file ∈ newFiles, newName file ∉ oldFiles := by
  simp [filter_eq_self, opened]

theorem sorted_iff {xs : List (Reader D)} :
    (xs.insertionSort (·.path ≤ ·.path)).Pairwise (·.path < ·.path) ↔
      (xs.map Reader.path).Nodup := by
  have hn : ((xs.insertionSort (·.path ≤ ·.path)).map Reader.path).Nodup ↔
      (xs.map Reader.path).Nodup :=
    ((perm_insertionSort _ _).map Reader.path).nodup_iff
  rw [← hn, List.Nodup, pairwise_map]
  constructor
  · exact fun h => h.imp fun h => h.ne
  · intro h
    have hs := pairwise_insertionSort (fun x y : Reader D => x.path ≤ y.path) xs
    exact (hs.and h).imp fun h => lt_of_le_of_ne h.1 h.2

theorem complete_iff :
    ((((f.readers contents newFiles).filter (·.path ∉ oldFiles)).insertionSort
          (·.path ≤ ·.path)).Perm
        (f.files.filter (·.path ∉ oldFiles) ++ newFiles.map (opened contents)) ∧
      (((f.readers contents newFiles).filter (·.path ∉ oldFiles)).insertionSort
        (·.path ≤ ·.path)).Pairwise (·.path < ·.path)) ↔ f.Distinct oldFiles newFiles := by
  have hp : (((f.readers contents newFiles).filter (·.path ∉ oldFiles)).insertionSort
      (·.path ≤ ·.path)).Perm
        (f.files.filter (·.path ∉ oldFiles) ++ newFiles.map (opened contents)) ↔
      ∀ file ∈ newFiles, newName file ∉ oldFiles := by
    rw [(perm_insertionSort _ _).congr_left, filter_readers, perm_append_comm.congr_right,
      perm_append_right_iff, ← filter_opened]
    refine ⟨fun h => filter_sublist.eq_of_length h.length_eq, fun h => ?_⟩
    rw [h]
  rw [hp, sorted_iff, Distinct]
  refine and_congr_right fun hn => ?_
  rw [filter_readers, filter_opened.mpr hn, map_append, map_path_opened, filter_map]
  rfl

theorem Valid.distinct (h : f.Valid) : f.Distinct [] [] := by
  refine ⟨nofun, ?_⟩
  simpa [List.Nodup, pairwise_map] using h.sorted.imp fun h => h.ne

section Run

variable (h : f.Valid) (hl : Loads fails newFiles) (he : ¬(oldFiles = [] ∧ newFiles = []))
include h hl he

theorem replace_eq_none (hc : f.Completes contents fails oldFiles newFiles) :
    f.replace contents fails oldFiles newFiles =
      (none, ⟨((f.readers contents newFiles).filter (·.path ∉ oldFiles)).insertionSort
        (·.path ≤ ·.path)⟩) := by
  have hr : ∀ x ∈ f.readers contents newFiles, x.Readable := h.readers
  have hn : (prune fails oldFiles 0 (f.readers contents newFiles)).1 = none :=
    (prune_error hr).mpr (by simpa only [Nat.zero_add] using hc.1)
  rw [replace, if_neg he, load_eq_ok (by simpa only [Nat.zero_add, Loads] using hl)]
  dsimp only
  rw [← readers, hn]
  dsimp only
  rw [if_neg hc.2, prune_keep hr hn]

theorem replace_eq_some (hc : ¬f.Completes contents fails oldFiles newFiles) :
    ∃ op, f.replace contents fails oldFiles newFiles =
      (some op, ⟨((prune fails oldFiles 0 (f.readers contents newFiles)).2.drop
        newFiles.length).map Prod.snd⟩) := by
  have hr : ∀ x ∈ f.readers contents newFiles, x.Readable := h.readers
  rw [replace, if_neg he, load_eq_ok (by simpa only [Nat.zero_add, Loads] using hl)]
  dsimp only
  rw [← readers, length_map]
  cases hn : (prune fails oldFiles 0 (f.readers contents newFiles)).1
  case some op => exact ⟨op, rfl⟩
  case none =>
    have hs := (prune_error hr).mp hn
    simp only [Nat.zero_add] at hs
    have hf : fails .syncDir := not_not.mp fun hf => hc ⟨hs, hf⟩
    exact ⟨.syncDir, if_pos hf⟩

end Run

theorem replace_all_or_nothing_iff (h : f.Valid) :
    f.AllOrNothing contents fails oldFiles newFiles ↔
      f.Replaceable contents fails oldFiles newFiles := by
  unfold AllOrNothing
  by_cases he : oldFiles = [] ∧ newFiles = []
  case pos =>
    obtain ⟨rfl, rfl⟩ := he
    rw [replace, if_pos ⟨rfl, rfl⟩]
    refine iff_of_true ⟨by simp, h.sorted⟩ fun _ => ⟨fun _ => h.distinct, ?_⟩
    intro _ j _ x _ _ hx
    exact absurd hx not_mem_nil
  case neg =>
    unfold Replaceable
    by_cases hl : Loads fails newFiles
    case neg =>
      have ⟨op, ho⟩ : ∃ op, load contents fails 0 newFiles = .error op :=
        load_eq_error (by simpa only [Nat.zero_add, Loads] using hl)
      rw [replace, if_neg he, ho]
      exact iff_of_true ⟨rfl, h.readable⟩ fun hl' => absurd hl' hl
    case pos =>
      rw [imp_iff_right hl]
      by_cases hc : f.Completes contents fails oldFiles newFiles
      case pos =>
        rw [replace_eq_none h hl he hc, imp_iff_right hc, and_iff_left (absurd hc)]
        exact complete_iff
      case neg =>
        have ⟨op, ho⟩ := replace_eq_some h hl he hc
        rw [ho, imp_iff_right hc, and_iff_right fun hc' => absurd hc' hc]
        exact error_iff h

def pair : FileStore Nat where
  files := [⟨['a'], 1, [], false, true, true⟩, ⟨['b'], 2, [], true, true, true⟩]

def tmp : Path := 'c' :: tmpExt

theorem valid_pair : pair.Valid where
  readable := by decide
  sorted := by decide

theorem all_or_nothing_pair :
    pair.AllOrNothing (fun _ => 3) (fun _ => false) [['a'], ['b']] [tmp] ∧
      pair.AllOrNothing (fun _ => 3) (· = .munmap 2 ['b']) [['b']] [tmp] := by
  refine ⟨(replace_all_or_nothing_iff valid_pair).mpr fun _ => ⟨fun _ => ?_, fun hc => ?_⟩,
    (replace_all_or_nothing_iff valid_pair).mpr fun _ => ⟨fun _ => ?_, fun _ j hj x hx _ => ?_⟩⟩
  · exact ⟨by decide, by decide⟩
  · exact absurd ⟨fun _ _ _ _ _ => Bool.false_ne_true, Bool.false_ne_true⟩ hc
  · exact ⟨by decide, by decide⟩
  · match j with
    | 0 => exact absurd hj (by decide)
    | 1 => cases hx; exact fun h => absurd h (by decide)
    | 2 => cases hx; exact fun _ => by decide
    | j + 3 => exact nomatch hx

-- The old file is closed, and then its tombstones cannot be deleted. It stays among the active
-- files although it can no longer be read. Or it is in use and can be moved out of the way, but not
-- removed.
theorem closed_file_stays_active :
    ¬pair.AllOrNothing (fun _ => 3) (· = .deleteTombstones 1 ['a']) [['a']] [tmp] ∧
      ¬pair.AllOrNothing (fun _ => 3) (· = .removeAll 2 ['b'] ['b']) [['b']] [tmp] := by
  refine ⟨fun h => ?_, fun h => ?_⟩
  · exact absurd (h.2 ⟨['a'], 1, [], false, false, true⟩ (by decide)) (by decide)
  · exact absurd (h.2 ⟨'b' :: tmpExt, 2, [], true, true, false⟩ (by decide)) (by decide)

end FileStore

end Tsm1.Replacing
