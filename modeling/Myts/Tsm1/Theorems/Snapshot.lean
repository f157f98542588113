import Myts.Tsm1.Snapshot
import Myts.Tsm1.Theorems.Overlay

open List

namespace Tsm1

open Bytes Go Frame
open Filepath (Path Plain separator clean)

def childOf (dir : Path) (n : FileName) : Path :=
  { dir with elems := dir.elems ++ [n] }

theorem childOf_inj : childOf dir n = childOf dir m ↔ n = m := by
  simp [childOf]

theorem parent_childOf : (childOf dir n).parent = dir := by
  simp [childOf, Path.parent]

theorem childOf_ne : childOf dir n ≠ dir := by
  intro h
  simpa [childOf] using congrArg (·.elems) h

theorem addExt_childOf : (childOf dir n).addExt x = childOf dir (n ++ x) := by
  simp [childOf, Path.addExt]

structure Names (files : List (FileName × Bytes)) : Prop where
  nodup : (files.map Prod.fst).Nodup
  plain : ∀ f ∈ files, Plain f.1
  final : ∀ f ∈ files, ∀ n, f.1 ≠ n ++ tmpExt

theorem Names.perm (h : Names files) (hp : files'.Perm files) : Names files' where
  nodup := (hp.map Prod.fst).nodup_iff.mpr h.nodup
  plain := fun f hf => h.plain f (hp.subset hf)
  final := fun f hf => h.final f (hp.subset hf)

structure Halfway (dir : Path) (todo done : List (FileName × Bytes)) (w : World) : Prop where
  dirs : w.dirs = [dir]
  staged : ∀ f ∈ todo, w.files.lookup (childOf dir (f.1 ++ tmpExt)) = some f.2
  installed : ∀ f ∈ done, w.files.lookup (childOf dir f.1) = some f.2
  only : ∀ p, p ∈ w.files →
    (∃ f ∈ todo, p = childOf dir (f.1 ++ tmpExt)) ∨ ∃ f ∈ done, p = childOf dir f.1

namespace Halfway

variable {dir : Path} {todo done : List (FileName × Bytes)} {f : FileName × Bytes} {w : World}

theorem stage (h : Halfway dir todo [] w) (hf : f.1 ∉ todo.map Prod.fst) :
    ∃ w₁ w₂, posix.create (childOf dir (f.1 ++ tmpExt)) w = .ok w₁ ∧
      posix.copy (childOf dir (f.1 ++ tmpExt)) f.2 w₁ = .ok w₂ ∧
      Halfway dir (todo ++ [f]) [] w₂ := by
  let p := childOf dir (f.1 ++ tmpExt)
  have hne {g : FileName × Bytes} (hg : g ∈ todo) : childOf dir (g.1 ++ tmpExt) ≠ p := by
    intro he
    have he := append_cancel_right (childOf_inj.mp he)
    exact hf (he ▸ mem_map_of_mem hg)
  have hl : w.files.lookup p = none := by
    rw [Finmap.lookup_eq_none]
    intro hm
    rcases h.only p hm with ⟨g, hg, he⟩ | ⟨g, hg, _⟩
    case inl => exact hne hg he.symm
    case inr => cases hg
  have hd : p ∉ w.dirs ∧ p.parent ∈ w.dirs := by
    rw [h.dirs, mem_singleton, mem_singleton]
    exact ⟨childOf_ne, parent_childOf⟩
  let w₁ : World := { w with files := w.files.insert p [] }
  let w₂ : World := { w with files := w₁.files.insert p f.2 }
  refine ⟨w₁, w₂, ?_, ?_, h.dirs, ?_, nofun, ?_⟩
  · simp only [posix, if_neg hd.left, if_pos hd.right, p, w₁, hl, Option.getD_none]
  · simp [posix, w₁, w₂, p]
  · intro g hg
    rcases mem_append.mp hg with hg | hg
    case inl =>
      rw [Finmap.lookup_insert_of_ne _ (hne hg), Finmap.lookup_insert_of_ne _ (hne hg)]
      exact h.staged g hg
    case inr =>
      rw [mem_singleton.mp hg]
      exact Finmap.lookup_insert _
  · intro q hq
    rw [Finmap.mem_insert, Finmap.mem_insert] at hq
    rcases hq with rfl | rfl | hq
    case inr.inr =>
      rcases h.only q hq with ⟨g, hg, he⟩ | ⟨g, hg, _⟩
      case inl => exact .inl ⟨g, mem_append_left _ hg, he⟩
      case inr => cases hg
    all_goals exact .inl ⟨f, by simp, rfl⟩

theorem install (h : Halfway dir (f :: todo) done w) (hn : Names (f :: todo ++ done)) :
    ∃ w', posix.rename (childOf dir (f.1 ++ tmpExt)) (childOf dir f.1) w = .ok w' ∧
      Halfway dir todo (f :: done) w' := by
  have hl := h.staged f mem_cons_self
  have hd : childOf dir f.1 ∉ w.dirs ∧ (childOf dir f.1).parent ∈ w.dirs := by
    rw [h.dirs, mem_singleton, mem_singleton]
    exact ⟨childOf_ne, parent_childOf⟩
  have hnot : f.1 ∉ (todo ++ done).map Prod.fst := (nodup_cons.mp hn.nodup).left
  have hne {g : FileName × Bytes} (hg : g ∈ todo ++ done) : g.1 ≠ f.1 :=
    fun he => hnot (he ▸ mem_map_of_mem hg)
  let files := (w.files.erase (childOf dir (f.1 ++ tmpExt))).insert (childOf dir f.1) f.2
  refine ⟨{ w with files }, ?_, h.dirs, ?_, ?_, ?_⟩
  · simp only [posix, hl, if_neg hd.left, if_pos hd.right, files]
  · intro g hg
    have h₁ : childOf dir (g.1 ++ tmpExt) ≠ childOf dir f.1 :=
      fun he => hn.final f (by simp) _ (childOf_inj.mp he).symm
    have h₂ : childOf dir (g.1 ++ tmpExt) ≠ childOf dir (f.1 ++ tmpExt) :=
      fun he => hne (mem_append_left _ hg) (append_cancel_right (childOf_inj.mp he))
    rw [Finmap.lookup_insert_of_ne _ h₁, Finmap.lookup_erase_ne h₂]
    exact h.staged g (mem_cons_of_mem _ hg)
  · intro g hg
    rcases mem_cons.mp hg with rfl | hg
    case inl => exact Finmap.lookup_insert _
    case inr =>
      have h₁ : childOf dir g.1 ≠ childOf dir f.1 :=
        fun he => hne (mem_append_right _ hg) (childOf_inj.mp he)
      have h₂ : childOf dir g.1 ≠ childOf dir (f.1 ++ tmpExt) :=
        fun he => hn.final g (by simp [hg]) _ (childOf_inj.mp he)
      rw [Finmap.lookup_insert_of_ne _ h₁, Finmap.lookup_erase_ne h₂]
      exact h.installed g hg
  · intro q hq
    rw [Finmap.mem_insert, Finmap.mem_erase] at hq
    rcases hq with rfl | ⟨hq, hm⟩
    case inl => exact .inr ⟨f, mem_cons_self, rfl⟩
    case inr =>
      rcases h.only q hm with ⟨g, hg, he⟩ | ⟨g, hg, he⟩
      case inl =>
        rcases mem_cons.mp hg with rfl | hg
        case inl => exact absurd he hq
        case inr => exact .inl ⟨g, hg, he⟩
      case inr => exact .inr ⟨g, mem_cons_of_mem _ hg, he⟩

theorem lookup_eq_none (h : Halfway dir todo done w) (ht : ∀ m, n ≠ m ++ tmpExt)
    (hn : n ∉ done.map Prod.fst) : w.files.lookup (childOf dir n) = none := by
  rw [Finmap.lookup_eq_none]
  intro hm
  rcases h.only _ hm with ⟨g, _, he⟩ | ⟨g, hg, he⟩
  case inl => exact ht _ (childOf_inj.mp he)
  case inr => exact hn (childOf_inj.mp he ▸ mem_map_of_mem hg)

end Halfway

section Members

variable {base : BasePath} {f : SnapshotFile}

theorem BasePath.isClean_path (base : BasePath) : base.path.IsClean :=
  Filepath.foldl_push_plain fun e he => (base.plain e he).left

theorem name_writeFileToBackup (h : f.Named) : (writeFileToBackup base f).name =
    ({ rooted := false, elems := base.path.elems ++ f.path } : Path).str := by
  rw [writeFileToBackup]
  dsimp only
  rw [Path.join_plain base.isClean_path fun e he => (h.names e he).left]
  rfl

theorem clean_writeFileToBackup (h : f.Named) : clean (writeFileToBackup base f).name =
    { rooted := false, elems := base.path.elems ++ f.path } := by
  rw [name_writeFileToBackup h]
  refine Path.clean_str rfl (by simp [BasePath.path]) ?_
  exact forall_mem_append.mpr ⟨base.plain, h.names⟩

theorem prefix_writeFileToBackup (h : f.Named) :
    base.str <+: (writeFileToBackup base f).name := by
  have ⟨e, es, he⟩ := exists_cons_of_ne_nil h.ne_nil
  rw [name_writeFileToBackup h, he]
  refine ⟨separator :: [separator].intercalate (e :: es), ?_⟩
  simp [Path.str, BasePath.str, BasePath.path, List.intercalate]

theorem below_writeFileToBackup (h : f.Named) :
    (clean (writeFileToBackup base f).name).Below base.path := by
  rw [clean_writeFileToBackup h]
  exact ⟨rfl, prefix_append _ _, by simpa using h.ne_nil⟩

def stagedAt (dir : Path) (f : SnapshotFile) : Path :=
  Path.addExt { dir with elems := dir.elems ++ f.path } tmpExt

theorem readFileFromBackup_writeFileToBackup (h : f.Named) (hd : dir.IsClean) (F : Fs σ) :
    readFileFromBackup F dir base.str false (writeFileToBackup base f) = do
      call (F.create (stagedAt dir f)) [.create (writeFileToBackup base f).name (stagedAt dir f)]
      call (F.copy (stagedAt dir f) f.data) []
      return some ((writeFileToBackup base f).name, stagedAt dir f) := by
  have he : (clean (writeFileToBackup base f).name).elems = base.path.elems ++ f.path := by
    rw [clean_writeFileToBackup h]
  have hp : ∀ e ∈ f.path, Plain e := fun e he => (h.names e he).left
  rw [readFileFromBackup, if_pos (prefix_writeFileToBackup h), destination,
    base.rel_of_below (below_writeFileToBackup h) he]
  simp only [Bool.false_eq_true, if_false, pure_bind]
  rw [Path.join_plain hd hp]
  rfl

end Members

section Runs

variable {base : BasePath} {dir : Path} {s : Shard World} {f : SnapshotFile}

def SnapshotFile.item (f : SnapshotFile) : FileName × Bytes :=
  (f.path.getLastD [], f.data)

structure SnapshotFile.Top (f : SnapshotFile) : Prop where
  path : f.path = [f.item.1]
  plain : Plain f.item.1
  isName : separator ∉ f.item.1

theorem SnapshotFile.Top.named (h : f.Top) : f.Named where
  ne_nil := by rw [h.path]; exact cons_ne_nil _ _
  names := by rw [h.path]; exact forall_mem_singleton.mpr ⟨h.plain, h.isName⟩

theorem stagedAt_top (h : f.Top) : stagedAt dir f = childOf dir (f.item.1 ++ tmpExt) := by
  rw [stagedAt, h.path]
  exact addExt_childOf

theorem call_ok {g : World → Except String World} (h : g s.disk = .ok w) (es : List Effect) :
    ∃ s', call g es s = .ok () s' ∧ s'.disk = w ∧ s'.files = s.files := by
  rw [call, h]
  exact ⟨_, rfl, rfl, rfl⟩

theorem readFileFromBackup_top (base : BasePath) (hf : f.Top) (hd : dir.IsClean)
    (h : Halfway dir todo [] s.disk) (hn : f.item.1 ∉ todo.map Prod.fst) :
    ∃ s', readFileFromBackup posix dir base.str false (writeFileToBackup base f) s =
        .ok (some ((writeFileToBackup base f).name, stagedAt dir f)) s' ∧
      Halfway dir (todo ++ [f.item]) [] s'.disk ∧ s'.files = s.files := by
  have ⟨w₁, w₂, h₁, h₂, hw⟩ := h.stage hn
  rw [← stagedAt_top hf] at h₁ h₂
  have ⟨s₁, hs₁, hw₁, hf₁⟩ := call_ok h₁ [.create (writeFileToBackup base f).name (stagedAt dir f)]
  have ⟨s₂, hs₂, hw₂, hf₂⟩ := call_ok (hw₁.symm ▸ h₂) []
  refine ⟨s₂, ?_, hw₂ ▸ hw, hf₂.trans hf₁⟩
  rw [readFileFromBackup_writeFileToBackup hf.named hd, bind_ok hs₁]
  exact bind_ok hs₂

theorem mapM_readFileFromBackup_top (base : BasePath) (hd : dir.IsClean) {files : List SnapshotFile}
    (hf : ∀ f ∈ files, f.Top) (h : Halfway dir todo [] s.disk)
    (hn : ((todo ++ files.map (·.item)).map Prod.fst).Nodup) :
    ∃ s', (files.map (writeFileToBackup base)).mapM
        (readFileFromBackup posix dir base.str false) s =
          .ok (files.map fun f => some ((writeFileToBackup base f).name, stagedAt dir f)) s' ∧
      Halfway dir (todo ++ files.map (·.item)) [] s'.disk ∧ s'.files = s.files := by
  induction files generalizing s todo
  case nil => exact ⟨s, rfl, by simpa using h, rfl⟩
  case cons f files hi =>
    have ⟨hf₁, hf₂⟩ := forall_mem_cons.mp hf
    have hnf : f.item.1 ∉ todo.map Prod.fst := by
      intro hm
      rw [map_append, map_cons, map_cons] at hn
      exact disjoint_of_nodup_append hn hm mem_cons_self
    have ⟨s₁, h₁, hw₁, hs₁⟩ := readFileFromBackup_top base hf₁ hd h hnf
    have he : todo ++ [f.item] ++ files.map (·.item) = todo ++ (f :: files).map (·.item) := by simp
    have ⟨s₂, h₂, hw₂, hs₂⟩ := hi hf₂ hw₁ (he ▸ hn)
    refine ⟨s₂, ?_, he ▸ hw₂, hs₂.trans hs₁⟩
    rw [map_cons, mapM_cons, bind_ok h₁, bind_ok h₂]
    rfl

abbrev KeepsDirs : Shard World → Shard World → Prop :=
  Keeps (·.disk.dirs)

theorem dirs_call {g : World → Except String World} (h : ∀ w w', g w = .ok w' → w'.dirs = w.dirs) :
    Within KeepsDirs (call g es) := by
  intro s
  rw [call]
  split
  case h_1 hw => exact h _ _ hw
  case h_2 => exact rfl

theorem dirs_create (h : posix.create p w = .ok w') : w'.dirs = w.dirs := by
  dsimp only [posix] at h
  split at h
  case isTrue => cases h
  split at h <;> cases h
  rfl

theorem dirs_copy (h : posix.copy p b w = .ok w') : w'.dirs = w.dirs := by
  dsimp only [posix] at h
  split at h <;> cases h
  rfl

theorem dirs_readFileFromBackup (hdr : Member) (asNew : Bool) :
    Within KeepsDirs (readFileFromBackup posix dir base.str asNew hdr) := by
  have hdest : Within KeepsDirs (destination base.str asNew hdr : ShardM World Path) := by
    intro s
    cases hr : Filepath.rel (clean base.str) (clean hdr.name) <;> rw [destination, hr]
    case none => exact rfl
    case some => cases asNew <;> exact rfl
  rw [readFileFromBackup]
  split
  case isFalse => exact .pure _
  case isTrue =>
    refine hdest.bind fun p => (dirs_call fun w w' => dirs_create).bind fun _ => ?_
    exact (dirs_call fun w w' => dirs_copy).bind fun _ => .pure _

theorem not_ok_of_nested (hd : dir.IsClean) {files : List SnapshotFile}
    (hf : ∀ f ∈ files, f.Named) (hm : f ∈ files) (hl : 2 ≤ f.path.length)
    (hs : s.disk.dirs = [dir]) :
    (files.map (writeFileToBackup base)).mapM (readFileFromBackup posix dir base.str false) s ≠
      .ok os s' := by
  intro h
  have keeps : ∀ m (s : Shard World), s.disk.dirs = [dir] →
      (final (readFileFromBackup posix dir base.str false m s)).disk.dirs = [dir] :=
    fun m s hs => (dirs_readFileFromBackup m false s).trans hs
  have ⟨s₁, a, s₂, hs₁, h₁⟩ := of_mapM_eq_ok keeps hs h (mem_map_of_mem hm)
  rw [readFileFromBackup_writeFileToBackup (hf f hm) hd] at h₁
  have ⟨_, s₃, hc, _⟩ := of_bind_eq_ok h₁
  -- The directory of the file would have to be there.
  have hp : (stagedAt dir f).parent ≠ dir := by
    intro he
    have hlen := congrArg (·.elems.length) he
    have hne : f.path ≠ [] := (hf f hm).ne_nil
    simp [stagedAt, Path.addExt, Path.parent, getLast?_append,
      getLast?_eq_some_getLast hne] at hlen
    omega
  have hcreate : ∀ w', posix.create (stagedAt dir f) s₁.disk ≠ .ok w' := by
    intro w' hw
    dsimp only [posix] at hw
    rw [hs₁] at hw
    split at hw
    case isTrue => cases hw
    rw [if_neg (by simpa using hp)] at hw
    cases hw
  rw [call] at hc
  split at hc
  case h_1 w' hw => exact hcreate w' hw
  case h_2 => cases hc

section Install

variable (fs : FixedSearch) (format : TombstoneFormat)

theorem openTSM_posix {p : Path} (h : s.disk.files.lookup p = some b) :
    openTSM posix fs format p s =
      ofGo (TSMReader.ofFiles fs format b (s.disk.files.lookup (tombstonePath p))) s := by
  have hr (q : Path) : readFile posix q s = .ok (s.disk.files.lookup q) s := rfl
  rw [openTSM, bind_ok (hr p), h, TSMReader.ofFiles]
  dsimp only
  cases hi : TSMReader.openIndex b
  case error e => rfl
  case ok index =>
    have ho : (ofGo (.ok index) : ShardM World _) s = .ok index s := rfl
    rw [bind_ok ho, bind_ok (hr _), ok_bind]
    cases Tombstoner.applyFile format fs index (s.disk.files.lookup (tombstonePath p)) <;> rfl

theorem installFile_top (hf : f.Top) (h : Halfway dir (f.item :: todo) done s.disk)
    (hn : Names (f.item :: todo ++ done)) (name : List Char) :
    ∃ s', Halfway dir todo (f.item :: done) s'.disk ∧ s'.files = s.files ∧
      installFile posix fs format (name, stagedAt dir f) s =
        (TSMFile.mk (childOf dir f.item.1) <$> ofGo (TSMReader.ofFiles fs format f.data
          (s'.disk.files.lookup (tombstonePath (childOf dir f.item.1)))) : ShardM World TSMFile)
            s' := by
  have ⟨w, hw, hh⟩ := h.install hn
  have hne := hf.plain
  have hdrop : (stagedAt dir f).dropExt tmpExt.length = childOf dir f.item.1 := by
    rw [stagedAt, hf.path]
    exact Path.dropExt_addExt hne.left hne.right.left _ _
  rw [← stagedAt_top hf, ← hdrop] at hw
  have ⟨s', hs', hd', hfiles⟩ := call_ok hw
    [.rename name (stagedAt dir f) ((stagedAt dir f).dropExt tmpExt.length)]
  subst hd'
  refine ⟨s', hh, hfiles, ?_⟩
  have hl := hh.installed f.item mem_cons_self
  rw [installFile, bind_ok hs', hdrop]
  change (openTSM posix fs format (childOf dir f.item.1) >>= fun r => _) s' = _
  rw [map_eq_pure_bind]
  change EStateM.bind _ _ s' = EStateM.bind _ _ s'
  rw [EStateM.bind, EStateM.bind, openTSM_posix fs format hl]
  rfl

theorem header_of_openIndex {b : Bytes} (h : TSMReader.openIndex b = .ok index) :
    Tombstoner.header b = magicNumber := by
  rw [TSMReader.openIndex] at h
  obtain ⟨_, hv, _⟩ := bind_eq_ok.mp h
  rw [TSMReader.verifyVersion] at hv
  obtain ⟨_, hr, hv⟩ := bind_eq_ok.mp hv
  have hlen : 4 ≤ b.length := require_eq_ok.mp hr
  rw [slice, if_pos hlen, ok_bind] at hv
  obtain ⟨_, hm, _⟩ := bind_eq_ok.mp hv
  rw [Tombstoner.header, Tombstoner.headerSize, take_append_of_le_length hlen]
  exact require_eq_ok.mp hm

theorem ofGo_ofFiles_ne_ok {b : Bytes} (h : Tombstoner.header b ≠ magicNumber) :
    TSMReader.ofFiles fs format b file ≠ .ok r := by
  intro ho
  rw [TSMReader.ofFiles] at ho
  have ⟨index, hi, _⟩ := bind_eq_ok.mp ho
  exact h (header_of_openIndex hi)

theorem ofFiles_of_map_ok {x : Go TSMReader}
    (h : (TSMFile.mk p <$> ofGo x : ShardM World TSMFile) s = .ok t s') :
    ∃ r, x = .ok r ∧ t = ⟨p, r⟩ ∧ s' = s := by
  cases x
  case error e => cases h
  case ok r =>
    cases h
    exact ⟨r, rfl, rfl, rfl⟩

theorem mapM_installFile_ne_ok {files : List SnapshotFile} (hf : ∀ f ∈ files, f.Top)
    (h : Halfway dir (files.map (·.item)) done s.disk)
    (hn : Names (files.map (·.item) ++ done)) (hm : f ∈ files)
    (hh : Tombstoner.header f.data ≠ magicNumber) (name : SnapshotFile → List Char) :
    (files.map fun f => (name f, stagedAt dir f)).mapM (installFile posix fs format) s ≠
      .ok ts s' := by
  induction files generalizing s done ts s'
  case nil => cases hm
  case cons g files hi =>
    intro hok
    have ⟨hg, hfs⟩ := forall_mem_cons.mp hf
    rw [map_cons, mapM_cons] at hok
    have ⟨t, s₁, h₁, hok⟩ := of_bind_eq_ok hok
    have ⟨ts', s₂, h₂, _⟩ := of_bind_eq_ok hok
    have ⟨s₀, hw, _, he⟩ := installFile_top fs format hg h hn (name g)
    have ⟨r, hr, _, hs⟩ := ofFiles_of_map_ok (he ▸ h₁)
    subst hs
    rcases mem_cons.mp hm with rfl | hm
    case inl => exact ofGo_ofFiles_ne_ok fs format hh hr
    case inr =>
      have hp : (files.map (·.item) ++ g.item :: done).Perm
          (g.item :: files.map (·.item) ++ done) := perm_middle
      exact hi hfs hw (hn.perm hp) hm h₂

section Sources

variable {fs format}

def SourceFile.link (f : SourceFile fs format) : SnapshotFile where
  path := [f.name]
  data := f.data
  modTime := f.modTime

theorem top_append {stem x : FileName} (hs : separator ∉ stem) (hx : separator ∉ x)
    (hl : 3 ≤ x.length) : SnapshotFile.Top ⟨[stem ++ x], b, t⟩ where
  path := rfl
  isName := fun hm => (mem_append.mp hm).elim hs hx
  plain := by
    have hlen : 3 ≤ (stem ++ x).length := by
      rw [length_append]
      omega
    refine ⟨?_, ?_, ?_⟩
    all_goals
      intro he
      have := (congrArg List.length he).symm.trans_ge hlen
      revert this
      decide

namespace SourceFile

variable (f : SourceFile fs format)

theorem name_eq : f.name = f.stem ++ ".tsm".toList := by
  simp [name, tsmFileExtension]

theorem top_link : f.link.Top := by
  rw [link, name_eq]
  exact top_append f.isName (by decide) (by decide)

theorem links_eq_of_none (h : f.tombstones = none) : f.links = [f.link] := by
  rw [links, h]
  rfl

theorem top_links : ∀ l ∈ f.links, l.Top := by
  refine forall_mem_cons.mpr ⟨f.top_link, fun l hl => ?_⟩
  have ⟨b, _, hb⟩ := mem_map.mp hl
  exact hb ▸ top_append f.isName (by decide) (by decide)

theorem item_of_mem_links (h : l ∈ f.links) :
    l.item.1 = f.stem ++ ".tsm".toList ∨ l.item.1 = f.stem ++ ".tombstone".toList := by
  rcases mem_cons.mp h with rfl | hl
  case inl => exact .inl f.name_eq
  case inr =>
    have ⟨b, _, hb⟩ := mem_map.mp hl
    exact .inr (hb ▸ rfl)

theorem final_links (h : l ∈ f.links) (n : FileName) : l.item.1 ≠ n ++ tmpExt := by
  intro he
  have hl := congrArg List.getLast? he
  rcases f.item_of_mem_links h with hi | hi <;> rw [hi] at hl <;> simp [tmpExt] at hl

theorem nodup_links : (f.links.map (·.item.1)).Nodup := by
  cases ht : f.tombstones <;> simp [links, ht, SnapshotFile.item, name_eq, tombstoneName]

end SourceFile

theorem tombstonePath_name (f : SourceFile fs format) :
    tombstonePath (childOf dir f.name) = childOf dir f.tombstoneName := by
  have hl : (childOf dir f.name).elems.getLast? = some f.name := by simp [childOf]
  have hs : ¬"tombstone".toList <:+ f.name := by
    rintro ⟨x, hx⟩
    have := congrArg List.getLast? hx
    simp [SourceFile.name, tsmFileExtension] at this
  rw [tombstonePath, hl]
  dsimp only
  rw [if_neg hs]
  simp [SourceFile.name, SourceFile.tombstoneName, tsmFileExtension, childOf]

theorem Source.nodup_stems (source : Source fs format) :
    source.files.Pairwise (·.stem ≠ ·.stem) := by
  refine source.sorted.imp fun h he => ?_
  rw [SourceFile.name, SourceFile.name, he] at h
  exact lt_irrefl _ h

theorem Source.names (source : Source fs format) :
    Names ((source.files.flatMap (·.links)).map (·.item)) where
  nodup := by
    rw [map_map, map_flatMap, nodup_flatMap]
    refine ⟨fun f _ => f.nodup_links, source.nodup_stems.imp fun {f g} hne x hf hg => ?_⟩
    have ⟨l, hl, hx⟩ := mem_map.mp hf
    have ⟨m, hm, hy⟩ := mem_map.mp hg
    have he : l.item.1 = m.item.1 := hx.trans hy.symm
    rcases f.item_of_mem_links hl with h₁ | h₁ <;> rcases g.item_of_mem_links hm with h₂ | h₂ <;>
      rw [h₁, h₂] at he
    case inl.inl => exact hne (append_cancel_right he)
    case inr.inr => exact hne (append_cancel_right he)
    all_goals simpa using congrArg List.getLast? he
  plain := by
    intro x hx
    have ⟨l, hl, he⟩ := mem_map.mp hx
    have ⟨f, _, hf⟩ := mem_flatMap.mp hl
    exact he ▸ (f.top_links l hf).plain
  final := by
    intro x hx
    have ⟨l, hl, he⟩ := mem_map.mp hx
    have ⟨f, _, hf⟩ := mem_flatMap.mp hl
    exact he ▸ f.final_links hf

def SourceFile.installed (f : SourceFile fs format) (dir : Path) : TSMFile where
  path := childOf dir f.name
  reader := f.reader

theorem ofFiles_halfway (f : SourceFile fs format) (hf : f.tombstones = none)
    (h : Halfway dir todo done s.disk) (hn : f.tombstoneName ∉ done.map Prod.fst) :
    TSMReader.ofFiles fs format f.data
      (s.disk.files.lookup (tombstonePath (childOf dir f.name))) = .ok f.reader := by
  have ht : ∀ m, f.tombstoneName ≠ m ++ tmpExt := by
    intro m he
    simpa [SourceFile.tombstoneName, tmpExt] using congrArg List.getLast? he
  rw [tombstonePath_name, h.lookup_eq_none ht hn, ← hf]
  exact f.opens

def NoTombstones (files : List (FileName × Bytes)) : Prop :=
  ∀ f ∈ files, ∀ n, f.1 ≠ n ++ ".tombstone".toList

theorem NoTombstones.not_mem (h : NoTombstones files) (f : SourceFile fs format) :
    f.tombstoneName ∉ files.map Prod.fst := by
  intro hm
  have ⟨x, hx, he⟩ := mem_map.mp hm
  exact h x hx _ he

theorem SourceFile.link_ne_tombstone (f : SourceFile fs format) (n : FileName) :
    f.link.item.1 ≠ n ++ ".tombstone".toList := by
  intro he
  have he : f.stem ++ ".tsm".toList = n ++ ".tombstone".toList := f.name_eq.symm.trans he
  simpa using congrArg List.getLast? he

theorem mapM_installFile_ok {files : List (SourceFile fs format)}
    (hf : ∀ f ∈ files, f.tombstones = none)
    (h : Halfway dir (files.map (·.link.item)) done s.disk)
    (hn : Names (files.map (·.link.item) ++ done)) (hd : NoTombstones done)
    (name : SourceFile fs format → List Char) :
    ∃ s', (files.map fun f => (name f, stagedAt dir f.link)).mapM (installFile posix fs format) s =
        .ok (files.map (·.installed dir)) s' ∧
      Halfway dir [] (files.reverse.map (·.link.item) ++ done) s'.disk ∧ s'.files = s.files := by
  induction files generalizing s done
  case nil => exact ⟨s, rfl, h, rfl⟩
  case cons f files hi =>
    have ⟨hf₁, hf₂⟩ := forall_mem_cons.mp hf
    have ⟨s₁, hw, hs, he⟩ := installFile_top fs format f.top_link h hn (name f)
    have hd' : NoTombstones (f.link.item :: done) :=
      forall_mem_cons.mpr ⟨f.link_ne_tombstone, hd⟩
    have ho := ofFiles_halfway f hf₁ hw (hd'.not_mem f)
    have h₁ : installFile posix fs format (name f, stagedAt dir f.link) s =
        .ok (f.installed dir) s₁ := by
      rw [he]
      change (TSMFile.mk (childOf dir f.name) <$> ofGo (TSMReader.ofFiles fs format f.data
        (s₁.disk.files.lookup (tombstonePath (childOf dir f.name)))) : ShardM World TSMFile) s₁ = _
      rw [ho]
      rfl
    have ⟨s₂, h₂, hw₂, hs₂⟩ := hi hf₂ hw (hn.perm perm_middle) hd'
    refine ⟨s₂, ?_, ?_, hs₂.trans hs⟩
    · rw [map_cons, mapM_cons, bind_ok h₁, bind_ok h₂]
      rfl
    · simpa using hw₂

theorem loadKeys_ok {files : List (SourceFile fs format)} (hf : ∀ f ∈ files, f.tombstones = none)
    (h : Halfway dir [] done s.disk) (hd : NoTombstones done)
    (hm : ∀ f ∈ files, f.link.item ∈ done) (index : List TSMReader → Option String)
    (name : SourceFile fs format → List Char) :
    loadKeys posix fs format index (files.map fun f => (name f, stagedAt dir f.link)) s =
      ofGo (Go.ofError (index (files.map (·.reader)))) s := by
  have hopen (f : SourceFile fs format) (hmem : f ∈ files) :
      openTSM posix fs format ((stagedAt dir f.link).dropExt tmpExt.length) s =
        .ok f.reader s := by
    have hp := f.top_link.plain
    have hdrop : (stagedAt dir f.link).dropExt tmpExt.length = childOf dir f.name := by
      rw [stagedAt, f.top_link.path]
      exact Path.dropExt_addExt hp.left hp.right.left _ _
    have hl : s.disk.files.lookup (childOf dir f.name) = some f.data := h.installed _ (hm f hmem)
    rw [hdrop, openTSM_posix fs format hl, ofFiles_halfway f (hf f hmem) h (hd.not_mem f)]
    rfl
  have hmap : (files.map fun f => (name f, stagedAt dir f.link)).mapM
      (fun file => openTSM posix fs format (file.2.dropExt tmpExt.length)) s =
        .ok (files.map (·.reader)) s := by
    rw [mapM_map]
    exact mapM_eq_ok hopen
  rw [loadKeys, bind_ok hmap]

end Sources

end Install

section Main

variable {fs : FixedSearch} {format : TombstoneFormat} {order : List SnapshotFile}

theorem exists_perm_map {g : α → β} {l : List α} (h : o.Perm (l.map g)) :
    ∃ l' : List α, l'.Perm l ∧ l'.map g = o := by
  induction l generalizing o
  case nil => exact ⟨[], .refl _, (perm_nil.mp h).symm⟩
  case cons a l hi =>
    have ⟨o₁, o₂, ho⟩ := append_of_mem (h.symm.subset mem_cons_self)
    subst ho
    have ⟨l', hp, hm⟩ := hi (perm_middle.symm.trans h).cons_inv
    have ⟨l₁, l₂, hl, h₁, h₂⟩ := map_eq_append_iff.mp hm
    subst hl
    exact ⟨l₁ ++ a :: l₂, perm_middle.trans (hp.cons a), by simp [h₁, h₂]⟩

theorem halfway_emptyShard (dir : Path) : Halfway dir [] [] (emptyShard dir).disk where
  dirs := rfl
  staged := nofun
  installed := nofun
  only := fun _ hp => absurd hp Finmap.notMem_empty

theorem backup_eq (h : ∀ f ∈ order, since < f.modTime) :
    backup base since order = order.map (writeFileToBackup base) := by
  rw [backup, filter_eq_self.mpr fun f hf => decide_eq_true (h f hf)]

theorem intercalate_concat {x n : List Char} (h : es ≠ []) :
    x.intercalate (es ++ [n]) = x.intercalate es ++ x ++ n := by
  induction es
  case nil => exact absurd rfl h
  case cons e es hi =>
    cases es
    case nil => simp [List.intercalate]
    case cons e' es =>
      have hi := hi (cons_ne_nil _ _)
      simp only [List.intercalate, cons_append, intersperse_cons_cons, flatten_cons]
        at hi ⊢
      rw [hi]
      simp

theorem str_childOf (dir : Path) : ∃ x, ∀ n, (childOf dir n).str = x ++ n := by
  by_cases he : dir.elems = []
  case pos =>
    exact ⟨if dir.rooted then [separator] else [], fun n => by simp [childOf, Path.str, he]⟩
  case neg =>
    refine ⟨(if dir.rooted then [separator] else []) ++ [separator].intercalate dir.elems ++
      [separator], fun n => ?_⟩
    rw [Path.str, if_neg (by simp [childOf])]
    change _ ++ [separator].intercalate (dir.elems ++ [n]) = _
    rw [intercalate_concat he]
    simp only [append_assoc]
    rfl

theorem insertionSort_installed (source : Source fs format) {files : List (SourceFile fs format)}
    (hp : files.Perm source.files) :
    (files.map (·.installed dir)).insertionSort (fun a b => a.path.str ≤ b.path.str) =
      source.files.map (·.installed dir) := by
  have ⟨x, hx⟩ := str_childOf dir
  let r (a b : TSMFile) : Prop := a.path.str ≤ b.path.str
  have : Std.Total r := ⟨fun a b => le_total a.path.str b.path.str⟩
  have : IsTrans TSMFile r := ⟨fun a b c h₁ h₂ => le_trans h₁ h₂⟩
  have hs := (perm_insertionSort r (files.map (·.installed dir))).trans (hp.map _)
  have hlt : source.files.Pairwise fun f g =>
      (f.installed dir).path.str < (g.installed dir).path.str :=
    source.sorted.imp fun {f g} h => by
      change (childOf dir f.name).str < (childOf dir g.name).str
      rw [hx, hx]
      exact append_left_lt h
  have hsorted : (source.files.map (·.installed dir)).Pairwise r :=
    pairwise_map.mpr (hlt.imp le_of_lt)
  let S (f g : SourceFile fs format) : Prop :=
    (f.installed dir).path.str = (g.installed dir).path.str → f = g
  have : Std.Symm S := ⟨fun f g h he => (h he.symm).symm⟩
  have hpair : source.files.Pairwise S := hlt.imp fun h he => absurd he h.ne
  have hinj {f g : SourceFile fs format} (hf : f ∈ source.files) (hg : g ∈ source.files) : S f g :=
    hpair.forall_of_forall (fun f _ _ => rfl) hf hg
  have hanti (a b : TSMFile) (ha : a ∈ source.files.map (·.installed dir))
      (hb : b ∈ source.files.map (·.installed dir)) (h₁ : r a b) (h₂ : r b a) : a = b := by
    have ⟨f, hf, hfa⟩ := mem_map.mp ha
    have ⟨g, hg, hgb⟩ := mem_map.mp hb
    subst hfa hgb
    exact hinj hf hg (le_antisymm h₁ h₂) ▸ rfl
  refine List.Perm.eq_of_pairwise (fun a b ha hb => ?_) (pairwise_insertionSort r _) hsorted hs
  exact hanti a b (hs.subset ha) hb

theorem top_of_mem (source : Source fs format) (h : order.Perm (source.files.flatMap (·.links))) :
    ∀ f ∈ order, f.Top := by
  intro f hf
  have ⟨g, _, hg⟩ := mem_flatMap.mp (h.subset hf)
  exact g.top_links f hg

theorem reduceOption_map_some (l : List α) (g : α → β) :
    (l.map fun a => some (g a)).reduceOption = l.map g := by
  induction l
  case nil => rfl
  case cons a l hi => rw [map_cons, reduceOption_cons_of_some, hi, map_cons]

theorem overlay_eq (base : BasePath) (source : Source fs format) (hd : dir.IsClean)
    (h : order.Perm (source.files.flatMap (·.links))) (index : List TSMReader → Option String) :
    ∃ s, Halfway dir (order.map (·.item)) [] s.disk ∧ s.files = [] ∧
      overlay posix fs format index dir (order.map (writeFileToBackup base)) base.str false
        (emptyShard dir) =
      (do
        replace posix fs format dir
          (order.map fun f => ((writeFileToBackup base f).name, stagedAt dir f))
        loadKeys posix fs format index
          (order.map fun f => ((writeFileToBackup base f).name, stagedAt dir f)) :
        ShardM World Unit) s := by
  have hn : Names (order.map (·.item)) := source.names.perm (h.map _)
  have ⟨s₁, h₁, hw, hf⟩ := mapM_readFileFromBackup_top base hd
    (top_of_mem source h) (halfway_emptyShard dir) hn.nodup
  have hsync : posix.syncDir dir s₁.disk = .ok s₁.disk := by
    simp [posix, hw.dirs]
  have ⟨s₂, h₂, hd₂, hf₂⟩ := call_ok hsync []
  refine ⟨s₂, hd₂ ▸ hw, hf₂.trans hf, ?_⟩
  rw [overlay, bind_ok h₁, bind_ok h₂, reduceOption_map_some]

theorem not_reproduces_of_tombstones (source : Source fs format) (hd : dir.IsClean)
    (h : order.Perm (source.files.flatMap (·.links))) (index : List TSMReader → Option String)
    {f : SourceFile fs format} {b : Bytes} (hf : f ∈ source.files) (ht : f.tombstones = some b) :
    ¬Reproduces source index dir base (order.map (writeFileToBackup base)) := by
  rintro ⟨s', hok, _⟩
  obtain ⟨s, hw, _, he⟩ := overlay_eq base source hd h index
  rw [he] at hok
  obtain ⟨_, s₁, hr, _⟩ := of_bind_eq_ok hok
  let link : SnapshotFile :=
    { path := [f.tombstoneName], data := b, modTime := f.tombstoneModTime }
  have hm : link ∈ order := by
    refine h.symm.subset (mem_flatMap.mpr ⟨f, hf, mem_cons_of_mem _ ?_⟩)
    rw [ht]
    exact mem_singleton_self _
  rw [replace, if_neg (by simpa using List.ne_nil_of_mem hm)] at hr
  obtain ⟨ts, s₂, hi, _⟩ := of_bind_eq_ok hr
  have hn : Names (order.map (·.item) ++ []) := by
    rw [append_nil]
    exact source.names.perm (h.map _)
  exact mapM_installFile_ne_ok fs format (top_of_mem source h) hw hn hm
    (f.notTSM b ht) (fun f => (writeFileToBackup base f).name) hi

theorem Source.flatMap_links (source : Source fs format)
    (hf : ∀ f ∈ source.files, f.tombstones = none) :
    source.files.flatMap (·.links) = source.files.map (·.link) := by
  rw [map_eq_flatMap]
  exact flatMap_congr fun f hm => f.links_eq_of_none (hf f hm)

theorem overlay_of_no_tombstones (base : BasePath) (source : Source fs format) (hd : dir.IsClean)
    {files : List (SourceFile fs format)} (hp : files.Perm source.files)
    (hf : ∀ f ∈ source.files, f.tombstones = none) (index : List TSMReader → Option String) :
    ∃ s, s.files = source.files.map (·.installed dir) ∧
      overlay posix fs format index dir ((files.map (·.link)).map (writeFileToBackup base)) base.str
        false (emptyShard dir) = ofGo (Go.ofError (index (files.map (·.reader)))) s := by
  have hnone : ∀ f ∈ files, f.tombstones = none := fun f hm => hf f (hp.subset hm)
  have hperm : (files.map (·.link)).Perm (source.files.flatMap (·.links)) :=
    source.flatMap_links hf ▸ hp.map _
  have ⟨s, hw, hs, he⟩ := overlay_eq base source hd hperm index
  let file (f : SourceFile fs format) := ((writeFileToBackup base f.link).name, stagedAt dir f.link)
  have hfiles : (files.map (·.link)).map
      (fun f => ((writeFileToBackup base f).name, stagedAt dir f)) = files.map file :=
    map_map
  rw [he, hfiles]
  rw [map_map] at hw
  have hn : Names (files.map (·.link.item) ++ []) := by
    have := source.names.perm (hperm.map (·.item))
    rwa [map_map, ← append_nil (List.map _ files)] at this
  have ⟨s₁, h₁, hw₁, hs₁⟩ := mapM_installFile_ok hnone hw hn nofun
    fun f => (writeFileToBackup base f.link).name
  rw [append_nil] at hw₁
  have hdone : NoTombstones (files.reverse.map (·.link.item)) := by
    intro x hx
    have ⟨f, _, hfx⟩ := mem_map.mp hx
    exact hfx ▸ f.link_ne_tombstone
  have hmem : ∀ f ∈ files, f.link.item ∈ files.reverse.map (·.link.item) :=
    fun f hm => mem_map.mpr ⟨f, mem_reverse.mpr hm, rfl⟩
  -- What replacing the files leaves.
  have ⟨s₂, h₂, hw₂, hs₂⟩ : ∃ s₂, replace posix fs format dir (files.map file) s = .ok () s₂ ∧
      Halfway dir [] (files.reverse.map (·.link.item)) s₂.disk ∧
      s₂.files = source.files.map (·.installed dir) := by
    by_cases hnil : files = []
    case pos =>
      subst hnil
      have hsrc : source.files = [] := nil_perm.mp hp
      exact ⟨s, rfl, hw, by rw [hs, hsrc]; rfl⟩
    case neg =>
      have hsync : posix.syncDir dir s₁.disk = .ok s₁.disk := by simp [posix, hw₁.dirs]
      have ⟨s₃, h₃, hd₃, hf₃⟩ := call_ok hsync []
      rw [replace, if_neg (by simpa using hnil), bind_ok h₁, bind_ok h₃]
      refine ⟨_, rfl, hd₃ ▸ hw₁, ?_⟩
      dsimp only
      rw [hf₃, hs₁, hs, append_nil]
      exact insertionSort_installed source hp
  refine ⟨s₂, hs₂, ?_⟩
  rw [bind_ok h₂]
  exact loadKeys_ok hnone hw₂ hdone hmem index _

-- A restored backup reproduces the shard whatever the order of the files is, if and only if no file
-- has tombstones, the index has no files, and the keys of the files are accepted.
theorem reproduces_backup_iff (source : Source fs format) (indexFiles : List SnapshotFile)
    (hx : ∀ f ∈ indexFiles, f.Named ∧ 2 ≤ f.path.length) (index : List TSMReader → Option String)
    (hd : dir.IsClean) (base : BasePath) (since : Nat)
    (hs : ∀ f ∈ source.createSnapshot indexFiles, since < f.modTime) :
    (∀ order, order.Perm (source.createSnapshot indexFiles) →
      Reproduces source index dir base (backup base since order)) ↔
      (∀ f ∈ source.files, f.tombstones = none) ∧ indexFiles = [] ∧
        ∀ readers, readers.Perm (source.files.map (·.reader)) → index readers = none := by
  have harchive {order : List SnapshotFile} (ho : order.Perm (source.createSnapshot indexFiles)) :
      backup base since order = order.map (writeFileToBackup base) :=
    backup_eq fun f hf => hs f (ho.subset hf)
  constructor
  case mp =>
    intro h
    -- The files of the index are in directories that are not there.
    have hi : indexFiles = [] := by
      by_contra hne
      have ⟨f, hf⟩ := exists_mem_of_ne_nil _ hne
      have ⟨s, hok, _⟩ := h _ (.refl _)
      rw [harchive (.refl _)] at hok
      have ⟨os, s', hr, _⟩ := of_bind_eq_ok hok
      have hnamed : ∀ g ∈ source.createSnapshot indexFiles, g.Named := by
        refine forall_mem_append.mpr ⟨fun g hg => ?_, fun g hg => (hx g hg).left⟩
        exact (top_of_mem source (.refl _) g hg).named
      exact not_ok_of_nested hd hnamed (mem_append_right _ hf) (hx f hf).right rfl hr
    subst hi
    have hsnap : source.createSnapshot [] = source.files.flatMap (·.links) := append_nil _
    have hnone : ∀ f ∈ source.files, f.tombstones = none := by
      intro f hf
      by_contra hne
      have ⟨b, hb⟩ := Option.ne_none_iff_exists'.mp hne
      have hrep := h _ (.refl _)
      rw [harchive (.refl _)] at hrep
      exact not_reproduces_of_tombstones source hd (hsnap ▸ .refl _) index hf hb hrep
    refine ⟨hnone, rfl, fun readers hp => ?_⟩
    have ⟨files, hfp, hfr⟩ := exists_perm_map hp
    have ho : (files.map (·.link)).Perm (source.createSnapshot []) :=
      hsnap ▸ source.flatMap_links hnone ▸ hfp.map _
    have ⟨s, hok, _⟩ := h _ ho
    have ⟨s', _, he⟩ := overlay_of_no_tombstones base source hd hfp hnone index
    rw [harchive ho, he, hfr] at hok
    cases hr : index readers
    case none => rfl
    case some e =>
      rw [hr] at hok
      cases hok
  case mpr =>
    rintro ⟨hnone, rfl, hacc⟩ order ho
    have hsnap : source.createSnapshot [] = source.files.map (·.link) :=
      (append_nil _).trans (source.flatMap_links hnone)
    have ⟨files, hfp, hfo⟩ := exists_perm_map (hsnap ▸ ho)
    have ⟨s, hfiles, he⟩ := overlay_of_no_tombstones base source hd hfp hnone index
    rw [harchive ho, ← hfo]
    refine ⟨s, ?_, fun codec k => ?_⟩
    · rw [he, hacc _ (hfp.map _)]
      rfl
    · rw [hfiles, map_map]
      rfl

end Main

end Runs

section SampleSource

def storedTombstones : TombstoneFormat where
  gunzip b := .ok { rest := b, err := none }
  applyV2 index _ := .ok (index, [])

def sampleTombstones : Bytes :=
  putUint32 Tombstoner.v3header ++ putUint32 1 ++ [97] ++ putInt64 1 ++ putInt64 1

theorem opens_sampleFile :
    (TSMReader.ofFiles linear storedTombstones sampleFile none).toOption.isSome := by
  decide +kernel

def sampleSource (t : Option Bytes)
    (h : (TSMReader.ofFiles linear storedTombstones sampleFile t).toOption.isSome)
    (hm : ∀ b ∈ t, Tombstoner.header b ≠ magicNumber) : Source linear storedTombstones where
  files := [{
    stem := "000000001-000000001".toList,
    data := sampleFile,
    modTime := 1,
    tombstones := t,
    tombstoneModTime := 1,
    reader := _,
    isName := by decide,
    opens := eq_ok_get h,
    notTSM := hm }, {
    stem := "000000002-000000001".toList,
    data := sampleFile,
    modTime := 2,
    tombstones := none,
    tombstoneModTime := 0,
    reader := _,
    isName := by decide,
    opens := eq_ok_get opens_sampleFile,
    notTSM := by simp }]
  sorted := pairwise_pair.mpr (show "000000001-000000001".toList ++ _ < _ ++ _ by decide)

theorem opens_sampleFile_tombstones :
    (TSMReader.ofFiles linear storedTombstones sampleFile
      (some sampleTombstones)).toOption.isSome := by
  decide +kernel

theorem header_sampleTombstones :
    ∀ b ∈ some sampleTombstones, Tombstoner.header b ≠ magicNumber := by
  intro b hb
  cases hb
  decide

theorem reproduces_backup_two_files :
    let source := sampleSource none opens_sampleFile nofun
    (∀ f ∈ source.createSnapshot [], 0 < f.modTime) ∧ sampleDir.IsClean ∧
      ∀ order, order.Perm (source.createSnapshot []) →
        Reproduces source (fun _ => none) sampleDir sampleBase (backup sampleBase 0 order) := by
  have hs : ∀ f ∈ (sampleSource none opens_sampleFile nofun).createSnapshot [], 0 < f.modTime :=
    by decide
  have hd : sampleDir.IsClean := by decide
  refine ⟨hs, hd, ?_⟩
  exact (reproduces_backup_iff _ [] nofun _ hd sampleBase 0 hs).mpr
    ⟨by simp [sampleSource], rfl, fun _ _ => rfl⟩

-- The file of the tombstones is taken for a TSM file.
theorem restore_fails_on_tombstones :
    let source := sampleSource (some sampleTombstones) opens_sampleFile_tombstones
      header_sampleTombstones
    let archive := backup sampleBase 0 (source.createSnapshot [])
    archive.length = 3 ∧
      (ok? (overlay posix linear storedTombstones (fun _ => none) sampleDir archive sampleBase.str
        false (emptyShard sampleDir))).isNone ∧
      ¬Reproduces source (fun _ => none) sampleDir sampleBase archive := by
  intro source archive
  have hfail : (ok? (overlay posix linear storedTombstones (fun _ => none) sampleDir archive
      sampleBase.str false (emptyShard sampleDir))).isNone := by
    decide +kernel
  refine ⟨by decide +kernel, hfail, ?_⟩
  rintro ⟨s, hok, _⟩
  rw [hok] at hfail
  cases hfail

end SampleSource

end Tsm1
