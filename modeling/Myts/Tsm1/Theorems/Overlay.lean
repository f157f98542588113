import Myts.Lib.Frame
import Myts.Tsm1.Backup
import Myts.Tsm1.Theorems.Delete

open List

namespace Tsm1

open Bytes Go Frame Filepath
open Filepath (Path Plain separator clean)

namespace BasePath

variable (base : BasePath)

theorem plain_db : Plain base.db ∧ separator ∉ base.db :=
  base.plain _ (by simp)

theorem plain_rp : Plain base.rp ∧ separator ∉ base.rp :=
  base.plain _ (by simp)

theorem plain_id : Plain base.id ∧ separator ∉ base.id :=
  base.plain _ (by simp)

theorem head_ne_separator (h : base.str <+: name) : name.head? ≠ some separator := by
  have ⟨⟨hn, _⟩, hs⟩ := base.plain_db
  have ⟨c, cs, hd⟩ := exists_cons_of_ne_nil hn
  have ⟨rest, hr⟩ := h
  rw [← hr, str, hd]
  intro he
  exact ne_separator hs (hd ▸ mem_cons_self) (Option.some.inj he)

theorem rooted_clean (h : base.str <+: name) : (clean name).rooted = false := by
  simpa [clean] using base.head_ne_separator h

theorem clean_str : clean base.str = base.path := by
  have hr := base.rooted_clean (prefix_refl _)
  have hs : base.str.splitOn separator = [base.db, base.rp, base.id] := by
    rw [str, splitOn_append base.plain_db.right,
      splitOn_append base.plain_rp.right, splitOn_plain base.plain_id.right]
  have he : (clean base.str).elems = [base.db, base.rp, base.id] := by
    simp only [clean, hs]
    exact foldl_push_plain fun e hm => (base.plain e hm).left
  cases hc : clean base.str
  rw [hc] at hr he
  dsimp only at hr he
  rw [hr, he, path]

theorem elems_of_below (h : (clean name).Below base.path) :
    ∃ es, es ≠ [] ∧ (∀ e ∈ es, Plain e) ∧ (clean name).elems = base.path.elems ++ es := by
  have ⟨_, ⟨es, he⟩, hn⟩ := h
  refine ⟨es, fun hes => hn ?_, fun e hm => ?_, he.symm⟩
  · rw [← he, hes, append_nil]
  · have hc : Climbs (base.path.elems ++ es) := he ▸ climbs_clean _
    exact Filepath.Climbs.plain hc base.plain_db.left e (by simp [hm])

theorem rel_of_below (h : (clean name).Below base.path)
    (he : (clean name).elems = base.path.elems ++ es) :
    rel (clean base.str) (clean name) = some { rooted := false, elems := es } := by
  rw [clean_str, rel, if_neg (not_not.mpr h.left.symm), he, strip_append]
  rfl

end BasePath

theorem plain_tsmFileName (g n : Nat) : Plain (tsmFileName g n) := by
  have hm : '-' ∈ tsmFileName g n := by simp [tsmFileName]
  refine ⟨?_, ?_, ?_⟩
  all_goals
    intro he
    rw [he] at hm
    revert hm
    decide

section Calls

variable {σ : Type} {R : Shard σ → Shard σ → Prop}

theorem within_readFile [Std.Refl R] (F : Fs σ) (p : Path) : Within R (readFile F p) := by
  intro s
  rw [readFile]
  split <;> exact refl_of R s

theorem within_ofGo [Std.Refl R] (x : Go α) : Within R (ofGo x : ShardM σ α) := by
  intro s
  cases x <;> exact refl_of R s

theorem within_openTSM [Std.Refl R] [IsTrans _ R] (F : Fs σ) (fs : FixedSearch)
    (format : TombstoneFormat) (p : Path) : Within R (openTSM F fs format p) := by
  refine (within_readFile F p).bind fun b => ?_
  cases b
  case none => exact .throw _
  case some b =>
    refine (within_ofGo _).bind fun index => (within_readFile F _).bind fun file => ?_
    exact (within_ofGo _).bind fun _ => .pure _

end Calls

def Adds (C : Effect → Prop) (s s' : Shard σ) : Prop :=
  ∃ new, s'.effects = s.effects ++ new ∧ ∀ e ∈ new, C e

instance : Std.Refl (Adds C (σ := σ)) := ⟨fun _ => ⟨[], by simp, nofun⟩⟩

instance : IsTrans (Shard σ) (Adds C) where
  trans := by
    intro s₁ s₂ s₃ ⟨new, he, hn⟩ ⟨new', he', hn'⟩
    exact ⟨new ++ new', by rw [he', he, append_assoc], forall_mem_append.mpr ⟨hn, hn'⟩⟩

theorem adds_call {f : σ → Except String σ} (h : ∀ e ∈ es, C e) : Within (Adds C) (call f es) := by
  intro s
  rw [call]
  split
  case h_1 => exact ⟨es, rfl, h⟩
  case h_2 => exact refl_of (Adds C) s

section Confined

variable {σ : Type} (F : Fs σ) (fs : FixedSearch) (format : TombstoneFormat) {dir : Path}
  {base : BasePath}

structure Staged (dir : Path) (base : BasePath) (file : List Char × Path) : Prop where
  tmp : ∃ es, es ≠ [] ∧ (∀ e ∈ es, Plain e) ∧
    file.2 = Path.addExt { dir with elems := dir.elems ++ es } tmpExt
  member : (clean file.1).Below base.path

theorem Staged.below (h : Staged dir base file) : file.2.Below dir := by
  have ⟨es, hn, _, he⟩ := h.tmp
  exact he ▸ .addExt hn tmpExt

theorem Staged.newName_below (h : Staged dir base file) :
    (file.2.dropExt tmpExt.length).Below dir := by
  have ⟨es, hn, hp, he⟩ := h.tmp
  rcases eq_nil_or_concat' es with rfl | ⟨es, e, rfl⟩
  case inl => exact absurd rfl hn
  case inr =>
    have ⟨h₁, h₂, _⟩ := hp e (by simp)
    rw [he, ← append_assoc, Path.dropExt_addExt h₁ h₂, append_assoc]
    exact .of_append hn

theorem ensures_destination (asNew : Bool) (h : (clean hdr.name).Below base.path) :
    Ensures (Adds (·.Confined dir base.path))
      (fun p : Path => p.elems ≠ [] ∧ ∀ e ∈ p.elems, Plain e)
      (destination base.str asNew hdr : ShardM σ Path) := by
  have ⟨es, hn, hp, he⟩ := base.elems_of_below h
  rw [destination, base.rel_of_below h he]
  dsimp only
  cases asNew
  case false => exact .pure ⟨hn, hp⟩
  case true =>
    have hg : Within (Adds (·.Confined dir base.path)) (nextGeneration : ShardM σ Nat) :=
      fun s => ⟨[], by simp [nextGeneration], nofun⟩
    refine (Ensures.of_within hg).bind fun g _ => .pure ⟨cons_ne_nil _ _, ?_⟩
    exact forall_mem_singleton.mpr (plain_tsmFileName g 1)

theorem ensures_readFileFromBackup (hd : dir.IsClean) (asNew : Bool)
    (h : base.str <+: hdr.name → (clean hdr.name).Below base.path) :
    Ensures (Adds (·.Confined dir base.path)) (fun o => ∀ file ∈ o, Staged dir base file)
      (readFileFromBackup F dir base.str asNew hdr) := by
  rw [readFileFromBackup]
  split
  case isFalse => exact .pure nofun
  case isTrue hb =>
    refine (ensures_destination asNew (h hb)).bind fun p ⟨hn, hp⟩ => ?_
    rw [Path.join_plain hd hp]
    have hs : Staged dir base
        (hdr.name, Path.addExt { dir with elems := dir.elems ++ p.elems } tmpExt) :=
      ⟨⟨p.elems, hn, hp, rfl⟩, h hb⟩
    have hc : ∀ e ∈ [Effect.create hdr.name _], e.Confined dir base.path :=
      forall_mem_singleton.mpr hs.below
    refine (Ensures.of_within <| adds_call hc).bind fun _ _ => ?_
    refine (Ensures.of_within <| adds_call nofun).bind fun _ _ => ?_
    exact .pure fun file hf => Option.some.inj hf ▸ hs

theorem within_installFile (h : Staged dir base file) :
    Within (Adds (·.Confined dir base.path)) (installFile F fs format file) := by
  have hc : ∀ e ∈ [Effect.rename file.1 file.2 _], e.Confined dir base.path :=
    forall_mem_singleton.mpr ⟨h.below, h.newName_below, h.member⟩
  exact (adds_call hc).bind fun _ => (within_openTSM F fs format _).bind fun _ => .pure _

theorem within_replace {files : List (List Char × Path)}
    (h : ∀ file ∈ files, Staged dir base file) :
    Within (Adds (·.Confined dir base.path)) (replace F fs format dir files) := by
  rw [replace]
  split
  case isTrue => exact .pure _
  case isFalse =>
    have hi := Ensures.mapM fun file hm => .of_within (within_installFile F fs format (h file hm))
    refine hi.within.bind fun _ => (adds_call nofun).bind fun _ => ?_
    exact .modify fun s => ⟨[], by simp, nofun⟩

theorem within_loadKeys (index : List TSMReader → Option String) (files : List (List Char × Path)) :
    Within (Adds C) (loadKeys F fs format index files) := by
  have ho := Ensures.mapM (l := files) fun file _ =>
    .of_within (within_openTSM (R := Adds C) F fs format (file.2.dropExt tmpExt.length))
  exact ho.within.bind fun _ => within_ofGo _

theorem within_overlay (hd : dir.IsClean) (index : List TSMReader → Option String) (asNew : Bool)
    {archive : List Member}
    (h : ∀ m ∈ archive, base.str <+: m.name → (clean m.name).Below base.path) :
    Within (Adds (·.Confined dir base.path))
      (overlay F fs format index dir archive base.str asNew) := by
  have hr := Ensures.mapM fun m hm => ensures_readFileFromBackup F hd asNew (h m hm)
  refine (hr.bind fun files hf => .of_within ?_).within
  refine (adds_call nofun).bind fun _ => ?_
  refine (within_replace F fs format fun file hm => ?_).bind fun _ =>
    within_loadKeys F fs format _ _
  have ⟨o, ho, he⟩ := mem_filterMap.mp hm
  exact hf o ho file he

end Confined

section Escapes

variable (fs : FixedSearch) (format : TombstoneFormat) {base : BasePath}

def obliging : Fs Unit where
  create _ _ := .ok ()
  copy _ _ _ := .ok ()
  rename _ _ _ := .ok ()
  read _ _ := .ok (some sampleFile)
  syncDir _ _ := .ok ()

theorem header_sampleFile :
    Tombstoner.header sampleFile ≠ Tombstoner.v3header ∧
      Tombstoner.header sampleFile ≠ Tombstoner.v2header := by
  decide +kernel

theorem readTombstoneV1_sampleFile : (Tombstoner.readTombstoneV1 sampleFile).err = none := by
  decide +kernel

theorem applyFile_sampleFile :
    ∃ index x, TSMReader.openIndex sampleFile = .ok index ∧
      Tombstoner.applyFile format fs index (some sampleFile) = .ok x := by
  have ⟨keys, d, ho⟩ := writable_sampleWrites.opens writeFile_sampleWrites
    addressable_sampleFile
  have ⟨ps, hl⟩ := ho.deleted_nil.index
  have ⟨d', _, hd', _⟩ := TSMReader.applyTombstones_eq hl fs
    (Tombstoner.readTombstoneV1 sampleFile).tombstones
  refine ⟨d, (d', (Tombstoner.readTombstoneV1 sampleFile).tombstones), ho.opens, ?_⟩
  rw [Tombstoner.applyFile, if_neg header_sampleFile.left, if_neg header_sampleFile.right,
    Tombstoner.Walked.apply, readTombstoneV1_sampleFile]
  dsimp only at hd' ⊢
  rw [hd']
  rfl

theorem openTSM_obliging (p : Path) (s : Shard Unit) :
    ∃ r, openTSM obliging fs format p s = .ok r s := by
  have ⟨index, x, hi, hx⟩ := applyFile_sampleFile fs format
  have hr (q : Path) : readFile obliging q s = .ok (some sampleFile) s := rfl
  have hg {α : Type} {y : Go α} {a : α} (h : y = .ok a) : ofGo y s = .ok a s := by
    rw [h]
    rfl
  refine ⟨{ b := sampleFile, index := x.1, tombstones := x.2 }, ?_⟩
  rw [openTSM, bind_ok (hr p)]
  dsimp only
  rw [bind_ok (hg hi), bind_ok (hr _), bind_ok (hg hx)]
  rfl

theorem rel_clean (h : base.str <+: name) :
    ∃ p, rel (clean base.str) (clean name) = some p := by
  have hr : base.path.rooted = (clean name).rooted := (base.rooted_clean h).symm
  rw [base.clean_str, rel, if_neg (not_not.mpr hr)]
  have hs : ∀ bs ts : List FileName, (strip bs ts).1 <:+ bs := by
    intro bs ts
    fun_induction strip bs ts
    case case1 hi => exact hi.trans (suffix_cons _ _)
    all_goals exact suffix_refl _
  refine ⟨_, if_neg fun hd => ?_⟩
  have hm := (hs base.path.elems (clean name).elems).subset (mem_of_mem_head? hd)
  exact (base.plain _ hm).left.right.right rfl

theorem destination_ok (asNew : Bool) (h : base.str <+: hdr.name) (s : Shard σ) :
    ∃ p s', destination base.str asNew hdr s = .ok p s' := by
  have ⟨p, hp⟩ := rel_clean h
  rw [destination, hp]
  cases asNew
  case false => exact ⟨p, s, rfl⟩
  case true => exact ⟨_, _, rfl⟩

theorem readFileFromBackup_obliging (base : BasePath) (dir : Path) (asNew : Bool) (hdr : Member)
    (s : Shard Unit) :
    ∃ o s', readFileFromBackup obliging dir base.str asNew hdr s = .ok o s' ∧
      (base.str <+: hdr.name → ∃ tmp, o = some (hdr.name, tmp)) := by
  rw [readFileFromBackup]
  split
  case isFalse hb => exact ⟨none, s, rfl, fun h => absurd h hb⟩
  case isTrue hb =>
    have ⟨p, s', hp⟩ := destination_ok asNew hb s
    rw [bind_ok hp]
    exact ⟨_, _, rfl, fun _ => ⟨_, rfl⟩⟩

theorem mapM_readFileFromBackup (base : BasePath) (dir : Path) (asNew : Bool)
    (archive : List Member) (s : Shard Unit) :
    ∃ os s', archive.mapM (readFileFromBackup obliging dir base.str asNew) s = .ok os s' ∧
      ∀ m ∈ archive, base.str <+: m.name → ∃ tmp, (m.name, tmp) ∈ os.reduceOption := by
  induction archive generalizing s
  case nil => exact ⟨[], s, rfl, nofun⟩
  case cons m archive hi =>
    have ⟨o, s₁, h₁, ho⟩ := readFileFromBackup_obliging base dir asNew m s
    have ⟨os, s₂, h₂, hos⟩ := hi s₁
    refine ⟨o :: os, s₂, by rw [mapM_cons, bind_ok h₁, bind_ok h₂]; rfl, ?_⟩
    refine forall_mem_cons.mpr ⟨fun hb => ?_, fun m' hm hb => ?_⟩
    · have ⟨tmp, ht⟩ := ho hb
      exact ⟨tmp, by simp [ht, reduceOption_cons_of_some]⟩
    · have ⟨tmp, ht⟩ := hos m' hm hb
      refine ⟨tmp, ?_⟩
      rw [reduceOption_mem_iff] at ht ⊢
      exact mem_cons_of_mem _ ht

theorem installFile_obliging (file : List Char × Path) (s : Shard Unit) :
    ∃ t s', installFile obliging fs format file s = .ok t s' ∧
      .rename file.1 file.2 (file.2.dropExt tmpExt.length) ∈ s'.effects := by
  have ⟨s', hc, he⟩ : ∃ s', call (obliging.rename file.2 (file.2.dropExt tmpExt.length))
      [.rename file.1 file.2 (file.2.dropExt tmpExt.length)] s = .ok () s' ∧
        .rename file.1 file.2 (file.2.dropExt tmpExt.length) ∈ s'.effects :=
    ⟨_, rfl, by simp⟩
  have ⟨r, hr⟩ := openTSM_obliging fs format (file.2.dropExt tmpExt.length) s'
  refine ⟨⟨file.2.dropExt tmpExt.length, r⟩, s', ?_, he⟩
  rw [installFile, bind_ok hc, bind_ok hr]
  rfl

theorem overlay_obliging (index : List TSMReader → Option String) (dir : Path) (asNew : Bool)
    {archive : List Member} (hm : m ∈ archive) (hb : base.str <+: m.name) (s : Shard Unit) :
    ∃ p q, .rename m.name p q ∈
      (final (overlay obliging fs format index dir archive base.str asNew s)).effects := by
  have ⟨os, s₁, h₁, hos⟩ := mapM_readFileFromBackup base dir asNew archive s
  have ⟨tmp, ht⟩ := hos m hm hb
  have ⟨s₂, h₂⟩ : ∃ s₂, call (obliging.syncDir dir) [] s₁ = .ok () s₂ := ⟨_, rfl⟩
  let E (s : Shard Unit) : Prop := .rename m.name tmp (tmp.dropExt tmpExt.length) ∈ s.effects
  have keeps {s s' : Shard Unit} (h : Adds (fun _ => True) s s') (he : E s) : E s' :=
    have ⟨_, hn, _⟩ := h
    show _ ∈ s'.effects from hn ▸ mem_append_left _ he
  refine ⟨tmp, tmp.dropExt tmpExt.length, ?_⟩
  rw [overlay, bind_ok h₁, bind_ok h₂]
  refine final_bind (P := E) ?_ fun _ s' _ => keeps (within_loadKeys obliging fs format _ _ s')
  rw [replace, if_neg (List.ne_nil_of_mem ht)]
  refine final_bind (P := E) ?_ fun _ s' _ => keeps ?_
  · refine final_mapM (R := Adds fun _ => True) (fun file => ?_) keeps (fun file _ s => ?_) ht
      (fun s => ?_) s₂
    · exact (adds_call fun _ _ => trivial).bind fun _ =>
        (within_openTSM obliging fs format _).bind fun _ => .pure _
    · have ⟨t, s', h, _⟩ := installFile_obliging fs format file s
      exact ⟨t, s', h⟩
    · have ⟨t, s', h, he⟩ := installFile_obliging fs format (m.name, tmp) s
      rw [h]
      exact he
  · refine Within.bind (R := Adds fun _ => True) (adds_call fun _ _ => trivial) (fun _ => ?_) s'
    exact .modify fun s => ⟨[], by simp, nofun⟩

end Escapes

-- Restoring and importing stay in the directory and the shard on every disk if and only if each
-- member that starts with the base path is below it as a directory.
theorem overlay_confined_iff (fs : FixedSearch) (format : TombstoneFormat)
    (index : List TSMReader → Option String) {dir : Path} (hd : dir.IsClean) (base : BasePath)
    (archive : List Member) (asNew : Bool) :
    (∀ (σ : Type) (F : Fs σ) (s : Shard σ), s.effects = [] →
      ∀ e ∈ (final (overlay F fs format index dir archive base.str asNew s)).effects,
        e.Confined dir base.path) ↔
      ∀ m ∈ archive, base.str <+: m.name → (clean m.name).Below base.path := by
  constructor
  case mp =>
    intro h m hm hb
    let s : Shard Unit := { disk := (), effects := [], currentGeneration := 0, files := [] }
    have ⟨p, q, he⟩ := overlay_obliging fs format index dir asNew hm hb s
    exact (h Unit obliging s rfl _ he).right.right
  case mpr =>
    intro h σ F s hs e he
    have ⟨new, hn, hc⟩ := within_overlay F fs format hd index asNew h s
    rw [hn, hs, nil_append] at he
    exact hc e he

section Sample

def noTombstones : TombstoneFormat where
  gunzip _ := .error "gzip: invalid header"
  applyV2 index _ := .ok (index, [])

def sampleBase : BasePath where
  db := "db".toList
  rp := "rp".toList
  id := "1".toList
  plain := by decide

def sampleDir : Path := clean "/data/db/rp/1".toList

theorem overlay_confined_one_member :
    let archive : List Member := [⟨"db/rp/1/000000001-000000001.tsm".toList, sampleFile⟩]
    sampleDir.IsClean ∧
      ((∀ (σ : Type) (F : Fs σ) (s : Shard σ), s.effects = [] →
        ∀ e ∈ (final (overlay F linear noTombstones (fun _ => none) sampleDir archive sampleBase.str
          false s)).effects, e.Confined sampleDir sampleBase.path) ↔
        ∀ m ∈ archive, sampleBase.str <+: m.name → (clean m.name).Below sampleBase.path) ∧
      ∀ m ∈ archive, sampleBase.str <+: m.name → (clean m.name).Below sampleBase.path :=
  ⟨by decide, overlay_confined_iff linear noTombstones _ (by decide) sampleBase _ false,
    forall_mem_singleton.mpr fun _ => by decide⟩

def siblings : Shard World where
  disk := {
    dirs := ["/data/db/rp/1", "/data/db/rp/10"].map (clean ·.toList),
    files := Finmap.insert (clean "/data/db/rp/10/000000001-000000001.tsm".toList) [1, 2, 3] ∅ }
  effects := []
  currentGeneration := 0
  files := []

-- The file of the other shard is overwritten, without an error.
theorem restore_overwrites_sibling :
    let name := "db/rp/10/000000001-000000001.tsm".toList
    let file := clean "/data/db/rp/10/000000001-000000001.tsm".toList
    let r := overlay posix linear noTombstones (fun _ => none) sampleDir [⟨name, sampleFile⟩]
      sampleBase.str false siblings
    (ok? r).isSome ∧ siblings.disk.files.lookup file = some [1, 2, 3] ∧
      (final r).disk.files.lookup file = some sampleFile ∧
      .rename name (file.addExt tmpExt) file ∈ (final r).effects ∧
      ¬file.Below sampleDir ∧ ¬(clean name).Below sampleBase.path ∧
      ¬∀ e ∈ (final r).effects, e.Confined sampleDir sampleBase.path := by
  decide +kernel

end Sample

end Tsm1
