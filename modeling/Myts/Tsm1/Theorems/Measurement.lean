import Myts.Tsm1.Measurement

namespace Tsm1.Measurements.Engine

variable {P : Parts φ} {N : Names} {e e' e₁ : Engine φ} {name : Bytes}

theorem mem_without : k ∈ without ks series ↔
    k ∈ ks ∧ (seriesAndFieldFromCompositeKey k).1 ∉ series := by
  simp [without]

theorem mem_keys : k ∈ e.keys ↔ k ∈ e.cache ∨ k ∈ e.files :=
  List.mem_append

structure Deleted (N : Names) (name : Bytes) (e e' : Engine φ) : Prop where
  cache : ∀ k, k ∈ e'.cache ↔ k ∈ e.cache ∧ N.measurement k ≠ name
  files : ∀ k, k ∈ e'.files ↔ k ∈ e.files ∧ N.measurement k ≠ name
  fieldset : e'.fieldset = e.fieldset

theorem Deleted.mem_keys_iff (h : Deleted N name e e') :
    k ∈ e'.keys ↔ k ∈ e.keys ∧ N.measurement k ≠ name := by
  rw [mem_keys, mem_keys, h.cache, h.files, or_and_right]

theorem deleted_of_exact (hx : P.Exact N) (h : deleteData P e name = (e', none)) :
    Deleted N name e e' := by
  unfold deleteData at h
  split at h
  case h_1 => cases h
  case h_2 keys hk =>
    have hs := hx.series hk
    split at h
    case isTrue =>
      have ⟨hc, hf, hd⟩ := hx.delete h
      refine ⟨fun k => ?_, fun k => ?_, hd⟩
      · rw [hc, mem_without]
        exact and_congr_right fun hm => not_congr <| hs k (mem_keys.mpr <| .inl hm)
      · rw [hf, mem_without]
        exact and_congr_right fun hm => not_congr <| hs k (mem_keys.mpr <| .inr hm)
    case isFalse hl =>
      cases h
      have hn (k) (hm : k ∈ e.keys) : N.measurement k ≠ name := by
        intro he
        have hk := (hs k hm).mpr he
        exact hl (List.length_pos_of_mem hk)
      exact ⟨fun k => (and_iff_left_of_imp fun hm => hn k (mem_keys.mpr <| .inl hm)).symm,
        fun k => (and_iff_left_of_imp fun hm => hn k (mem_keys.mpr <| .inr hm)).symm, rfl⟩

theorem measurementsStillExist_eq_none_iff :
    measurementsStillExist N name e = none ↔ ∀ k ∈ e.keys, ¬N.escapeMeasurement name <+: k := by
  simp only [measurementsStillExist, mem_keys]
  split
  case isTrue h =>
    have ⟨k, hm, hp⟩ := h
    exact iff_of_false (by simp) fun hn => hn k (.inl hm) hp
  case isFalse hc =>
    split
    case isTrue h =>
      have ⟨k, hm, hp⟩ := h
      exact iff_of_false (by simp) fun hn => hn k (.inr hm) hp
    case isFalse hf =>
      refine iff_of_true rfl fun k hm hp => ?_
      rcases hm with hm | hm
      · exact hc ⟨k, hm, hp⟩
      · exact hf ⟨k, hm, hp⟩

theorem deleteWithLock_cases (name : Bytes) (fn : Engine φ → Option ε) :
    fn e = none ∧ (e.deleteWithLock name fn).1 = { e with fieldset := e.fieldset.erase name } ∨
    fn e ≠ none ∧ (e.deleteWithLock name fn).1 = e := by
  cases h : fn e
  case none => exact .inl ⟨rfl, by rw [deleteWithLock, h]⟩
  case some r => exact .inr ⟨nofun, by rw [deleteWithLock, h]⟩

theorem measurement_removed_iff (hx : P.Exact N) (h : deleteMeasurement P N e name = (e', none)) :
    Removed N name e e' ↔ Unambiguous N name e := by
  unfold deleteMeasurement at h
  split at h
  case h_1 => cases h
  case h_2 e₁ hd =>
    cases h
    have hd := deleted_of_exact hx hd
    have hk : (∀ k ∈ e₁.keys, ¬N.escapeMeasurement name <+: k) ↔
        ∀ k ∈ e.keys, N.measurement k ≠ name → ¬N.escapeMeasurement name <+: k := by
      simp only [hd.mem_keys_iff, and_imp]
    have hr (e₂ : Engine φ) (hc : e₂.cache = e₁.cache) (hf : e₂.files = e₁.files)
        (hl : ∀ other ≠ name, e₂.fieldset.lookup other = e₁.fieldset.lookup other) :
        Removed N name e e₂ ↔ name ∉ e₂.fieldset := by
      refine ⟨fun h => h.gone, fun h => ⟨?_, ?_, ?_, ?_, h⟩⟩
      · intro k hm
        rw [mem_keys, hc, hf, ← mem_keys, hd.mem_keys_iff] at hm
        exact hm.right
      · exact fun k hn => by rw [hc, hd.cache, and_iff_left hn]
      · exact fun k hn => by rw [hf, hd.files, and_iff_left hn]
      · exact fun other hn => (hl other hn).trans (by rw [hd.fieldset])
    rcases deleteWithLock_cases (e := e₁) name (measurementsStillExist N name) with
      ⟨hn, he⟩ | ⟨hn, he⟩
    · rw [he, hr { e₁ with fieldset := e₁.fieldset.erase name } rfl rfl
        fun other ho => Finmap.lookup_erase_ne ho]
      refine iff_of_true (Finmap.notMem_erase_self) (.inr <| hk.mp ?_)
      exact measurementsStillExist_eq_none_iff.mp hn
    · rw [he, hr _ rfl rfl fun _ _ => rfl, hd.fieldset]
      refine (or_iff_left fun hu => hn ?_).symm
      exact measurementsStillExist_eq_none_iff.mpr (hk.mpr hu)

def plainNames : Names where
  escapeMeasurement := id
  measurementFromSeriesKey := (·.takeWhile (· ≠ 44))

def exactParts : Parts Unit where
  measurementSeriesKeys e name := .ok <|
    (e.keys.filter fun k => plainNames.measurement k = name).map
      fun k => (seriesAndFieldFromCompositeKey k).1
  deleteSeries e keys :=
    ({ e with cache := without e.cache keys, files := without e.files keys }, none)

theorem exactParts_exact : exactParts.Exact plainNames where
  series h k hk := by
    cases h
    simp only [List.mem_map, List.mem_filter, decide_eq_true_eq]
    constructor
    case mp =>
      intro ⟨k', ⟨_, hn⟩, he⟩
      rw [Names.measurement, ← he]
      exact hn
    case mpr => exact fun hn => ⟨k, ⟨hk, hn⟩, rfl⟩
  delete h := by
    cases h
    exact ⟨rfl, rfl, rfl⟩

def cpu : Bytes := [99, 112, 117]

def cpuLoad : Bytes := [99, 112, 117, 95, 108, 111, 97, 100]

def twoMeasurements (other : Bytes) : Engine Unit where
  cache := [seriesFieldKey other [118]]
  files := [seriesFieldKey cpu [118]]
  fieldset := (Finmap.singleton cpu ()).insert other ()

def withoutCpu (other : Bytes) : Engine Unit × Option String :=
  deleteMeasurement exactParts plainNames (twoMeasurements other) cpu

theorem fields_of_cpu_kept :
    (withoutCpu cpuLoad).2 = none ∧ (withoutCpu cpuLoad).1.keys = [seriesFieldKey cpuLoad [118]] ∧
    cpu ∈ (withoutCpu cpuLoad).1.fieldset ∧
    ¬Removed plainNames cpu (twoMeasurements cpuLoad) (withoutCpu cpuLoad).1 := by
  have hf : cpu ∈ (withoutCpu cpuLoad).1.fieldset := by decide +kernel
  exact ⟨by decide +kernel, by decide +kernel, hf, fun h => h.gone hf⟩

theorem removed_cpu :
    Removed plainNames cpu (twoMeasurements [109, 101, 109]) (withoutCpu [109, 101, 109]).1 := by
  have hr : (withoutCpu [109, 101, 109]).2 = none := by decide +kernel
  refine (measurement_removed_iff exactParts_exact (Prod.ext rfl hr)).mpr (.inr fun k hk => ?_)
  fin_cases hk <;> decide +kernel

end Tsm1.Measurements.Engine
