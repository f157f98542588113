import Myts.Tsm1.CompositeKey

-- How a measurement is deleted together with its fields.
namespace Tsm1.Measurements

-- The functions of the packages `models` and `tsdb` that say how names are part of series keys.
structure Names where
  escapeMeasurement : Bytes → Bytes
  measurementFromSeriesKey : Bytes → Bytes

def Names.measurement (N : Names) (key : Bytes) : Bytes :=
  N.measurementFromSeriesKey (seriesAndFieldFromCompositeKey key).1

-- The keys with values in the cache and in the files, and the fields of each measurement.
structure Engine (φ : Type) where
  cache : List Bytes
  files : List Bytes
  fieldset : GoMap Bytes φ

namespace Engine

variable {φ : Type}

def keys (e : Engine φ) : List Bytes :=
  e.cache ++ e.files

-- `MeasurementFieldSet.DeleteWithLock`
def deleteWithLock (e : Engine φ) (name : Bytes) (fn : Engine φ → Option ε) :
    Engine φ × Option ε :=
  match fn e with
  | none => ({ e with fieldset := e.fieldset.erase name }, none)
  | some r => (e, some r)

-- What the function for `DeleteWithLock` returns. `abortErr` is the only error there is.
def measurementsStillExist (N : Names) (name : Bytes) (e : Engine φ) : Option Unit :=
  let encodedName := N.escapeMeasurement name
  if ∃ k ∈ e.cache, encodedName <+: k then
    some ()
  else if ∃ k ∈ e.files, encodedName <+: k then
    some ()
  else
    none

-- The index and the deletion of series.
structure Parts (φ : Type) where
  measurementSeriesKeys : Engine φ → Bytes → Except String (List Bytes)
  deleteSeries : Engine φ → List Bytes → Engine φ × Option String

-- The keys without those of the given series.
def without (ks series : List Bytes) : List Bytes :=
  ks.filter fun k => (seriesAndFieldFromCompositeKey k).1 ∉ series

-- The index lists the series of a measurement, and exactly the given series are deleted.
structure Parts.Exact (P : Parts φ) (N : Names) : Prop where
  series : ∀ {e name keys}, P.measurementSeriesKeys e name = .ok keys → ∀ k ∈ e.keys,
    (seriesAndFieldFromCompositeKey k).1 ∈ keys ↔ N.measurement k = name
  delete : ∀ {e keys e'}, P.deleteSeries e keys = (e', none) →
    e'.cache = without e.cache keys ∧ e'.files = without e.files keys ∧ e'.fieldset = e.fieldset

def deleteData (P : Parts φ) (e : Engine φ) (name : Bytes) : Engine φ × Option String :=
  match P.measurementSeriesKeys e name with
  | .error err => (e, some err)
  | .ok keys => if keys.length > 0 then P.deleteSeries e keys else (e, none)

-- The method `DeleteMeasurement`. If there is still data, this is not an error.
def deleteMeasurement (P : Parts φ) (N : Names) (e : Engine φ) (name : Bytes) :
    Engine φ × Option String :=
  match deleteData P e name with
  | (e, some err) => (e, some err)
  | (e, none) => ((e.deleteWithLock name (measurementsStillExist N name)).1, none)

-- The data and the fields of a measurement are gone, and those of all others are as before.
structure Removed (N : Names) (name : Bytes) (e e' : Engine φ) : Prop where
  data : ∀ k ∈ e'.keys, N.measurement k ≠ name
  cache : ∀ k, N.measurement k ≠ name → (k ∈ e'.cache ↔ k ∈ e.cache)
  files : ∀ k, N.measurement k ≠ name → (k ∈ e'.files ↔ k ∈ e.files)
  fields : ∀ other ≠ name, e'.fieldset.lookup other = e.fieldset.lookup other
  gone : name ∉ e'.fieldset

-- There are no fields, or no key of another measurement begins with the name.
def Unambiguous (N : Names) (name : Bytes) (e : Engine φ) : Prop :=
  name ∉ e.fieldset ∨ ∀ k ∈ e.keys, N.measurement k ≠ name → ¬N.escapeMeasurement name <+: k

end Engine
end Tsm1.Measurements
