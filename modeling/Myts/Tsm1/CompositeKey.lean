import Myts.Lib.Separator
import Myts.Tsm1.Cache

namespace Tsm1

-- "#!~#"
def keyFieldSeparator : Bytes := [35, 33, 126, 35]

-- `SeriesFieldKey` and `SeriesFieldKeyBytes`
def seriesFieldKey (seriesKey field : Bytes) : Bytes :=
  seriesKey ++ keyFieldSeparator ++ field

def seriesAndFieldFromCompositeKey (key : Bytes) : Bytes × Bytes :=
  Separator.split keyFieldSeparator key

-- The separator does not occur in a series key, nor does it as soon as a "#" follows.
def CleanKey (seriesKey : Bytes) : Prop :=
  ¬keyFieldSeparator <:+: seriesKey ++ [35]

instance : DecidablePred CleanKey :=
  fun _ => inferInstanceAs (Decidable (¬_))

-- Two fields of series are stored under different keys, and each key says what is stored under it.
structure Separate (s₁ f₁ s₂ f₂ : Bytes) : Prop where
  ne : (s₁, f₁) ≠ (s₂, f₂) → seriesFieldKey s₁ f₁ ≠ seriesFieldKey s₂ f₂
  first : seriesAndFieldFromCompositeKey (seriesFieldKey s₁ f₁) = (s₁, f₁)
  second : seriesAndFieldFromCompositeKey (seriesFieldKey s₂ f₂) = (s₂, f₂)

structure PointField where
  key : Bytes
  value : Except String Value

structure Point where
  key : Bytes
  time : Int64
  fields : List PointField

namespace Engine

-- "time"
def timeBytes : Bytes := [116, 105, 109, 101]

-- One turn of the loop over the fields of a point.
def addField (p : Point) (values : GoMap Bytes Values) (f : PointField) :
    Except String (GoMap Bytes Values) :=
  if f.key = timeBytes then
    .ok values
  else
    match f.value with
    | .error e => .error e
    | .ok v =>
      let key := seriesFieldKey p.key f.key
      .ok (values.insert key ((values.lookup key).getD [] ++ [(p.time, v)]))

def addPoint (values : GoMap Bytes Values) (p : Point) : Except String (GoMap Bytes Values) :=
  p.fields.foldlM (addField p) values

-- The map that is written to the cache and to the log.
def pointValues (points : List Point) : Except String (GoMap Bytes Values) :=
  points.foldlM addPoint ∅

end Engine
end Tsm1
