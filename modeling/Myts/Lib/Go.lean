import Mathlib

open List

-- How a computation can end without a value: it returns an error or it panics.
inductive Go.Stop
  | error (e : String)
  | panic
deriving DecidableEq

abbrev Go (α : Type) := Except Go.Stop α

namespace Go

def fail (e : String) : Go α :=
  .error (.error e)

def panic : Go α :=
  .error .panic

def ofExcept : Except String α → Go α
  | .ok a => .ok a
  | .error e => fail e

def ofError : Option String → Go Unit
  | none => .ok ()
  | some e => fail e

def deref : Option α → Go α
  | some a => .ok a
  | none => panic

def dropError : Go α → Go (Option α)
  | .ok a => .ok (some a)
  | .error (.error _) => .ok none
  | .error .panic => panic

def Safe : Go α → Prop
  | .error .panic => False
  | _ => True

instance {x : Go α} : Decidable x.Safe :=
  match x with
  | .error .panic => .isFalse id
  | .error (.error _) => .isTrue trivial
  | .ok _ => .isTrue trivial

@[simp]
theorem safe_ok : Safe (.ok a : Go α) :=
  trivial

@[simp]
theorem safe_pure : Safe (pure a : Go α) :=
  trivial

@[simp]
theorem safe_fail : Safe (fail e : Go α) :=
  trivial

@[simp]
theorem not_safe_panic : ¬Safe (panic : Go α) :=
  id

@[simp]
theorem safe_ofExcept : Safe (ofExcept x : Go α) := by
  cases x <;> trivial

@[simp]
theorem safe_ofError : (ofError o).Safe := by
  cases o <;> trivial

@[simp]
theorem ofError_eq_ok : ofError o = .ok a ↔ o = none := by
  cases o <;> simp [ofError, fail]

theorem ofExcept_eq_ok {x : Except String α} : ofExcept x = .ok a ↔ x = .ok a := by
  cases x <;> simp [ofExcept, fail]

@[simp]
theorem safe_deref : Safe (deref p : Go α) ↔ p.isSome := by
  cases p <;> simp [deref]

theorem deref_eq_ok {p : Option α} : deref p = .ok a ↔ p = some a := by
  cases p <;> simp [deref, panic]

theorem dropError_of_safe {x : Go α} (h : x.Safe) : dropError x = .ok x.toOption := by
  cases x
  case ok => rfl
  case error e => cases e <;> trivial

@[simp]
theorem ok_bind {f : α → Go β} : (.ok a : Go α) >>= f = f a := by
  simp only [bind, Except.bind]

theorem eq_ok_get {x : Go α} (h : x.toOption.isSome) : x = .ok (x.toOption.get h) := by
  cases x
  case ok => rfl
  case error e => cases h

theorem bind_eq_ok {x : Go α} {f : α → Go β} :
    x >>= f = .ok b ↔ ∃ a, x = .ok a ∧ f a = .ok b := by
  cases x <;> simp [bind, Except.bind]

theorem map_eq_ok {x : Go α} {f : α → β} : f <$> x = .ok b ↔ ∃ a, x = .ok a ∧ f a = b := by
  cases x <;> simp [Functor.map, Except.map]

@[simp]
theorem safe_map {x : Go α} {f : α → β} : Safe (f <$> x) ↔ x.Safe := by
  cases x
  case ok => rfl
  case error e => cases e <;> rfl

theorem safe_bind_iff {x : Go α} {f : α → Go β} :
    (x >>= f).Safe ↔ x.Safe ∧ ∀ a, x = .ok a → (f a).Safe := by
  cases x
  case ok a => simp [bind, Except.bind]
  case error e => cases e <;> simp [bind, Except.bind, Safe]

theorem Safe.bind {x : Go α} {f : α → Go β} (hx : x.Safe) (hf : ∀ a, x = .ok a → (f a).Safe) :
    (x >>= f).Safe :=
  safe_bind_iff.mpr ⟨hx, hf⟩

theorem Safe.mapM {f : α → Go β} {l : List α} (h : ∀ a ∈ l, (f a).Safe) : (l.mapM f).Safe := by
  induction l
  case nil => trivial
  case cons a l hi =>
    rw [mapM_cons]
    refine (h a mem_cons_self).bind fun b _ => ?_
    exact (hi fun a ha => h a <| mem_cons_of_mem _ ha).bind fun _ _ => trivial

theorem mapM_eq_ok {f : α → Go β} {l : List α} (h : ∀ a ∈ l, f a = .ok (g a)) :
    l.mapM f = .ok (l.map g) := by
  induction l
  case nil => rfl
  case cons a l hi =>
    rw [mapM_cons, h a mem_cons_self, ok_bind,
      hi fun a ha => h a <| mem_cons_of_mem _ ha, ok_bind]
    rfl

theorem safe_mapM_iff {f : α → Go β} {l : List α}
    (hf : ∀ a ∈ l, (f a).Safe → ∃ b, f a = .ok b) :
    (l.mapM f).Safe ↔ ∀ a ∈ l, (f a).Safe := by
  refine ⟨?_, .mapM⟩
  induction l
  case nil => intro _ _ ha; cases ha
  case cons a l hi =>
    intro h
    rw [mapM_cons, safe_bind_iff] at h
    obtain ⟨b, hb⟩ := hf a mem_cons_self h.1
    have hl := (safe_bind_iff.mp <| h.2 b hb).1
    rw [forall_mem_cons]
    exact ⟨h.1, hi (fun a ha => hf a <| mem_cons_of_mem _ ha) hl⟩

end Go
