import Myts.Lib.Decimal

open List

-- Paths with slashes as separators.
namespace Filepath

def separator : Char     := '/'
def dot       : FileName := ['.']
def dotDot    : FileName := ['.', '.']

structure Path where
  rooted : Bool
  elems : List FileName
deriving DecidableEq

def Plain (e : FileName) : Prop :=
  e ≠ [] ∧ e ≠ dot ∧ e ≠ dotDot

instance : DecidablePred Plain := fun _ => inferInstanceAs (Decidable (_ ∧ _ ∧ _))

def push (rooted : Bool) (out : List FileName) (e : FileName) : List FileName :=
  if e = [] ∨ e = dot then
    out
  else if e = dotDot then
    match out.getLast? with
    | none => if rooted then [] else [dotDot]
    | some l => if l = dotDot then out ++ [dotDot] else out.dropLast
  else
    out ++ [e]

def clean (s : List Char) : Path :=
  let rooted : Bool := s.head? = some separator
  { rooted, elems := (s.splitOn separator).foldl (push rooted) [] }

def strip : List FileName → List FileName → List FileName × List FileName
  | b :: bs, t :: ts => if b = t then strip bs ts else (b :: bs, t :: ts)
  | bs, ts => (bs, ts)

def rel (base targ : Path) : Option Path :=
  if base.rooted ≠ targ.rooted then
    none
  else
    let (bs, ts) := strip base.elems targ.elems
    if bs.head? = some dotDot then
      none
    else
      some { rooted := false, elems := bs.map (fun _ => dotDot) ++ ts }

namespace Path

def join (dir p : Path) : Path where
  rooted := dir.rooted
  elems := (dir.elems ++ p.elems).foldl (push dir.rooted) []

def addExt (p : Path) (x : FileName) : Path :=
  match p.elems.getLast? with
  | none => { p with elems := [if p.rooted then x else dot ++ x] }
  | some l => { p with elems := p.elems.dropLast ++ [l ++ x] }

def dropExt (p : Path) (n : Nat) : Path :=
  match p.elems.getLast? with
  | none => p
  | some l =>
    let l := l.take (l.length - n)
    { p with elems := p.elems.dropLast ++ if l = [] ∨ l = dot then [] else [l] }

def parent (p : Path) : Path :=
  { p with elems := p.elems.dropLast }

def str (p : Path) : List Char :=
  if p.elems = [] then
    if p.rooted then [separator] else dot
  else
    (if p.rooted then [separator] else []) ++ [separator].intercalate p.elems

def Below (p dir : Path) : Prop :=
  p.rooted = dir.rooted ∧ dir.elems <+: p.elems ∧ dir.elems ≠ p.elems

instance : Decidable (Below p dir) := inferInstanceAs (Decidable (_ ∧ _ ∧ _))

def IsClean (p : Path) : Prop :=
  p.elems.foldl (push p.rooted) [] = p.elems

instance : DecidablePred IsClean := fun _ => inferInstanceAs (Decidable (_ = _))

end Path

section Theorems

variable {e : FileName} {es out : List FileName} {rooted : Bool}

theorem push_plain (h : Plain e) : push rooted out e = out ++ [e] := by
  rw [push, if_neg (not_or.mpr ⟨h.left, h.right.left⟩), if_neg h.right.right]

theorem foldl_push_plain (h : ∀ e ∈ es, Plain e) : es.foldl (push rooted) out = out ++ es := by
  induction es generalizing out
  case nil => simp
  case cons e es hi =>
    have ⟨he, hes⟩ := forall_mem_cons.mp h
    rw [foldl_cons, push_plain he, hi hes, append_assoc]
    rfl

def Climbs (es : List FileName) : Prop :=
  ∃ k ns, es = List.replicate k dotDot ++ ns ∧ ∀ n ∈ ns, Plain n

theorem climbs_push (h : Climbs out) : Climbs (push rooted out e) := by
  have ⟨k, ns, he, hn⟩ := h
  rw [push]
  split
  case isTrue => exact h
  split
  case isFalse h₁ h₂ =>
    refine ⟨k, ns ++ [e], by rw [he, append_assoc], ?_⟩
    rw [forall_mem_append, forall_mem_singleton]
    exact ⟨hn, (not_or.mp h₁).left, (not_or.mp h₁).right, h₂⟩
  case isTrue =>
    rcases eq_nil_or_concat' ns with rfl | ⟨ns, n, rfl⟩
    case inl =>
      rw [append_nil] at he
      split
      case h_1 =>
        split
        case isTrue => exact ⟨0, [], rfl, nofun⟩
        case isFalse => exact ⟨1, [], rfl, nofun⟩
      case h_2 l hl =>
        have hl : l = dotDot := eq_of_mem_replicate (he ▸ mem_of_getLast? hl)
        rw [if_pos hl, he]
        exact ⟨k + 1, [], by rw [replicate_succ', append_nil], nofun⟩
    case inr =>
      have hl : out.getLast? = some n := by rw [he]; simp
      have hp := hn n (by simp)
      rw [hl]
      dsimp only
      rw [if_neg hp.right.right, he, ← append_assoc, dropLast_concat]
      exact ⟨k, ns, rfl, fun m hm => hn m (mem_append_left _ hm)⟩

theorem climbs_foldl_push (h : Climbs out) : Climbs (es.foldl (push rooted) out) := by
  induction es generalizing out
  case nil => exact h
  case cons e es hi => exact hi (climbs_push h)

theorem climbs_clean (s : List Char) : Climbs (clean s).elems :=
  climbs_foldl_push ⟨0, [], rfl, nofun⟩

theorem Climbs.plain (h : Climbs (e :: es)) (he : Plain e) : ∀ n ∈ es, Plain n := by
  have ⟨k, ns, hs, hn⟩ := h
  cases k
  case zero =>
    rw [replicate_zero, nil_append] at hs
    exact fun n hm => hn n (hs ▸ mem_cons_of_mem _ hm)
  case succ => exact absurd (List.cons.inj hs).left he.right.right

theorem strip_append (bs ts : List FileName) : strip bs (bs ++ ts) = ([], ts) := by
  induction bs
  case nil => cases ts <;> rfl
  case cons b bs hi => rw [cons_append, strip, if_pos rfl, hi]

theorem ne_separator (h : separator ∉ e) (hc : c ∈ e) : c ≠ separator :=
  fun he => h (he ▸ hc)

theorem splitOn_plain (h : separator ∉ e) : e.splitOn separator = [e] :=
  splitOnP_eq_singleton fun c hc => by simpa using ne_separator h hc

theorem splitOn_append (h : separator ∉ e) (s : List Char) :
    (e ++ separator :: s).splitOn separator = e :: s.splitOn separator :=
  splitOnP_append_cons_of_forall_mem (fun c hc => by simpa using ne_separator h hc) _
    (by simp) s

end Theorems

namespace Path

variable {p dir : Path} {es : List FileName}

theorem join_plain (h : dir.IsClean) (hp : ∀ e ∈ p.elems, Plain e) :
    dir.join p = { dir with elems := dir.elems ++ p.elems } := by
  rw [join, foldl_append, h, foldl_push_plain hp]

theorem Below.of_append (h : es ≠ []) : Below { dir with elems := dir.elems ++ es } dir :=
  ⟨rfl, prefix_append _ _, by simpa using h⟩

theorem Below.addExt (h : es ≠ []) (x : FileName) :
    Below (({ dir with elems := dir.elems ++ es } : Path).addExt x) dir := by
  rcases eq_nil_or_concat' es with rfl | ⟨es, e, rfl⟩
  case inl => exact absurd rfl h
  case inr =>
    have hl : (dir.elems ++ (es ++ [e])).getLast? = some e := by simp
    rw [Path.addExt]
    dsimp only
    rw [hl]
    dsimp only
    rw [← append_assoc, dropLast_concat, append_assoc]
    exact .of_append (by simp)

theorem clean_str (hr : p.rooted = false) (hn : p.elems ≠ [])
    (hp : ∀ e ∈ p.elems, Plain e ∧ separator ∉ e) : clean p.str = p := by
  have hs : p.str.splitOn separator = p.elems := by
    rw [str, if_neg hn, hr]
    exact splitOn_intercalate separator (fun e he => (hp e he).right) hn
  have hh : p.str.head? ≠ some separator := by
    have ⟨e, es, he⟩ := exists_cons_of_ne_nil hn
    have ⟨⟨hne, _⟩, hsep⟩ := hp e (he ▸ mem_cons_self)
    have ⟨c, cs, hc⟩ := exists_cons_of_ne_nil hne
    rw [str, if_neg hn, hr, he, hc]
    intro h
    have hcs : c = separator := by cases es <;> simpa [List.intercalate] using h
    exact hsep (hc ▸ hcs ▸ mem_cons_self)
  cases p
  dsimp only at hr hs hp
  subst hr
  simp only [clean, hs, hh, decide_false]
  rw [foldl_push_plain fun e he => (hp e he).left, nil_append]

theorem dropExt_addExt {r : Bool} (h : e ≠ []) (hd : e ≠ dot) (es : List FileName)
    (x : FileName) : (Path.addExt { rooted := r, elems := es ++ [e] } x).dropExt x.length
      = { rooted := r, elems := es ++ [e] } := by
  simp [Path.addExt, dropExt, h, hd]

end Path
end Filepath
