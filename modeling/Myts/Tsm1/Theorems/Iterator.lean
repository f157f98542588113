import Myts.Tsm1.Iterator

open List

open Timeline

namespace Tsm1.Join

variable {V W : Type} {eof : Int64} {asc : Bool}

namespace Yields

variable {a : Series Int64 V} {t : Int64} {v : V}

theorem tail (h : Yields eof asc ((t, v) :: a)) : Yields eof asc a :=
  ⟨h.1.tail, fun p hp => h.2 p (mem_cons_of_mem _ hp)⟩

end Yields

namespace BufCursor

variable {c : BufCursor V} {a : Series Int64 V}

theorem yields_of (h : Join.Yields eof asc a) : (⟨a, none, asc⟩ : BufCursor V).Yields eof asc where
  ascending := rfl
  pending := h
  ended _ h := nomatch h

theorem next_nil (h : c.Yields eof asc) (hp : c.pending = []) :
    c.next eof = ((eof, none), ⟨[], none, asc⟩) := by
  obtain ⟨cur, buf, _⟩ := c
  obtain rfl := h.ascending
  match buf with
  | none =>
    obtain rfl : cur = [] := hp
    rfl
  | some (k, none) =>
    obtain ⟨rfl, rfl⟩ := h.ended k rfl
    rfl
  | some (k, some v) => exact absurd hp (cons_ne_nil _ _)

theorem next_cons (h : c.Yields eof asc) (hp : c.pending = (k, v) :: a) :
    c.next eof = ((k, some v), ⟨a, none, asc⟩) := by
  obtain ⟨cur, buf, _⟩ := c
  obtain rfl := h.ascending
  match buf with
  | none =>
    obtain rfl : cur = (k, v) :: a := hp
    rfl
  | some (k, none) =>
    obtain ⟨_, rfl⟩ := h.ended k rfl
    exact absurd hp.symm (cons_ne_nil _ _)
  | some (k', some v') =>
    obtain ⟨⟨rfl, rfl⟩, rfl⟩ : (k' = k ∧ v' = v) ∧ cur = a := by simpa [pending] using hp
    rfl

theorem peek_spec (h : c.Yields eof asc) :
    ∃ c', c.peek eof = ((c.pending.head?.elim (eof, none) fun p => (p.1, some p.2)), c') ∧
      c'.pending = c.pending ∧ c'.Yields eof asc := by
  match hp : c.pending with
  | [] =>
    refine ⟨⟨[], some (eof, none), asc⟩, ?_, rfl, rfl, hp ▸ h.pending, ?_⟩
    · rw [peek, next_nil h hp]
      rfl
    · rintro k ⟨⟩
      exact ⟨rfl, rfl⟩
  | (k, v) :: a =>
    have hy := h.pending
    rw [hp] at hy
    refine ⟨⟨a, some (k, some v), asc⟩, ?_, rfl, rfl, hy, nofun⟩
    rw [peek, next_cons h hp]
    rfl

theorem nextAt_spec (seek : Int64) (h : c.Yields eof asc) (hn : c.pending.length < n) :
    ∃ c', c.nextAt eof seek n = some (c.pending.lookup seek, c') ∧
      c'.pending = after asc seek c.pending ∧ c'.Yields eof asc := by
  induction n generalizing c
  case zero => exact absurd hn (Nat.not_lt_zero _)
  case succ n hi =>
    have hy := h.pending
    match hp : c.pending with
    | [] =>
      refine ⟨⟨[], none, asc⟩, ?_, rfl, yields_of (hp ▸ hy)⟩
      rw [nextAt, next_nil h hp]
      simp
    | (k, v) :: a =>
      rw [hp] at hy hn
      have hk : k ≠ eof := hy.2 _ mem_cons_self
      rw [nextAt, next_cons h hp]
      dsimp only
      rw [if_pos hk]
      rcases before_or_eq_or_before asc k seek with hb | rfl | hb
      · have ⟨c', hc, hp', hy'⟩ := hi (c := ⟨a, none, asc⟩) (yields_of hy.tail)
          (Nat.lt_of_succ_lt_succ hn)
        refine ⟨c', ?_, hp'.trans (after_cons_of_before hb).symm, hy'⟩
        rw [if_neg hb.ne, lookup_cons, beq_false_of_ne hb.ne.symm]
        cases asc
        case false => rw [if_neg (by simp), if_pos ⟨by simp, hb⟩, hc]; rfl
        case true => rw [if_pos ⟨rfl, hb⟩, hc]; rfl
      · refine ⟨⟨a, none, asc⟩, ?_, (after_cons_self hy.1).symm, yields_of hy.tail⟩
        rw [if_pos rfl, lookup_cons, beq_self_eq_true]
      · refine ⟨⟨a, some (k, some v), asc⟩, ?_, (after_of_before hy.1 hb).symm, rfl, hy, nofun⟩
        rw [if_neg hb.ne.symm, lookup_of_before hy.1 hb]
        cases asc
        case false => rw [if_neg (by simp), if_neg (fun h => hb.asymm h.2)]; rfl
        case true => rw [if_neg (fun h => hb.asymm h.2), if_neg (by simp)]; rfl

end BufCursor

namespace CursorAt

variable {c : CursorAt V}

theorem Yields.values (h : c.Yields eof asc) : Join.Yields eof asc c.field.values := by
  cases c
  case literal => exact ⟨.nil, nofun⟩
  case buffered c => exact BufCursor.Yields.pending h

theorem peek_spec (h : c.Yields eof asc) :
    ∃ c', ((c.peek eof).1.1, (c.peek eof).2) = ((c.field.values.head?.elim eof Prod.fst), c') ∧
      c'.field = c.field ∧ c'.Yields eof asc := by
  cases c
  case literal value => exact ⟨_, rfl, rfl, trivial⟩
  case buffered c =>
    have ⟨c', hc, hp, hy⟩ := BufCursor.peek_spec h
    refine ⟨buffered c', ?_, congrArg Field.stored hp, hy⟩
    rw [peek, hc]
    dsimp only [field, Field.values]
    cases c.pending.head? <;> rfl

theorem nextAt_spec (seek : Int64) (h : c.Yields eof asc) (hn : c.field.values.length < n) :
    ∃ c', c.nextAt eof seek n = some (c.field.valueAt seek, c') ∧
      c'.field = c.field.after asc seek ∧ c'.Yields eof asc := by
  cases c
  case literal value => exact ⟨_, rfl, rfl, trivial⟩
  case buffered c =>
    have ⟨c', hc, hp, hy⟩ := BufCursor.nextAt_spec seek h hn
    refine ⟨buffered c', ?_, congrArg Field.stored hp, hy⟩
    rw [nextAt, hc]
    rfl

end CursorAt

namespace Field

variable {f : Field V}

theorem valueAt_after (h : Before asc t s) : (f.after asc t).valueAt s = f.valueAt s := by
  cases f
  case stored => exact lookup_after h
  case literal => rfl

theorem values_after : (f.after asc t).values = Timeline.after asc t f.values := by
  cases f <;> rfl

end Field

namespace Rows

variable {r : Rows V W} {l : List (Int64 × Option W)}

theorem ordered_times (h : ∀ main ∈ r.main, Ordered r.ascending main) :
    Ordered r.ascending r.times := by
  unfold times
  cases hm : r.main
  case none => exact pairwise_map.mpr pairwise_union
  case some main => exact pairwise_map.mpr (h main hm)

theorem times_past (h : ∀ main ∈ r.main, Ordered r.ascending main)
    (ht : r.times = (t, v) :: l) : (r.past t).times = l := by
  have ho := ordered_times h
  rw [ht] at ho
  unfold times at ht ⊢
  cases hm : r.main
  case some main =>
    simp only [hm, past, Option.map_some] at ht ⊢
    rw [map_tail, ht, tail_cons]
  case none =>
    simp only [hm, past, Option.map_none, map_map] at ht ⊢
    have hu : union r.ascending (r.aux.map Field.values) = t :: l.map Prod.fst := by
      have := congrArg (List.map Prod.fst) ht
      simpa [Function.comp_def] using this
    have hf := union_eq_cons (hu ▸ mem_cons_self) fun s hs => by
      rw [hu, mem_cons] at hs
      refine hs.imp_right fun hs => ?_
      have ⟨p, hp, hs⟩ := mem_map.mp hs
      exact hs ▸ rel_of_pairwise_cons ho hp
    rw [hf, map_cons, List.cons.injEq, map_map] at ht
    simpa only [Function.comp_def, Field.values_after] using ht.2

theorem inRange_of_before (h : Before r.ascending t s) (hs : r.InRange s) : r.InRange t := by
  unfold Before at h
  unfold InRange at hs ⊢
  by_cases ha : r.ascending
  · rw [if_pos ha] at h hs ⊢
    exact h.le.trans hs
  · rw [if_neg ha] at h hs ⊢
    exact hs.trans h.le

theorem satisfied_past (h : Before r.ascending t s) : (r.past t).satisfied s = r.satisfied s := by
  unfold satisfied past
  cases r.condition
  case none => rfl
  case some c =>
    simp only [Option.map_some, fieldsAt, foldl_map, Field.valueAt_after h]

theorem point_past (h : Before r.ascending t p.1) : (r.past t).point p = r.point p := by
  simp only [point, past, map_map, Function.comp_def, Field.valueAt_after h]

theorem points_eq (h : ∀ main ∈ r.main, Ordered r.ascending main) (ht : r.times = (t, v) :: l) :
    r.points =
      (if r.InRange t ∧ r.satisfied t then [r.point (t, v)] else []) ++ (r.past t).points := by
  have ho := ordered_times h
  rw [ht] at ho
  have hl : ∀ p ∈ l, Before r.ascending t p.1 := fun p hp => rel_of_pairwise_cons ho hp
  have hp : (r.past t).points =
      (l.filter fun p => r.InRange p.1 ∧ r.satisfied p.1).map r.point := by
    rw [points, times_past h ht,
      filter_congr (q := fun p => decide (r.InRange p.1 ∧ r.satisfied p.1))]
    · exact map_congr_left fun p hp => point_past (hl p (mem_of_mem_filter hp))
    · intro p hp
      rw [satisfied_past (hl p hp)]
      rfl
  rw [hp, points, ht, filter_cons]
  split <;> simp_all

theorem points_of_not_inRange (h : ∀ main ∈ r.main, Ordered r.ascending main)
    (ht : r.times = (t, v) :: l) (hr : ¬r.InRange t) : r.points = [] := by
  have ho := ordered_times h
  rw [ht] at ho
  rw [points, map_eq_nil_iff, filter_eq_nil_iff, ht]
  intro p hp
  rcases mem_cons.mp hp with rfl | hp
  · simp [hr]
  · have := mt (inRange_of_before (rel_of_pairwise_cons ho hp)) hr
    simp [this]

theorem times_tail_suffix : r.tail.times <:+ r.times := by
  unfold times tail
  cases r.main
  case none => exact suffix_rfl
  case some main =>
    dsimp only [Option.map_some]
    rw [map_tail]
    exact tail_suffix _

theorem points_tail (h : r.points = []) : r.tail.points = [] := by
  refine eq_nil_of_sublist_nil (h ▸ ?_)
  exact (times_tail_suffix.sublist.filter _).map _

end Rows

section Reads

theorem exists_mapM_eq_some {f : α → Option β} {R : α → β → Prop} {l : List α}
    (h : ∀ a ∈ l, ∃ b, f a = some b ∧ R a b) : ∃ bs, l.mapM f = some bs ∧ List.Forall₂ R l bs := by
  induction l
  case nil => exact ⟨[], rfl, .nil⟩
  case cons a l hi =>
    rw [forall_mem_cons] at h
    have ⟨b, hb, hr⟩ := h.1
    have ⟨bs, hbs, hrs⟩ := hi h.2
    exact ⟨b :: bs, by simp [hb, hbs], .cons hr hrs⟩

theorem map_eq_of_forall₂ {R : α → β → Prop} {f : α → γ} {g : β → γ}
    (h : List.Forall₂ R l bs) (hR : ∀ a b, R a b → g b = f a) : bs.map g = l.map f := by
  induction h
  case nil => rfl
  case cons hr _ hi => rw [map_cons, map_cons, hR _ _ hr, hi]

theorem forall_mem_of_forall₂ {R : α → β → Prop} {P : β → Prop}
    (h : List.Forall₂ R l bs) (hR : ∀ a b, R a b → P b) : ∀ b ∈ bs, P b := by
  induction h
  case nil => exact nofun
  case cons hr _ hi => exact forall_mem_cons.mpr ⟨hR _ _ hr, hi⟩

variable {aux : List (CursorAt V)} {c : Condition V} {fuel : Nat}

theorem mapM_nextAt (t : Int64) (h : ∀ c ∈ aux, c.Yields eof asc)
    (hn : ∀ c ∈ aux, c.field.values.length < fuel) :
    ∃ rs, aux.mapM (·.nextAt eof t fuel) = some rs ∧
      rs.map Prod.fst = (aux.map CursorAt.field).map (Field.valueAt t) ∧
      (rs.map Prod.snd).map CursorAt.field = (aux.map CursorAt.field).map (Field.after asc t) ∧
      ∀ c ∈ rs.map Prod.snd, c.Yields eof asc := by
  have hs : ∀ c ∈ aux, ∃ r, c.nextAt eof t fuel = some r ∧ r.1 = c.field.valueAt t ∧
      r.2.field = c.field.after asc t ∧ r.2.Yields eof asc := by
    intro c hc
    have ⟨c', hc', hf, hy⟩ := c.nextAt_spec t (h c hc) (hn c hc)
    exact ⟨_, hc', rfl, hf, hy⟩
  have ⟨rs, hm, hr⟩ := exists_mapM_eq_some hs
  refine ⟨rs, hm, ?_, ?_, ?_⟩
  · rw [map_map]
    exact map_eq_of_forall₂ hr fun _ _ h => h.1
  · rw [map_map, map_map]
    exact map_eq_of_forall₂ hr fun _ _ h => h.2.1
  · rw [forall_mem_map]
    exact forall_mem_of_forall₂ hr fun _ _ h => h.2.2

theorem Condition.read_spec (t : Int64) (h : c.Yields eof asc)
    (hn : ∀ p ∈ c.conds, p.2.field.values.length < fuel) :
    ∃ c', c.read eof t fuel = some c' ∧ c'.evalBool = c.evalBool ∧
      c'.fields = c.fields.map (fun p => (p.1, p.2.after asc t)) ∧
      c'.m = Rows.fieldsAt t c.fields ∧ c'.Yields eof asc := by
  have hs : ∀ p ∈ c.conds, ∃ r, (p.2.nextAt eof t fuel).map (p.1, ·) = some r ∧ r.1 = p.1 ∧
      r.2.1 = p.2.field.valueAt t ∧ r.2.2.field = p.2.field.after asc t ∧
      r.2.2.Yields eof asc := by
    intro p hp
    have ⟨c', hc', hf, hy⟩ := p.2.nextAt_spec t (h.conds p hp) (hn p hp)
    exact ⟨_, congrArg (Option.map _) hc', rfl, rfl, hf, hy⟩
  have ⟨rs, hm, hr⟩ := exists_mapM_eq_some hs
  have hk : rs.map (fun r => (r.1, r.2.1)) = c.conds.map fun p => (p.1, p.2.field.valueAt t) :=
    map_eq_of_forall₂ hr fun _ _ h => by rw [h.1, h.2.1]
  have hn : (rs.map fun r => (r.1, r.2.1)).map Prod.fst = c.conds.map Prod.fst := by
    rw [hk, map_map]
    rfl
  have hf : rs.foldl (fun m r => m.insert r.1 r.2.1) c.m =
      (rs.map fun r => (r.1, r.2.1)).foldl (fun m p => m.insert p.1 p.2) c.m := by
    rw [foldl_map]
  have hmap : rs.foldl (fun m r => m.insert r.1 r.2.1) c.m = Rows.fieldsAt t c.fields := by
    rw [hf, GoMap.foldl_insert_eq_empty (hn ▸ h.m), hk, foldl_map, Rows.fieldsAt, fields,
      foldl_map]
  refine ⟨{ c with conds := rs.map fun r => (r.1, r.2.2), m := _ }, ?_, rfl, ?_, hmap, ?_, ?_⟩
  · rw [read, hm]
    rfl
  · rw [fields, fields, map_map, map_map]
    exact map_eq_of_forall₂ hr fun _ _ h => by simp [h.1, h.2.2.1]
  · rw [forall_mem_map]
    exact forall_mem_of_forall₂ hr fun _ _ h => h.2.2.2
  · intro name hname
    rw [hf, GoMap.mem_foldl_insert, hn] at hname
    have hc := hname.elim id (h.m name)
    rw [← hn, map_map] at hc
    rwa [map_map]

end Reads

namespace Iterator

section Lowest

variable {seek k s : Int64} {aux : List (CursorAt V)}

theorem lower_eof : lower eof asc seek eof = seek := by
  simp [lower]

theorem lower_eq : lower eof asc seek k = k ∨ lower eof asc seek k = seek := by
  unfold lower
  split_ifs <;> simp

theorem lower_spec (asc : Bool) (seek : Int64) (hk : k ≠ eof) :
    lower eof asc seek k ≠ eof ∧ ∀ s, s = k ∨ (s = seek ∧ seek ≠ eof) →
      s = lower eof asc seek k ∨ Before asc (lower eof asc seek k) s := by
  have hb : (seek = eof ∨ (asc ∧ k < seek) ∨ (¬asc ∧ k > seek)) ↔
      seek = eof ∨ Before asc k seek := by
    cases asc <;> simp [Before]
  rw [lower, if_pos hk, if_congr hb rfl rfl]
  split
  case isTrue h =>
    refine ⟨hk, ?_⟩
    rintro s (rfl | ⟨rfl, hs⟩)
    · exact .inl rfl
    · exact .inr (h.resolve_left hs)
  case isFalse h =>
    rw [not_or] at h
    refine ⟨h.1, ?_⟩
    rintro s (rfl | ⟨rfl, _⟩)
    · exact (before_or_eq_or_before asc s seek).resolve_left h.2
    · exact .inl rfl

theorem lowest_cons (c : CursorAt V) :
    lowest eof asc seek (c :: aux) =
      ((lowest eof asc (lower eof asc seek (c.peek eof).1.1) aux).1,
        (c.peek eof).2 :: (lowest eof asc (lower eof asc seek (c.peek eof).1.1) aux).2) :=
  rfl

theorem lowest_cursors (seek : Int64) (h : ∀ c ∈ aux, c.Yields eof asc) :
    (lowest eof asc seek aux).2.map CursorAt.field = aux.map CursorAt.field ∧
      ∀ c ∈ (lowest eof asc seek aux).2, c.Yields eof asc := by
  induction aux generalizing seek
  case nil => exact ⟨rfl, h⟩
  case cons c aux hi =>
    rw [forall_mem_cons] at h
    have ⟨c', hc, hf, hy⟩ := c.peek_spec h.1
    have ⟨hm, hs⟩ := hi (lower eof asc seek (c.peek eof).1.1) h.2
    rw [lowest_cons, map_cons, map_cons, hm, forall_mem_cons, (Prod.mk.inj hc).2]
    exact ⟨by rw [hf], hy, hs⟩

theorem lowest_mem (h : ∀ c ∈ aux, c.Yields eof asc) :
    (lowest eof asc seek aux).1 = seek ∨
      ∃ c ∈ aux, ∃ v, ((lowest eof asc seek aux).1, v) ∈ c.field.values := by
  induction aux generalizing seek
  case nil => exact .inl rfl
  case cons c aux hi =>
    rw [forall_mem_cons] at h
    have ⟨_, hc, _⟩ := c.peek_spec h.1
    rw [lowest_cons, (Prod.mk.inj hc).1, exists_mem_cons_iff]
    rcases hi h.2 with hm | hm
    case inr => exact .inr (.inr hm)
    case inl =>
      rw [hm]
      match hv : c.field.values with
      | [] => exact .inl lower_eof
      | p :: vs =>
        refine lower_eq.symm.imp_right fun hk => .inl ⟨p.2, ?_⟩
        rw [hk]
        exact mem_cons_self

theorem lowest_first (seek : Int64) (h : ∀ c ∈ aux, c.Yields eof asc)
    (hs : (s = seek ∧ seek ≠ eof) ∨ ∃ c ∈ aux, ∃ v, (s, v) ∈ c.field.values) :
    (lowest eof asc seek aux).1 ≠ eof ∧
      (s = (lowest eof asc seek aux).1 ∨ Before asc (lowest eof asc seek aux).1 s) := by
  induction aux generalizing seek s
  case nil =>
    obtain ⟨rfl, hs⟩ := hs.resolve_right (by simp)
    exact ⟨hs, .inl rfl⟩
  case cons c aux hi =>
    rw [forall_mem_cons] at h
    have ⟨_, hc, _⟩ := c.peek_spec h.1
    have hy := h.1.values
    rw [lowest_cons, (Prod.mk.inj hc).1]
    rw [exists_mem_cons_iff] at hs
    match hv : c.field.values with
    | [] =>
      refine hi _ h.2 ?_
      simpa [lower_eof, hv] using hs
    | p :: vs =>
      rw [hv] at hs hy
      have ⟨hn, hl⟩ := lower_spec asc seek (hy.2 p mem_cons_self)
      have ⟨hm, hf⟩ := hi _ h.2 (.inl ⟨rfl, hn⟩)
      refine ⟨hm, ?_⟩
      rcases hs with hs | ⟨v, hs⟩ | hs
      · exact eq_or_before_trans hf (hl s (.inr hs))
      · refine eq_or_before_trans (eq_or_before_trans hf (hl p.1 (.inl rfl))) ?_
        rcases mem_cons.mp hs with rfl | hs
        · exact .inl rfl
        · exact .inr (rel_of_pairwise_cons hy.1 hs)
      · exact (hi _ h.2 (.inr hs)).2

theorem lowest_eq (h : ∀ c ∈ aux, c.Yields eof asc) :
    (lowest eof asc eof aux).1 =
      (union asc ((aux.map CursorAt.field).map Field.values)).head?.getD eof := by
  have hm : ∀ s, s ∈ union asc ((aux.map CursorAt.field).map Field.values) ↔
      ∃ c ∈ aux, ∃ v, (s, v) ∈ c.field.values := by
    simp [mem_union]
  have hp : (union asc ((aux.map CursorAt.field).map Field.values)).Pairwise (Before asc) :=
    pairwise_union
  match hu : union asc ((aux.map CursorAt.field).map Field.values) with
  | [] =>
    refine (lowest_mem h).resolve_right ?_
    rw [← hm, hu]
    exact not_mem_nil
  | t :: l =>
    have ⟨hn, hf⟩ := lowest_first eof h (.inr ((hm t).mp (hu ▸ mem_cons_self)))
    have ht := (hm _).mpr ((lowest_mem h).resolve_left hn)
    rw [hu] at hp ht
    refine hf.elim Eq.symm fun hb => ?_
    rcases mem_cons.mp ht with ht | ht
    · exact ht
    · exact absurd (rel_of_pairwise_cons hp ht) hb.asymm

end Lowest

variable {itr : Iterator V W} {fuel : Nat}

theorem seek_spec (h : itr.Yields eof) :
    ∃ itr', itr.seek eof = (itr.rows.times.head?.getD (eof, none), itr') ∧ itr'.Yields eof ∧
      itr'.rows = itr.rows.tail := by
  obtain ⟨cur, aux, condition, asc, startTime, endTime⟩ := itr
  match cur with
  | some [] => exact ⟨_, rfl, ⟨h.cur, h.aux, h.condition⟩, rfl⟩
  | some ((t, v) :: a) =>
    refine ⟨_, rfl, ⟨?_, h.aux, h.condition⟩, rfl⟩
    rintro _ ⟨⟩
    exact (h.cur _ rfl).tail
  | none =>
    have ⟨hf, hy⟩ := lowest_cursors eof h.aux
    refine ⟨⟨none, (lowest eof asc eof aux).2, condition, asc, startTime, endTime⟩, ?_,
      ⟨h.cur, hy, h.condition⟩, ?_⟩
    · rw [seek]
      dsimp only
      rw [lowest_eq h.aux]
      dsimp only [rows, Rows.times]
      cases union asc ((aux.map CursorAt.field).map Field.values) <;> rfl
    · simp only [rows, hf]
      rfl

structure Enough (fuel : Nat) (r : Rows V W) : Prop where
  aux : ∀ f ∈ r.aux, f.values.length < fuel
  conds : ∀ c ∈ r.condition, ∀ p ∈ c.2, p.2.values.length < fuel

theorem Enough.past {r : Rows V W} (h : Enough fuel r) : Enough fuel (r.past t) := by
  have hl (f : Field V) : (f.after r.ascending t).values.length ≤ f.values.length := by
    rw [Field.values_after]
    exact length_filter_le _ _
  constructor
  · intro f hf
    have ⟨f', hf', he⟩ := mem_map.mp hf
    exact he ▸ (hl f').trans_lt (h.aux f' hf')
  · intro c hc p hp
    have ⟨c', hc', he⟩ := Option.map_eq_some_iff.mp hc
    subst he
    have ⟨p', hp', he⟩ := mem_map.mp hp
    exact he ▸ (hl p'.2).trans_lt (h.conds c' hc' p' hp')

theorem mapM_read (t : Int64) (h : itr.Yields eof) (hn : Enough fuel itr.rows) :
    ∃ aux condition, itr.aux.mapM (·.nextAt eof t fuel) = some aux ∧
      itr.condition.mapM (·.read eof t fuel) = some condition ∧
      aux.map Prod.fst = itr.rows.aux.map (Field.valueAt t) ∧
      evaluate condition = itr.rows.satisfied t ∧
      Iterator.Yields eof { itr with aux := aux.map Prod.snd, condition } ∧
      Iterator.rows { itr with aux := aux.map Prod.snd, condition } =
        { itr.rows.past t with main := itr.rows.main } := by
  have ⟨rs, hm, hv, hf, hy⟩ := mapM_nextAt t h.aux (forall_mem_map.mp hn.aux)
  obtain ⟨cur, aux, condition, asc, startTime, endTime⟩ := itr
  cases condition
  case none =>
    refine ⟨rs, none, hm, rfl, hv, rfl, ⟨h.cur, hy, h.condition⟩, ?_⟩
    simp only [rows, Rows.past, hf]
    rfl
  case some c =>
    have hl : ∀ p ∈ c.conds, p.2.field.values.length < fuel :=
      fun p hp => hn.conds _ rfl _ (mem_map_of_mem hp)
    have ⟨c', hc, he, hc', hs, hy'⟩ := c.read_spec t (h.condition c rfl) hl
    refine ⟨rs, some c', hm, by simp [hc], hv, ?_, ⟨h.cur, hy, ?_⟩, ?_⟩
    · rw [evaluate, hs, he]
      rfl
    · rintro _ ⟨⟩
      exact hy'
    · simp only [rows, Rows.past, hf, Option.map_some, hc', he]

theorem Yields.times_ne (h : itr.Yields eof) : ∀ p ∈ itr.rows.times, p.1 ≠ eof := by
  obtain ⟨cur, aux, condition, asc, startTime, endTime⟩ := itr
  intro p hp
  cases cur
  case some cur =>
    have ⟨q, hq, he⟩ := mem_map.mp hp
    exact he ▸ (h.cur cur rfl).2 q hq
  case none =>
    have ⟨t, ht, he⟩ := mem_map.mp hp
    subst he
    simp only [rows, mem_union, map_map, mem_map, exists_exists_and_eq_and] at ht
    have ⟨c, hc, v, hv⟩ := ht
    exact (h.aux c hc).values.2 _ hv

theorem exits_iff : itr.Exits eof t ↔ t = eof ∨ ¬itr.rows.InRange t := by
  rw [Exits, Rows.InRange, rows]
  cases itr.ascending <;> simp

theorem nextLoop_spec (h : itr.Yields eof) (ht : itr.rows.times.length < n)
    (hn : Enough fuel itr.rows) :
    ∃ itr', itr.nextLoop eof fuel n = some (itr.rows.points.head?, itr') ∧ itr'.Yields eof ∧
      itr'.rows.points = itr.rows.points.tail ∧
      itr'.rows.times.length ≤ itr.rows.times.length ∧ Enough fuel itr'.rows := by
  induction n generalizing itr
  case zero => exact absurd ht (Nat.not_lt_zero _)
  case succ n hi =>
    have ⟨itr₁, hs, hy, hr⟩ := seek_spec h
    have hn₁ : Enough fuel itr₁.rows := hr ▸ ⟨hn.aux, hn.conds⟩
    have ho : ∀ main ∈ itr.rows.main, Ordered itr.rows.ascending main := fun m hm => (h.cur m hm).1
    have hl₁ : itr₁.rows.times.length ≤ itr.rows.times.length :=
      hr ▸ Rows.times_tail_suffix.length_le
    have hp₁ (hp : itr.rows.points = []) : itr₁.rows.points = itr.rows.points.tail :=
      hp ▸ hr ▸ Rows.points_tail hp
    rw [nextLoop, hs]
    match hl : itr.rows.times with
    | [] =>
      have hp : itr.rows.points = [] := by rw [Rows.points, hl]; rfl
      refine ⟨itr₁, ?_, hy, hp₁ hp, hl ▸ hl₁, hn₁⟩
      rw [hp]
      exact if_pos (exits_iff.mpr (.inl rfl))
    | (t, v) :: l =>
      have hne : t ≠ eof := h.times_ne (t, v) (hl ▸ mem_cons_self)
      have he : itr₁.Exits eof t ↔ ¬itr.rows.InRange t := by
        rw [exits_iff, hr, or_iff_right hne]
        rfl
      dsimp only [head?_cons, Option.getD_some]
      by_cases hin : itr.rows.InRange t
      case neg =>
        have hp := Rows.points_of_not_inRange ho hl hin
        refine ⟨itr₁, ?_, hy, hp₁ hp, hl ▸ hl₁, hn₁⟩
        rw [if_pos (he.mpr hin), hp]
        rfl
      case pos =>
        have ⟨aux, condition, ha, hc, hv, hs, hy₂, hr₂⟩ := mapM_read t hy hn₁
        rw [hr] at hv hs hr₂
        have hpast : Iterator.rows { itr₁ with aux := aux.map Prod.snd, condition } =
            itr.rows.past t := hr₂
        have hp := Rows.points_eq ho hl
        have hlen : (itr.rows.past t).times.length ≤ l.length := (Rows.times_past ho hl ▸ le_rfl)
        rw [if_neg fun h => he.mp h hin, ha, hc]
        dsimp only [Option.bind_eq_bind, Option.bind_some]
        rw [hs]
        by_cases hsat : itr.rows.satisfied t
        case pos =>
          rw [if_pos ⟨hin, hsat⟩] at hp
          refine ⟨{ itr₁ with aux := aux.map Prod.snd, condition }, ?_, hy₂, ?_, ?_, ?_⟩
          · rw [hp, hv]
            exact if_pos hsat
          · rw [hp, hpast]
            rfl
          · rw [hpast]
            exact hlen.trans (Nat.le_succ _)
          · exact hpast ▸ hn.past
        case neg =>
          rw [if_neg fun h => hsat h.2, nil_append] at hp
          rw [hl, length_cons] at ht
          have ⟨itr', hnext, hy', hp', hl', hn'⟩ :=
            hi hy₂ (hpast ▸ hlen.trans_lt (Nat.lt_of_succ_lt_succ ht)) (hpast ▸ hn.past)
          rw [hpast] at hnext hp' hl'
          refine ⟨itr', ?_, hy', hp ▸ hp', (hl'.trans hlen).trans (Nat.le_succ _), hn'⟩
          rw [hp]
          exact (if_neg hsat).trans hnext

theorem calls_spec (h : itr.Yields eof) (ht : itr.rows.times.length < fuel)
    (hn : Enough fuel itr.rows) (n : Nat) :
    itr.calls eof fuel n = some ((itr.rows.points.map some ++ List.replicate n none).take n) := by
  induction n generalizing itr
  case zero => rfl
  case succ n hi =>
    have ⟨itr', hnext, hy, hp, hl, hn'⟩ := nextLoop_spec h ht hn
    rw [calls, next, hnext, Option.bind_eq_bind, Option.bind_some]
    dsimp only
    rw [hi hy (hl.trans_lt ht) hn', hp]
    cases itr.rows.points
    case nil => simp [replicate_succ]
    case cons p ps => simp [replicate_succ', ← append_assoc]

theorem enough_of_size_le (h : itr.rows.size ≤ fuel) : Enough fuel itr.rows := by
  have hf : ∀ f ∈ itr.rows.fields, f.values.length < fuel := by
    intro f hf
    have := le_sum_of_mem (mem_map_of_mem (f := fun f => f.values.length) hf)
    rw [Rows.size] at h
    omega
  constructor
  · intro f hm
    exact hf f (mem_append_left _ hm)
  · intro c hc p hp
    refine hf p.2 (mem_append_right _ ?_)
    rw [hc]
    exact mem_map_of_mem hp

theorem calls_return_joined (h : itr.Yields eof) (hf : itr.rows.size ≤ fuel) (n : Nat) :
    itr.calls eof fuel n = some ((itr.rows.points.map some ++ List.replicate n none).take n) := by
  refine calls_spec h ?_ (enough_of_size_le hf) n
  rw [Rows.size] at hf
  omega

def descending : Iterator Nat Nat where
  cur := none
  aux := [.buffered ⟨[(30, 3), (10, 1)], none, false⟩, .buffered ⟨[(20, 2)], none, false⟩,
    .literal (some 7)]
  condition := some {
    evalBool m := m.lookup "busy" ≠ some none
    conds := [("busy", .buffered ⟨[(30, 5), (25, 5), (20, 5), (10, 5)], none, false⟩)]
    m := ∅
  }
  ascending := false
  startTime := 20
  endTime := 40

theorem yields_descending : descending.Yields (-1) where
  cur := nofun
  aux := by
    simp only [descending, forall_mem_cons]
    exact ⟨BufCursor.yields_of (by decide), BufCursor.yields_of (by decide), trivial, nofun⟩
  condition := by
    rintro _ ⟨⟩
    constructor
    · simp only [forall_mem_cons]
      exact ⟨BufCursor.yields_of (by decide), nofun⟩
    · exact fun _ h => absurd h Finmap.notMem_empty

theorem calls_return_descending :
    descending.calls (-1) 20 4 = some [some ⟨30, none, [some 3, none, some 7]⟩,
      some ⟨20, none, [none, some 2, some 7]⟩, none, none] := by
  rw [calls_return_joined yields_descending (by decide +kernel)]
  decide +kernel

end Iterator

end Tsm1.Join
