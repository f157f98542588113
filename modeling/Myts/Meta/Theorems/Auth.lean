import Myts.Meta.Auth

open List

namespace Meta.Auth

theorem current_iff_user (hd : Distinct data) :
    Current data name bhash ↔ ∃ u, data.user name = some u ∧ u.hash = bhash := by
  constructor
  · intro ⟨u, hm, hn, hh⟩
    refine ⟨u, ?_, hh⟩
    have ⟨v, hv⟩ := Option.isSome_iff_exists.mp <|
      find?_isSome (p := (·.name = name)) |>.mpr ⟨u, hm, decide_eq_true hn⟩
    have hvn : v.name = name := by simpa using find?_some hv
    rw [Data.user, hv,
      inj_on_of_nodup_map hd (mem_of_find?_eq_some hv) hm (hvn.trans hn.symm)]
  · intro ⟨u, hu, hh⟩
    exact ⟨u, mem_of_find?_eq_some hu, by simpa using find?_some hu, hh⟩

theorem Current.of_user (hu : data.user name = some u) : Current data name u.hash :=
  ⟨u, mem_of_find?_eq_some hu, by simpa using find?_some hu, rfl⟩

def AuthUser.Made (X : Crypto) (au : AuthUser) : Prop :=
  ∃ password, au.hash = hashWithSalt X au.salt password ∧ X.Matches au.bhash password

namespace Client

structure Sound (X : Crypto) (c : Client) : Prop where
  made : ∀ name au, c.authCache.lookup name = some au → au.Made X
  current : ∀ name au, c.authCache.lookup name = some au → Current c.cacheData name au.bhash

theorem Sound.opened : Sound X (opened data) where
  made _ _ h := nomatch h
  current _ _ h := nomatch h

theorem lookup_keepUser (h : (keepUser old new userInfo).lookup name = some au) :
    new.lookup name = some au ∨
    (old.lookup name = some au ∧ userInfo.name = name ∧ userInfo.hash = au.bhash) := by
  unfold keepUser at h
  split at h
  case h_1 => exact .inl h
  case h_2 cached hc =>
    split at h
    case isFalse => exact .inl h
    case isTrue hb =>
      by_cases hn : name = userInfo.name
      · subst hn
        rw [Finmap.lookup_insert] at h
        cases h
        exact .inr ⟨hc, rfl, hb.symm⟩
      · rw [Finmap.lookup_insert_of_ne _ hn] at h
        exact .inl h

theorem lookup_foldl_keepUser {users : List Influx.UserInfo}
    (h : (users.foldl (keepUser old) new).lookup name = some au) :
    new.lookup name = some au ∨
    (old.lookup name = some au ∧ ∃ u ∈ users, u.name = name ∧ u.hash = au.bhash) := by
  induction users generalizing new
  case nil => exact .inl h
  case cons u users hi =>
    rcases hi h with h | ⟨ho, v, hm, hv⟩
    · rcases lookup_keepUser h with h | ⟨ho, hu⟩
      · exact .inl h
      · exact .inr ⟨ho, u, mem_cons_self, hu⟩
    · exact .inr ⟨ho, v, mem_cons_of_mem _ hm, hv⟩

theorem lookup_update (h : (update c data).authCache.lookup name = some au) :
    c.authCache.lookup name = some au ∧ Current data name au.bhash := by
  rcases lookup_foldl_keepUser h with h | h
  · exact nomatch h
  · exact h

theorem Sound.update (h : Sound X c) : Sound X (c.update data) where
  made name au hl := h.made name au (lookup_update hl).left
  current _ _ hl := (lookup_update hl).right

theorem Sound.matches_of_cached (hs : X.Separates) (h : Sound X c)
    (hc : c.Cached X username password) :
    ∃ bhash, Current c.cacheData username bhash ∧ X.Matches bhash password := by
  have ⟨au, hl, hh⟩ := hc
  have ⟨p, hp, hm⟩ := h.made _ _ hl
  cases hs _ _ _ (hh.trans hp)
  exact ⟨au.bhash, h.current _ _ hl, hm⟩

theorem Sound.insert (h : Sound X c) (hu : c.cacheData.user username = some u)
    (hm : X.Matches u.hash password) :
    Sound X { c with
      authCache := c.authCache.insert username
        { salt, hash := hashWithSalt X salt password, bhash := u.hash } } := by
  constructor
  case made =>
    intro name au hl
    by_cases hn : name = username
    · subst hn
      rw [Finmap.lookup_insert] at hl
      cases hl
      exact ⟨password, rfl, hm⟩
    · exact h.made name au <| Finmap.lookup_insert_of_ne _ hn ▸ hl
  case current =>
    intro name au hl
    by_cases hn : name = username
    · subst hn
      rw [Finmap.lookup_insert] at hl
      cases hl
      exact .of_user hu
    · exact h.current name au <| Finmap.lookup_insert_of_ne _ hn ▸ hl

theorem authenticate_cases (X : Crypto) (c : Client) (username password : String) (salt : Salt) :
    (∃ e, c.authenticate X username password salt = (.error e, c)) ∨
    (∃ u, c.authenticate X username password salt = (.ok u, c) ∧
      c.cacheData.user username = some u ∧ c.Cached X username password) ∨
    (∃ u s, c.authenticate X username password salt = (.ok u, { c with
        authCache := c.authCache.insert username
          { salt := s, hash := hashWithSalt X s password, bhash := u.hash } }) ∧
      c.cacheData.user username = some u ∧ X.Matches u.hash password) := by
  rw [authenticate]
  cases hu : c.cacheData.user username
  case none => exact .inl ⟨_, rfl⟩
  case some u =>
    by_cases hc : c.Cached X username password
    · exact .inr <| .inl ⟨u, if_pos hc, rfl, hc⟩
    · by_cases hm : X.Matches u.hash password
      · dsimp only
        rw [if_neg hc, if_neg (not_not.mpr hm)]
        cases salt
        case error e => exact .inl ⟨_, rfl⟩
        case ok s => exact .inr <| .inr ⟨u, s, rfl, rfl, hm⟩
      · exact .inl ⟨_, (if_neg hc).trans (if_pos hm)⟩

theorem Sound.step (h : Sound X c) : Sound X (c.step X e) := by
  cases e
  case update data => exact h.update
  case authenticate username password salt =>
    rw [Client.step]
    rcases authenticate_cases X c username password salt with
      ⟨e, he⟩ | ⟨u, he, _⟩ | ⟨u, s, he, hu, hm⟩
    · rwa [he]
    · rwa [he]
    · rw [he]
      exact h.insert hu hm

theorem Reachable.sound (h : Reachable X c) : Sound X c := by
  have ⟨_, hr⟩ := h
  exact hr.invariant .opened fun hi _ => hi.step

theorem Sound.authenticate (hs : X.Separates) (h : Sound X c)
    (ha : c.authenticate X username password salt = (.ok u, c')) :
    c.cacheData.user username = some u ∧
    ∃ bhash, Current c.cacheData username bhash ∧ X.Matches bhash password := by
  rcases authenticate_cases X c username password salt with
    ⟨e, he⟩ | ⟨v, he, hu, hc⟩ | ⟨v, s, he, hu, hm⟩
  · cases he.symm.trans ha
  · cases he.symm.trans ha
    exact ⟨hu, h.matches_of_cached hs hc⟩
  · cases he.symm.trans ha
    exact ⟨hu, u.hash, .of_user hu, hm⟩

theorem authCache_sound (hs : X.Separates) (h : Reachable X c) :
    (∀ name au, c.authCache.lookup name = some au →
      Current c.cacheData name au.bhash ∧
      (Distinct c.cacheData → ∃ u, c.cacheData.user name = some u ∧ u.hash = au.bhash)) ∧
    ∀ username password salt u c', c.authenticate X username password salt = (.ok u, c') →
      c.cacheData.user username = some u ∧
      (∃ bhash, Current c.cacheData username bhash ∧ X.Matches bhash password) ∧
      (Distinct c.cacheData → X.Matches u.hash password) := by
  constructor
  · intro name au hl
    have hc := h.sound.current name au hl
    exact ⟨hc, fun hd => (current_iff_user hd).mp hc⟩
  · intro username password salt u c' ha
    have ⟨hu, bhash, hc, hm⟩ := h.sound.authenticate hs ha
    refine ⟨hu, ⟨bhash, hc, hm⟩, fun hd => ?_⟩
    have ⟨v, hv, hh⟩ := (current_iff_user hd).mp hc
    cases hu.symm.trans hv
    exact hh ▸ hm

def plain : Crypto where
  compareHashAndPassword bhash password := if bhash = password then none else some "mismatch"
  sum256 := id

theorem plain_separates : plain.Separates := by
  intro salt p q h
  have hb : p.toUTF8.data.toList = q.toUTF8.data.toList := append_cancel_left h
  exact String.toByteArray_inj.mp <| ByteArray.ext <| Array.toList_inj.mp hb

def oneUser (bhash : String) : Data :=
  { Data.empty with
    data := { Data.empty.data with users := [⟨"u", bhash, true, ∅⟩] } }

def letIn : Client :=
  [.authenticate "u" "q" (.ok [1]), .update (oneUser "p"), .authenticate "u" "p" (.ok [2])].foldl
    (step plain) (opened (oneUser "q"))

theorem authCache_sound_changed :
    letIn.authCache.lookup "u" = some ⟨"p", [2], [2, 112]⟩ ∧ Current letIn.cacheData "u" "p" ∧
    (∀ salt u c', letIn.authenticate plain "u" "q" salt ≠ (.ok u, c')) := by
  have hr : Reachable plain letIn := ⟨oneUser "q", Run.foldl <| by simp [Run.All]⟩
  obtain ⟨hc, ha⟩ := authCache_sound plain_separates hr
  have hl : letIn.authCache.lookup "u" = some ⟨"p", [2], [2, 112]⟩ := by decide +kernel
  refine ⟨hl, (hc _ _ hl).left, fun salt u c' h => ?_⟩
  obtain ⟨hu, _, hm⟩ := ha _ _ _ _ _ h
  have hq : letIn.cacheData.user "u" = some ⟨"u", "p", true, ∅⟩ := by decide +kernel
  cases hu.symm.trans hq
  exact absurd (hm (by decide +kernel)) (by decide +kernel)

end Client
end Meta.Auth
