import AchProofs.Keys.Reaper

namespace AchProofs.Keys.Reaper

open Foundation

/-- A row is inserted within the age floor of its LiteLLM key, under the key id that is in the key's
metadata; and no key of a row that was inserted after a pass read the managed set is past the floor
when that pass reads the clock. -/
def Careful (s : RState) : RAct → Prop
  | .keys (.go i answer _) => ∀ m token created retried, s.keys.mints[i]? = some m →
      m.stage = .insert token created retried → answer ≠ .fail →
      s.keys.now ≤ created + orphanAgeFloor ∧ keyTaken s.keys m = false
  | .go _ => ∀ userIDs achKeySet listed, s.tick = .clock userIDs achKeySet listed →
      ∀ r ∈ s.keys.rows.drop listed, ∀ k, s.keys.born r.litellmToken = some k →
        s.keys.now ≤ k.createdAt + orphanAgeFloor
  | _ => True

section KeySteps

variable {cfg : Config} {s s' : State}

/-- A row keeps its token and its key id, and is live only if it was. -/
structure Remains (r r' : Row) : Prop where
  token : r'.litellmToken = r.litellmToken
  key : r'.key = r.key
  live : r'.live = true → r.live = true

/-- Where the rows after a step come from: the rows of before in their places, then those of an
`INSERT`. -/
structure Follows (s s' : State) (new : Row → Prop) : Prop where
  now : s.now ≤ s'.now
  born : ∀ token k, s.born token = some k → s'.born token = some k
  litellm : ∀ k ∈ s'.litellm, k ∈ s.litellm ∨ s'.born k.token = some k
  rows : ∃ f added, (∀ r, Remains r (f r)) ∧ (∀ r ∈ added, new r) ∧ s'.rows = s.rows.map f ++ added

def Inserts (s : State) (act : Act) (r : Row) : Prop :=
  ∃ i answer fresh m token created retried, act = .go i answer fresh ∧ s.mints[i]? = some m
    ∧ m.stage = .insert token created retried ∧ answer ≠ .fail ∧ keyTaken s m = false
    ∧ r = m.row token

variable {new : Row → Prop} {k : LiteKey} {token fresh i : ℕ} {answer : Answer} {m : Mint}

theorem follows_same (hnow : s.now ≤ s'.now)
    (hborn : ∀ token k, s.born token = some k → s'.born token = some k)
    (hlite : ∀ k ∈ s'.litellm, k ∈ s.litellm ∨ s'.born k.token = some k)
    (hrows : s'.rows = s.rows) :
    Follows s s' new :=
  ⟨hnow, hborn, hlite, id, [], fun _ => ⟨rfl, rfl, id⟩, nofun, by simp [hrows]⟩

theorem Follows.mem_rows (h : Follows s s' new) {r' : Row} (hr' : r' ∈ s'.rows) :
    (∃ r ∈ s.rows, Remains r r') ∨ new r' := by
  obtain ⟨f, added, hf, hadded, hrows⟩ := h.rows
  rw [hrows] at hr'
  obtain hr' | hr' := List.mem_append.mp hr'
  · obtain ⟨r, hr, rfl⟩ := List.mem_map.mp hr'
    exact .inl ⟨r, hr, hf r⟩
  · exact .inr (hadded r' hr')

/-- An `INSERT` does not move the rows that were there. -/
theorem Follows.mem_take (h : Follows s s' new) {n : ℕ} (hn : n ≤ s.rows.length) {r' : Row}
    (hr' : r' ∈ s'.rows.take n) : ∃ r ∈ s.rows.take n, Remains r r' := by
  obtain ⟨f, added, hf, -, hrows⟩ := h.rows
  rw [hrows, List.take_append_of_le_length (by rwa [List.length_map]), ← List.map_take] at hr'
  obtain ⟨r, hr, rfl⟩ := List.mem_map.mp hr'
  exact ⟨r, hr, hf r⟩

theorem Follows.length_le (h : Follows s s' new) : s.rows.length ≤ s'.rows.length := by
  obtain ⟨f, added, -, -, hrows⟩ := h.rows
  simp [hrows]

theorem born_addKey (hnew : (s.born k.token).isSome = false) {k' : LiteKey}
    (h : s.born token = some k') : (s.addKey k).born token = some k' := by
  show Function.update s.born k.token (some k) token = some k'
  rw [Function.update_of_ne, h]
  rintro rfl
  rw [h] at hnew
  cases hnew

theorem follows_addKey (hnew : (s.born k.token).isSome = false) : Follows s (s.addKey k) new := by
  refine follows_same (Nat.le_refl _) (fun _ _ h => born_addKey hnew h) (fun k' hk' => ?_) rfl
  obtain hk' | hk' := List.mem_append.mp hk'
  · exact .inl hk'
  · rw [List.mem_singleton.mp hk']
    exact .inr (Function.update_self ..)

theorem follows_mapRows {f : Row → Row} (hf : ∀ r, Remains r (f r)) : Follows s (s.mapRows f) new :=
  ⟨Nat.le_refl _, fun _ _ h => h, fun _ h => .inl h, f, [], hf, nofun, (List.append_nil _).symm⟩

theorem live_with_status {r : Row} {status : Status} (h : status ≠ .revoked → r.status ≠ .revoked) :
    Row.live { r with status := status } = true → r.live = true := by
  simp only [Row.live, decide_eq_true_eq]
  exact h

/-- The LiteLLM key a mint has in hand, with its creation time. -/
def inHand : Stage → Option (ℕ × ℕ)
  | .sealing token created => some (token, created)
  | .insert token created _ => some (token, created)
  | _ => none

/-- The key a mint has in hand was in its hands before, or is a new one with the mint's key id. -/
def Held (s s' : State) (m' : Mint) : Prop :=
  ∀ token created, inHand m'.stage = some (token, created) →
    (∃ m ∈ s.mints, m.key = m'.key ∧ inHand m.stage = some (token, created)) ∨
      ∃ k, s'.born token = some k ∧ k.createdAt = created ∧ k.achKeyID = some m'.key

/-- No row has the key id that a mint inserts its own under. -/
def Free (s : State) : Act → Prop
  | .go i answer _ => ∀ m token created retried, s.mints[i]? = some m →
      m.stage = .insert token created retried → answer ≠ .fail → keyTaken s m = false
  | _ => True

/-- Where the rows and the keys in hand after a step come from. -/
structure Moves (s s' : State) (act : Act) : Prop extends Follows s s' (Inserts s act) where
  mints : Free s act → ∀ m ∈ s'.mints, Held s s' m

theorem held_of_mem (hm : m ∈ s.mints) : Held s s' m :=
  fun _ _ hin => .inl ⟨m, hm, rfl, hin⟩

theorem held_none (h : inHand m.stage = none) : Held s s' m := by
  intro token created hin
  rw [h] at hin
  cases hin

theorem Follows.setMint {act : Act} (hf : Follows s s' (Inserts s act))
    (hmints : s'.mints = s.mints)
    (h : Free s act → Held s s' m) : Moves s (s'.setMint i m) act := by
  refine ⟨⟨hf.now, hf.born, hf.litellm, hf.rows⟩, fun hfree n hn => ?_⟩
  obtain hn | rfl := List.mem_or_eq_of_mem_set hn
  · exact held_of_mem (hmints ▸ hn)
  · exact h hfree

theorem insertStep_moves {created : ℕ} {retried : Bool} (hm : s.mints[i]? = some m)
    (hst : m.stage = .insert token created retried) :
    Moves s (insertStep s i m token created retried answer fresh) (.go i answer fresh) := by
  have hsame : Follows s s (Inserts s (.go i answer fresh)) :=
    follows_same (Nat.le_refl _) (fun _ _ h => h) (fun _ h => .inl h) rfl
  have hrow : answer ≠ .fail → keyTaken s m = false →
      Follows s (s.addRow (m.row token)) (Inserts s (.go i answer fresh)) := by
    intro hans htaken
    refine ⟨Nat.le_refl _, fun _ _ h => h, fun _ h => .inl h, id, [m.row token],
      fun _ => ⟨rfl, rfl, id⟩, fun r hr => ?_, by rw [List.map_id]; rfl⟩
    exact ⟨i, answer, fresh, m, token, created, retried, rfl, hm, hst, hans, htaken,
      List.mem_singleton.mp hr⟩
  unfold insertStep
  split
  · exact hsame.setMint rfl fun _ => held_none rfl
  · rename_i hans
    split_ifs with htaken
    · refine hsame.setMint rfl fun hfree => ?_
      rw [hfree m token created retried hm hst hans] at htaken
      cases htaken
    · exact hsame.setMint rfl fun _ => held_none rfl
    · exact hsame.setMint rfl fun _ => held_none rfl
    · exact (hrow hans (Bool.eq_false_iff.mpr htaken)).setMint rfl fun _ => held_none rfl
    · exact (hrow hans (Bool.eq_false_iff.mpr htaken)).setMint rfl fun _ => held_none rfl

theorem mintStep_moves (hm : s.mints[i]? = some m) (h : mintStep cfg s i m answer fresh = some s') :
    Moves s s' (.go i answer fresh) := by
  have hsame : Follows s s (Inserts s (.go i answer fresh)) :=
    follows_same (Nat.le_refl _) (fun _ _ h => h) (fun _ h => .inl h) rfl
  unfold mintStep at h
  cases hst : m.stage with
  | gate | prepare =>
    simp only [hst] at h
    split_ifs at h <;> cases h <;> exact hsame.setMint rfl fun _ => held_none rfl
  | sealing token created =>
    simp only [hst] at h
    split_ifs at h
    · cases h
      refine hsame.setMint rfl fun _ _ _ hin => .inl ⟨m, List.mem_of_getElem? hm, rfl, ?_⟩
      rw [hst]
      exact hin
    · cases h
      exact hsame.setMint rfl fun _ => held_none rfl
  | compensate token =>
    simp only [hst] at h
    split_ifs at h
    · cases h
      exact hsame.setMint rfl fun _ => held_none rfl
    · cases h
      have hgone : Follows s (s.removeKey token) (Inserts s (.go i answer fresh)) :=
        follows_same (Nat.le_refl _) (fun _ _ h => h) (fun _ h => .inl (List.mem_of_mem_filter h))
          rfl
      exact hgone.setMint rfl fun _ => held_none rfl
  | generate =>
    have hadd : ¬ (s.born fresh).isSome = true →
        Follows s (s.addKey (m.liteKey cfg s.now fresh)) (Inserts s (.go i answer fresh)) :=
      fun hb => follows_addKey (Bool.eq_false_iff.mpr hb)
    simp only [hst, generateStep] at h
    split at h
    · cases h
      exact hsame.setMint rfl fun _ => held_none rfl
    all_goals
      split_ifs at h with hb
      cases h
    · refine (hadd hb).setMint rfl fun _ _ _ hin => ?_
      cases hin
      exact .inr ⟨m.liteKey cfg s.now fresh, Function.update_self .., rfl, rfl⟩
    · exact (hadd hb).setMint rfl fun _ => held_none rfl
  | insert token created retried =>
    simp only [hst] at h
    cases h
    exact insertStep_moves hm hst
  | _ =>
    simp only [hst] at h
    cases h

theorem step_moves {act : Act} (h : Keys.step cfg s act = some s') : Moves s s' act := by
  cases act with
  | wait d =>
    cases h
    exact ⟨follows_same (Nat.le_add_right _ _) (fun _ _ h => h) (fun _ h => .inl h) rfl,
      fun _ _ => held_of_mem⟩
  | begin kind owner environment userID keyID =>
    cases h
    refine ⟨follows_same (Nat.le_refl _) (fun _ _ h => h) (fun _ h => .inl h) rfl, fun _ m hm => ?_⟩
    obtain hm | hm := List.mem_append.mp hm
    · exact held_of_mem hm
    · rw [List.mem_singleton.mp hm]
      exact held_none (by cases kind <;> rfl)
  | go i answer fresh =>
    obtain ⟨m, hm, h⟩ := Option.bind_eq_some_iff.mp h
    exact mintStep_moves hm h
  | flip key op =>
    cases h
    refine ⟨follows_mapRows fun r => ?_, fun _ _ => held_of_mem⟩
    split_ifs
    · exact ⟨rfl, rfl, live_with_status Flip.apply_ne_revoked⟩
    · exact ⟨rfl, rfl, id⟩
  | drain environment =>
    cases h
    refine ⟨follows_mapRows fun r => ?_, fun _ _ => held_of_mem⟩
    split_ifs
    · exact ⟨rfl, rfl, live_with_status (fun h => absurd rfl h)⟩
    · exact ⟨rfl, rfl, id⟩
  | remove token =>
    cases h
    exact ⟨follows_same (Nat.le_refl _) (fun _ _ h => h)
      (fun _ h => .inl (List.mem_of_mem_filter h)) rfl, fun _ _ => held_of_mem⟩
  | foreign key =>
    simp only [Keys.step] at h
    split_ifs at h with hb
    cases h
    exact ⟨follows_addKey (Bool.eq_false_iff.mpr hb), fun _ _ => held_of_mem⟩

/-- Every key in LiteLLM is the one that was created with its token. -/
def LiteInv (s : State) : Prop := ∀ k ∈ s.litellm, s.born k.token = some k

theorem LiteInv.follows (hs : LiteInv s) (hf : Follows s s' new) : LiteInv s' := by
  intro k hk
  obtain hk | hk := hf.litellm k hk
  · exact hf.born _ k (hs k hk)
  · exact hk

theorem LiteInv.removeKey (hs : LiteInv s) (token : ℕ) : LiteInv (s.removeKey token) :=
  fun k hk => hs k (List.mem_of_mem_filter hk)

/-- The LiteLLM key of a row or a mint carries that row's or mint's key id. -/
structure KeyInv (s : State) : Prop where
  rows : ∀ r ∈ s.rows, ∃ k, s.born r.litellmToken = some k ∧ k.achKeyID = some r.key
  mints : ∀ m ∈ s.mints, ∀ token created, inHand m.stage = some (token, created) →
    ∃ k, s.born token = some k ∧ k.createdAt = created ∧ k.achKeyID = some m.key

theorem KeyInv.removeKey (hs : KeyInv s) (token : ℕ) : KeyInv (s.removeKey token) :=
  ⟨hs.rows, hs.mints⟩

theorem KeyInv.moves (hs : KeyInv s) {act : Act} (hfree : Free s act) (h : Moves s s' act) :
    KeyInv s' := by
  refine ⟨fun r' hr' => ?_, fun m' hm' token created hin => ?_⟩
  · obtain ⟨r, hr, htok, hkey, -⟩ | hr := h.mem_rows hr'
    · obtain ⟨k, hk, hid⟩ := hs.rows r hr
      exact ⟨k, htok ▸ h.born _ k hk, hkey ▸ hid⟩
    · obtain ⟨i, answer, fresh, m, token, created, retried, -, hm, hst, -, -, rfl⟩ := hr
      obtain ⟨k, hk, -, hid⟩ :=
        hs.mints m (List.mem_of_getElem? hm) token created (by rw [hst]; rfl)
      exact ⟨k, h.born _ k hk, hid⟩
  · obtain ⟨m, hm, hkey, hin⟩ | hnew := h.mints hfree m' hm' token created hin
    · obtain ⟨k, hk, hcreated, hid⟩ := hs.mints m hm token created hin
      exact ⟨k, h.born _ k hk, hcreated, hkey ▸ hid⟩
    · exact hnew

end KeySteps

section Ticks

variable {cfg : ReaperConfig} {s s' : RState}

/-- A candidate that no row can be live for any more. -/
def Dead (s : State) (c : OrphanCandidate) : Prop :=
  (∃ k, s.born c.token = some k ∧ k.createdAt + orphanAgeFloor < s.now)
    ∧ ∀ r ∈ s.rows, r.litellmToken = c.token → r.live = false

/-- The managed set holds every live row among the first ones, those there were when it was read. -/
def Complete (s : State) (achKeySet : List (Table × ℕ)) (listed : ℕ) : Prop :=
  listed ≤ s.rows.length ∧ ∀ r ∈ s.rows.take listed, r.live = true → r.key ∈ achKeySet

/-- Every live row that the pass has not in its managed set has a key too young for it. -/
def Young (s : State) (achKeySet : List (Table × ℕ)) (now : ℕ) : Prop :=
  ∀ r ∈ s.rows, r.live = true → r.key ∉ achKeySet →
    ∀ k, s.born r.litellmToken = some k → now ≤ k.createdAt + orphanAgeFloor

def TickOk (s : State) : Tick → Prop
  | .clock _ achKeySet listed => Complete s achKeySet listed
  | .scan _ achKeySet now candidates => now ≤ s.now ∧ Young s achKeySet now
      ∧ ∀ c ∈ candidates, Dead s c
  | .revoke _ candidates => ∀ c ∈ candidates, Dead s c
  | _ => True

variable {keys keys' : State} {c : OrphanCandidate} {new : Row → Prop}
  {achKeySet : List (Table × ℕ)}

theorem free_of_careful {act : Act} (hok : Careful s (.keys act)) : Free s.keys act := by
  cases act with
  | go i answer fresh => exact fun m token created retried hm hst hans =>
      (hok m token created retried hm hst hans).2
  | wait | begin | flip | drain | remove | foreign => trivial

theorem inserted_young (hinv : KeyInv s.keys) {act : Act} (hok : Careful s (.keys act)) {r : Row}
    (hr : Inserts s.keys act r) :
    ∃ k, s.keys.born r.litellmToken = some k ∧ s.keys.now ≤ k.createdAt + orphanAgeFloor := by
  obtain ⟨i, answer, fresh, m, token, created, retried, rfl, hm, hst, hans, -, rfl⟩ := hr
  obtain ⟨hnow, -⟩ := hok m token created retried hm hst hans
  obtain ⟨k, hk, hcreated, -⟩ := hinv.mints m (List.mem_of_getElem? hm) token created
    (by rw [hst]; rfl)
  exact ⟨k, hk, hcreated ▸ hnow⟩

theorem Dead.follows (h : Dead keys c) (hf : Follows keys keys' new)
    (hnew : ∀ r, new r → ∃ k, keys.born r.litellmToken = some k
      ∧ keys.now ≤ k.createdAt + orphanAgeFloor) : Dead keys' c := by
  obtain ⟨⟨k, hk, hold⟩, hrows⟩ := h
  refine ⟨⟨k, hf.born _ k hk, Nat.lt_of_lt_of_le hold hf.now⟩, fun r' hr' htok => ?_⟩
  obtain ⟨r, hr, hsame, -, hlive⟩ | hr := hf.mem_rows hr'
  · have hdead := hrows r hr (hsame.symm.trans htok)
    by_contra hl
    rw [hlive (by simpa using hl)] at hdead
    cases hdead
  · obtain ⟨k', hk', hyoung⟩ := hnew r' hr
    rw [htok, hk] at hk'
    cases hk'
    omega

theorem complete_listManaged (rows : List Row) :
    ∀ r ∈ rows, r.live = true → r.key ∈ listManaged rows :=
  fun _ hr hlive => List.mem_dedup.mpr
    (List.mem_map_of_mem (List.mem_filter.mpr ⟨hr, hlive⟩))

theorem Complete.follows {listed : ℕ} (h : Complete keys achKeySet listed)
    (hf : Follows keys keys' new) : Complete keys' achKeySet listed := by
  refine ⟨Nat.le_trans h.1 hf.length_le, fun r' hr' hlive' => ?_⟩
  obtain ⟨r, hr, -, hkey, hlive⟩ := hf.mem_take h.1 hr'
  rw [hkey]
  exact h.2 r hr (hlive hlive')

/-- A row that the managed set lacks was inserted after it was read. -/
theorem Complete.young {listed now : ℕ} (h : Complete keys achKeySet listed)
    (hnew : ∀ r ∈ keys.rows.drop listed, ∀ k, keys.born r.litellmToken = some k →
      now ≤ k.createdAt + orphanAgeFloor) : Young keys achKeySet now := by
  intro r hr hlive hkey
  rw [← List.take_append_drop listed keys.rows] at hr
  obtain hr | hr := List.mem_append.mp hr
  · exact absurd (h.2 r hr hlive) hkey
  · exact hnew r hr

theorem TickOk.follows {t : Tick} (hinv : KeyInv keys) (h : TickOk keys t)
    (hf : Follows keys keys' new)
    (hnew : ∀ r, new r → ∃ k, keys.born r.litellmToken = some k
      ∧ keys.now ≤ k.createdAt + orphanAgeFloor) : TickOk keys' t := by
  cases t with
  | clock userIDs achKeySet listed => exact Complete.follows h hf
  | scan userIDs achKeySet now candidates =>
    obtain ⟨hnow, hyoung, hdead⟩ := h
    refine ⟨Nat.le_trans hnow hf.now, fun r' hr' hlive' hkey k hk => ?_,
      fun c hc => (hdead c hc).follows hf hnew⟩
    obtain ⟨r, hr, htok, hsame, hlive⟩ | hr := hf.mem_rows hr'
    · obtain ⟨k', hk', -⟩ := hinv.rows r hr
      have hborn := hf.born _ k' hk'
      rw [← htok, hk] at hborn
      cases hborn
      exact hyoung r hr (hlive hlive') (hsame ▸ hkey) k hk'
    · obtain ⟨k', hk', hle⟩ := hnew r' hr
      have hborn := hf.born _ k' hk'
      rw [hk] at hborn
      cases hborn
      exact Nat.le_trans hnow hle
  | revoke achKeySet candidates => exact fun c hc => (h c hc).follows hf hnew
  | idle | listUsers | listKeyIDs userIDs => trivial

theorem of_candidateOf {now uid : ℕ} {k : LiteKey}
    (h : candidateOf cfg achKeySet now uid k = some c) :
    k.createdAt + orphanAgeFloor < now ∧ k.achKeyID = some c.achID
      ∧ k.achIssuer = some cfg.issuer ∧ c.achID ∉ achKeySet ∧ c.token = k.token := by
  unfold candidateOf at h
  by_cases hold : k.createdAt + orphanAgeFloor < now
  · rw [if_pos hold] at h
    cases hid : k.achKeyID with
    | none =>
      rw [hid] at h
      cases h
    | some achID =>
      simp only [hid] at h
      split_ifs at h with hissuer hin
      cases h
      exact ⟨hold, rfl, not_not.mp hissuer, hin, rfl⟩
  · rw [if_neg hold] at h
    cases h

/-- A key that the scan picks is past the floor and its row, if it has one, is revoked. -/
theorem dead_of_candidate (hinv : KeyInv keys) (hlite : LiteInv keys) {now uid : ℕ}
    (hnow : now ≤ keys.now) (hyoung : Young keys achKeySet now) {k : LiteKey}
    (hk : k ∈ keys.litellm) (hc : candidateOf cfg achKeySet now uid k = some c) : Dead keys c := by
  obtain ⟨hold, hid, -, hin, htoken⟩ := of_candidateOf hc
  have hborn : keys.born c.token = some k := htoken ▸ hlite k hk
  refine ⟨⟨k, hborn, Nat.lt_of_lt_of_le hold hnow⟩, fun r hr htok => ?_⟩
  obtain ⟨k', hk', hid'⟩ := hinv.rows r hr
  rw [htok, hborn] at hk'
  cases hk'
  have hkey : r.key ∉ achKeySet := by
    rw [← Option.some.inj (hid.symm.trans hid')]
    exact hin
  by_contra hlive
  have hle := hyoung r hr (by simpa using hlive) hkey k (htok ▸ hborn)
  omega

/-- What holds in every state of a careful run. -/
structure SafeInv (s : RState) : Prop where
  keys : KeyInv s.keys
  litellm : LiteInv s.keys
  tick : TickOk s.keys s.tick
  calls : ∀ call ∈ s.calls, call.live = false

theorem SafeInv.step (hs : SafeInv s) {act : RAct} (hok : Careful s act)
    (h : step cfg s act = some s') : SafeInv s' := by
  cases act with
  | keys act =>
    obtain ⟨keys', hkeys, rfl⟩ := Option.map_eq_some_iff.mp h
    have hmoves := step_moves hkeys
    exact ⟨hs.keys.moves (free_of_careful hok) hmoves, hs.litellm.follows hmoves.toFollows,
      TickOk.follows hs.keys hs.tick hmoves.toFollows (fun r => inserted_young hs.keys hok),
      hs.calls⟩
  | tick =>
    simp only [Reaper.step] at h
    split at h
    · cases h
      exact ⟨hs.keys, hs.litellm, trivial, hs.calls⟩
    · cases h
  | go answer =>
    have htick := hs.tick
    simp only [Reaper.step, goStep] at h
    split at h
    · cases h
    · split_ifs at h
      · cases h
        exact ⟨hs.keys, hs.litellm, trivial, hs.calls⟩
      · split at h <;> cases h <;> exact ⟨hs.keys, hs.litellm, trivial, hs.calls⟩
    · split_ifs at h
      · cases h
        exact ⟨hs.keys, hs.litellm, trivial, hs.calls⟩
      · cases h
        refine ⟨hs.keys, hs.litellm, ⟨Nat.le_refl _, ?_⟩, hs.calls⟩
        rw [List.take_length]
        exact complete_listManaged s.keys.rows
    · rename_i userIDs achKeySet listed hst
      cases h
      rw [hst] at htick
      have hyoung := Complete.young htick (hok userIDs achKeySet listed hst)
      exact ⟨hs.keys, hs.litellm, ⟨Nat.le_refl _, hyoung, nofun⟩, hs.calls⟩
    · rename_i achKeySet now candidates hst
      cases h
      rw [hst] at htick
      refine ⟨hs.keys, hs.litellm, ?_, hs.calls⟩
      show TickOk s.keys (afterScan cfg achKeySet candidates)
      unfold afterScan
      split_ifs
      · trivial
      · trivial
      · trivial
      · trivial
      · exact htick.2.2
    · rename_i uid userIDs achKeySet now candidates hst
      rw [hst] at htick
      obtain ⟨hnow, hyoung, hdead⟩ := htick
      split_ifs at h
      · cases h
        exact ⟨hs.keys, hs.litellm, trivial, hs.calls⟩
      · cases h
        refine ⟨hs.keys, hs.litellm, ⟨hnow, hyoung, fun c hc => ?_⟩, hs.calls⟩
        obtain hc | hc := List.mem_append.mp hc
        · exact hdead c hc
        · obtain ⟨k, hk, hc⟩ := List.mem_filterMap.mp hc
          exact dead_of_candidate hs.keys hs.litellm hnow hyoung (List.mem_of_mem_filter hk) hc
    · cases h
      exact ⟨hs.keys, hs.litellm, trivial, hs.calls⟩
    · rename_i achKeySet c candidates hst
      cases h
      rw [hst] at htick
      have hcand : ∀ d ∈ c :: candidates, Dead s.keys d := htick
      refine ⟨?_, ?_, fun d hd => ?_, fun call hcall => ?_⟩
      · show KeyInv (if answer = .fail then s.keys else s.keys.removeKey c.token)
        split_ifs
        · exact hs.keys
        · exact hs.keys.removeKey c.token
      · show LiteInv (if answer = .fail then s.keys else s.keys.removeKey c.token)
        split_ifs
        · exact hs.litellm
        · exact hs.litellm.removeKey c.token
      · have hd := hcand d (List.mem_cons_of_mem _ hd)
        show Dead (if answer = .fail then s.keys else s.keys.removeKey c.token) d
        split_ifs
        · exact hd
        · exact hd
      · obtain rfl | hcall := List.mem_cons.mp hcall
        · show liveToken s.keys c.token = false
          rw [liveToken, List.any_eq_false]
          intro r hr hlive
          have hlive : r.litellmToken = c.token ∧ r.live = true := by simpa using hlive
          rw [(hcand c List.mem_cons_self).2 r hr hlive.1] at hlive
          exact Bool.false_ne_true hlive.2
        · exact hs.calls call hcall

def tally (s : RState) (n : ℕ) : ℕ := s.calls.countP (fun call => call.tick = n)

def Owned (cfg : ReaperConfig) (s : State) (c : OrphanCandidate) : Prop :=
  ∃ k, s.born c.token = some k ∧ k.achKeyID = some c.achID ∧ k.achIssuer = some cfg.issuer

/-- A pass revokes nothing before its guards, and after them no more than the cap. -/
def Guarded (cfg : ReaperConfig) (s : RState) : Tick → Prop
  | .idle => True
  | .scan _ _ _ candidates => s.ticks ∉ s.failed ∧ tally s s.ticks = 0
      ∧ ∀ c ∈ candidates, Owned cfg s.keys c
  | .revoke achKeySet candidates => s.ticks ∉ s.failed ∧ achKeySet ≠ [] ∧ cfg.dryRun = false
      ∧ tally s s.ticks + candidates.length ≤ cfg.cap ∧ ∀ c ∈ candidates, Owned cfg s.keys c
  | _ => s.ticks ∉ s.failed ∧ tally s s.ticks = 0

/-- What every `RevokeKey` of the reaper meets, whatever happens. -/
structure Proper (cfg : ReaperConfig) (s : RState) (call : RevokeCall) : Prop where
  keyID : call.achKeyID.isSome = true
  issuer : call.achIssuer = some cfg.issuer
  managed : 0 < call.managed
  unfailed : call.tick ∉ s.failed
  wet : cfg.dryRun = false

structure GuardInv (cfg : ReaperConfig) (s : RState) : Prop where
  litellm : LiteInv s.keys
  tick : Guarded cfg s s.tick
  failed : ∀ n ∈ s.failed, n ≤ s.ticks
  recent : ∀ call ∈ s.calls, call.tick ≤ s.ticks
  proper : ∀ call ∈ s.calls, Proper cfg s call
  cap : ∀ n, tally s n ≤ cfg.cap

theorem Owned.follows (h : Owned cfg keys c) (hf : Follows keys keys' new) : Owned cfg keys' c := by
  obtain ⟨k, hk, hid⟩ := h
  exact ⟨k, hf.born _ k hk, hid⟩

theorem tally_zero {n : ℕ} (h : ∀ call ∈ s.calls, call.tick ≠ n) : tally s n = 0 := by
  refine List.countP_eq_zero.mpr (fun call hcall => ?_)
  simpa using h call hcall

theorem ne_of_tally_zero {n : ℕ} (h : tally s n = 0) {call : RevokeCall} (hcall : call ∈ s.calls) :
    call.tick ≠ n := by
  simpa using List.countP_eq_zero.mp h call hcall

theorem GuardInv.abort (hs : GuardInv cfg s) (h : tally s s.ticks = 0) :
    GuardInv cfg (abort s) := by
  refine ⟨hs.litellm, trivial, fun n hn => ?_, hs.recent, fun call hcall => ?_, hs.cap⟩
  · obtain rfl | hn := List.mem_cons.mp hn
    · exact Nat.le_refl _
    · exact hs.failed n hn
  · obtain ⟨hid, hissuer, hmanaged, hun, hwet⟩ := hs.proper call hcall
    refine ⟨hid, hissuer, hmanaged, fun hmem => ?_, hwet⟩
    obtain hmem | hmem := List.mem_cons.mp hmem
    · exact ne_of_tally_zero h hcall hmem
    · exact hun hmem

theorem GuardInv.turn (hs : GuardInv cfg s) {t : Tick} (ht : Guarded cfg s t) :
    GuardInv cfg { s with tick := t } := by
  refine ⟨hs.litellm, ?_, hs.failed, hs.recent, fun call hcall => ?_, hs.cap⟩
  · cases t <;> exact ht
  · obtain ⟨hid, hissuer, hmanaged, hun, hwet⟩ := hs.proper call hcall
    exact ⟨hid, hissuer, hmanaged, hun, hwet⟩

theorem guarded_afterScan {candidates : List OrphanCandidate} (hun : s.ticks ∉ s.failed)
    (hzero : tally s s.ticks = 0) (howned : ∀ c ∈ candidates, Owned cfg s.keys c) :
    Guarded cfg s (afterScan cfg achKeySet candidates) := by
  unfold afterScan
  split_ifs with _ hempty hcap hdry
  · trivial
  · trivial
  · trivial
  · trivial
  · refine ⟨hun, hempty, Bool.eq_false_iff.mpr hdry, ?_, howned⟩
    omega

theorem GuardInv.revoke (hs : GuardInv cfg s) {candidates : List OrphanCandidate}
    (hst : s.tick = .revoke achKeySet (c :: candidates)) (answer : Answer) :
    GuardInv cfg { s with
      tick := .revoke achKeySet candidates
      calls := revokeCall s achKeySet c :: s.calls
      keys := if answer = .fail then s.keys else s.keys.removeKey c.token } := by
  have htick := hs.tick
  rw [hst] at htick
  obtain ⟨hun, hempty, hwet, hcap, howned⟩ := htick
  have hborn :
      (if answer = .fail then s.keys else s.keys.removeKey c.token).born = s.keys.born := by
    split_ifs <;> rfl
  have hcount : ∀ n, (revokeCall s achKeySet c :: s.calls).countP (fun call => call.tick = n)
      = tally s n + (if s.ticks = n then 1 else 0) := by
    intro n
    rw [List.countP_cons, tally]
    by_cases hn : s.ticks = n <;> simp [revokeCall, hn]
  have hlen : tally s s.ticks + (candidates.length + 1) ≤ cfg.cap := hcap
  refine ⟨?_, ⟨hun, hempty, hwet, ?_, fun d hd => ?_⟩, hs.failed, fun call hcall => ?_,
    fun call hcall => ?_, fun n => ?_⟩
  · show LiteInv (if answer = .fail then s.keys else s.keys.removeKey c.token)
    split_ifs
    · exact hs.litellm
    · exact hs.litellm.removeKey c.token
  · show (revokeCall s achKeySet c :: s.calls).countP (fun call => call.tick = s.ticks)
      + candidates.length ≤ cfg.cap
    rw [hcount, if_pos rfl]
    omega
  · obtain ⟨k, hk, hid⟩ := howned d (List.mem_cons_of_mem _ hd)
    exact ⟨k, hborn ▸ hk, hid⟩
  · obtain rfl | hcall := List.mem_cons.mp hcall
    · exact Nat.le_refl _
    · exact hs.recent call hcall
  · obtain rfl | hcall := List.mem_cons.mp hcall
    · obtain ⟨k, hk, hid, hissuer⟩ := howned c List.mem_cons_self
      refine ⟨?_, ?_, List.length_pos_iff.mpr hempty, hun, hwet⟩
      · simp [revokeCall, hk, hid]
      · simp [revokeCall, hk, hissuer]
    · obtain ⟨hid, hissuer, hmanaged, hun', hwet'⟩ := hs.proper call hcall
      exact ⟨hid, hissuer, hmanaged, hun', hwet'⟩
  · show (revokeCall s achKeySet c :: s.calls).countP (fun call => call.tick = n) ≤ cfg.cap
    rw [hcount]
    have := hs.cap n
    split_ifs with hn
    · rw [hn] at hlen
      omega
    · omega

theorem GuardInv.step (hs : GuardInv cfg s) {act : RAct} (h : step cfg s act = some s') :
    GuardInv cfg s' := by
  cases act with
  | keys act =>
    obtain ⟨keys', hkeys, rfl⟩ := Option.map_eq_some_iff.mp h
    have hf := (step_moves hkeys).toFollows
    refine ⟨hs.litellm.follows hf, ?_, hs.failed, hs.recent, fun call hcall => ?_, hs.cap⟩
    · have htick := hs.tick
      cases hst : s.tick with
      | scan userIDs achKeySet now candidates =>
        rw [hst] at htick
        exact ⟨htick.1, htick.2.1, fun c hc => (htick.2.2 c hc).follows hf⟩
      | revoke achKeySet candidates =>
        rw [hst] at htick
        obtain ⟨hun, hempty, hwet, hcap, howned⟩ := htick
        exact ⟨hun, hempty, hwet, hcap, fun c hc => (howned c hc).follows hf⟩
      | idle | listUsers | listKeyIDs userIDs | clock userIDs achKeySet listed =>
        rw [hst] at htick
        exact htick
    · obtain ⟨hid, hissuer, hmanaged, hun, hwet⟩ := hs.proper call hcall
      exact ⟨hid, hissuer, hmanaged, hun, hwet⟩
  | tick =>
    simp only [Reaper.step] at h
    split at h
    · cases h
      refine ⟨hs.litellm, ⟨fun hmem => ?_, tally_zero (fun call hcall hn => ?_)⟩,
        fun n hn => Nat.le_succ_of_le (hs.failed n hn),
        fun call hcall => Nat.le_succ_of_le (hs.recent call hcall), fun call hcall => ?_, hs.cap⟩
      · exact absurd (hs.failed _ hmem) (Nat.not_succ_le_self _)
      · have hle := hs.recent call hcall
        rw [hn] at hle
        exact absurd hle (Nat.not_succ_le_self _)
      · obtain ⟨hid, hissuer, hmanaged, hun, hwet⟩ := hs.proper call hcall
        exact ⟨hid, hissuer, hmanaged, hun, hwet⟩
    · cases h
  | go answer =>
    have htick := hs.tick
    simp only [Reaper.step, goStep] at h
    split at h
    · cases h
    · rename_i hst
      rw [hst] at htick
      split_ifs at h
      · cases h
        exact hs.abort htick.2
      · split at h
        · cases h
          exact hs.turn trivial
        · cases h
          exact hs.turn htick
    · rename_i userIDs hst
      rw [hst] at htick
      split_ifs at h
      · cases h
        exact hs.abort htick.2
      · cases h
        exact hs.turn htick
    · rename_i userIDs achKeySet listed hst
      rw [hst] at htick
      cases h
      exact hs.turn ⟨htick.1, htick.2, nofun⟩
    · rename_i achKeySet now candidates hst
      rw [hst] at htick
      cases h
      exact hs.turn (guarded_afterScan htick.1 htick.2.1 htick.2.2)
    · rename_i uid userIDs achKeySet now candidates hst
      rw [hst] at htick
      obtain ⟨hun, hzero, howned⟩ := htick
      split_ifs at h
      · cases h
        exact hs.abort hzero
      · cases h
        refine hs.turn ⟨hun, hzero, fun c hc => ?_⟩
        obtain hc | hc := List.mem_append.mp hc
        · exact howned c hc
        · obtain ⟨k, hk, hc⟩ := List.mem_filterMap.mp hc
          obtain ⟨-, hid, hissuer, -, htoken⟩ := of_candidateOf hc
          exact ⟨k, htoken ▸ hs.litellm k (List.mem_of_mem_filter hk), hid, hissuer⟩
    · cases h
      exact hs.turn trivial
    · rename_i achKeySet c candidates hst
      cases h
      exact hs.revoke hst answer

theorem guardInv_start (cfg : ReaperConfig) : GuardInv cfg start :=
  ⟨nofun, trivial, nofun, nofun, nofun, fun _ => Nat.zero_le _⟩

theorem safeInv_start : SafeInv start :=
  ⟨⟨nofun, nofun⟩, nofun, trivial, nofun⟩

/-- In every run the reaper revokes only keys with this deployment's issuer and a key id, at most
the cap in a pass, and nothing in a dry run, on an empty managed set or after a list error; in a
careful run it never revokes the key of a live row. -/
theorem reaper_spares_live_keys (cfg : ReaperConfig) {acts : List RAct}
    (hrun : Run.run (step cfg) start acts = some s) :
    (∀ call ∈ s.calls, call.achKeyID.isSome = true ∧ call.achIssuer = some cfg.issuer
        ∧ 0 < call.managed ∧ call.tick ∉ s.failed ∧ cfg.dryRun = false)
      ∧ (∀ n, s.calls.countP (fun call => call.tick = n) ≤ cfg.cap)
      ∧ (Run.Along (step cfg) Careful start acts → ∀ call ∈ s.calls, call.live = false) := by
  have hguard : GuardInv cfg s := by
    have hstep : ∀ s act s', GuardInv cfg s → True → step cfg s act = some s' → GuardInv cfg s' :=
      fun _ _ _ hs _ h => hs.step h
    exact Run.run_preserves hstep (guardInv_start cfg) (Run.along_trivial acts start) hrun
  refine ⟨fun call hcall => ?_, hguard.cap, fun hok => ?_⟩
  · obtain ⟨hid, hissuer, hmanaged, hun, hwet⟩ := hguard.proper call hcall
    exact ⟨hid, hissuer, hmanaged, hun, hwet⟩
  · have hstep : ∀ s act s', SafeInv s → Careful s act → step cfg s act = some s' → SafeInv s' :=
      fun _ _ _ hs hact h => hs.step hact h
    exact (Run.run_preserves hstep safeInv_start hok hrun).calls

end Ticks

def production : ReaperConfig := ⟨⟨0, fun _ => 5⟩, false, 10⟩

/-- A mint from the gate to the `INSERT`: the key id it draws, the token LiteLLM gives, and the key
id it draws if the first is taken. -/
def mintKey (i keyID token again : ℕ) : List RAct :=
  [.keys (.begin .manual 0 0 0 keyID), .keys (.go i .ok 0), .keys (.go i .ok 0),
    .keys (.go i .ok token), .keys (.go i .ok 0), .keys (.go i .ok again)]

def pass : List RAct := [.tick, .go .ok, .go .ok, .go .ok, .go .ok, .go .ok, .go .ok, .go .ok]

/-- The reply of a `KeyGenerate` is lost, and the key is reaped. A second row is suspended, and a
third is inserted while the pass stands between the managed set and the clock. -/
def reapLost : List RAct :=
  mintKey 0 0 0 0 ++ [.keys (.begin .manual 0 0 0 1), .keys (.go 1 .ok 0), .keys (.go 1 .ok 0),
    .keys (.go 1 .lost 1)] ++ mintKey 2 2 2 0 ++ [.keys (.flip (.environment, 2) .suspend),
    .keys (.wait 601)] ++ (mintKey 3 3 3 0).take 5 ++ [.tick, .go .ok, .go .ok, .keys (.go 3 .ok 0),
    .keys (.wait 5), .go .ok, .go .ok, .go .ok, .go .ok, .go .ok]

theorem careful_keys_go {s : RState} {i : ℕ} {answer : Answer} {fresh : ℕ}
    (h : (s.keys.mints[i]?).all (fun m => match m.stage with
      | .insert _ created _ => decide (s.keys.now ≤ created + orphanAgeFloor) && !keyTaken s.keys m
      | _ => true) = true) : Careful s (.keys (.go i answer fresh)) := by
  intro m token created retried hm hst _
  rw [hm] at h
  simpa [hst] using h

theorem careful_go {s : RState} {answer : Answer}
    (h : (match s.tick with
      | .clock _ _ listed =>
          (s.keys.rows.drop listed).all (fun r => (s.keys.born r.litellmToken).all
          (fun k => decide (s.keys.now ≤ k.createdAt + orphanAgeFloor)))
      | _ => true) = true) : Careful s (.go answer) := by
  intro userIDs achKeySet listed hst r hr k hk
  rw [hst] at h
  have hr := List.all_eq_true.mp h r hr
  rw [hk] at hr
  exact of_decide_eq_true hr

theorem careful_reapLost : Run.Along (step production) Careful start reapLost := by
  iterate 33
    refine Run.along_cons rfl ?_ ?_
    · first | trivial | exact careful_keys_go rfl | exact careful_go rfl
  trivial

theorem lost_key_is_reaped :
    ∃ s, Run.run (step production) start reapLost = some s
      ∧ s.calls.map (fun call => (call.token, call.live)) = [(1, false)]
      ∧ (∀ call ∈ s.calls, call.achKeyID.isSome = true ∧ call.achIssuer = some production.issuer
        ∧ 0 < call.managed ∧ call.tick ∉ s.failed ∧ production.dryRun = false)
      ∧ (∀ n, s.calls.countP (fun call => call.tick = n) ≤ production.cap)
      ∧ ∀ call ∈ s.calls, call.live = false := by
  obtain ⟨s, hrun, hcalls⟩ : ∃ s, Run.run (step production) start reapLost = some s
      ∧ s.calls.map (fun call => (call.token, call.live)) = [(1, false)] := ⟨_, rfl, rfl⟩
  obtain ⟨hproper, hcap, hlive⟩ := reaper_spares_live_keys production hrun
  exact ⟨s, hrun, hcalls, hproper, hcap, hlive careful_reapLost⟩

/-- A second mint draws the key id of the first, is inserted under another one, and the first row is
revoked: the second key carries the id of the revoked row and is reaped while its row is live. And a
row inserted between the read of the managed set and that of the clock, just within the age floor,
is not seen: its key is reaped too. -/
theorem reaper_kills_live_key :
    (Run.run (step production) start
      (mintKey 0 0 0 0 ++ mintKey 1 0 1 1 ++ [.keys (.go 1 .ok 0),
        .keys (.flip (.environment, 0) .revoke), .keys (.wait 601)] ++ pass)).map
        (fun s => s.calls.map (fun call => (call.token, call.live)))
      = some [(1, true), (0, false)]
    ∧ (Run.run (step production) start
      (mintKey 0 0 0 0 ++ (mintKey 1 1 1 0).take 5 ++ [.keys (.wait 599), .tick, .go .ok, .go .ok,
        .keys (.go 1 .ok 0), .keys (.wait 2), .go .ok, .go .ok, .go .ok, .go .ok])).map
        (fun s => s.calls.map (fun call => (call.token, call.live)))
      = some [(1, true)] := by
  decide

end AchProofs.Keys.Reaper
