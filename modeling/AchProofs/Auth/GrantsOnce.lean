import AchProofs.Auth.Grants

namespace AchProofs.Auth.Grants

open Foundation

/-- The token a request has taken and not spent or put back yet. -/
def Stage.holds : Stage → Option Token
  | .held id _ => some (.refresh id)
  | .issue token _ => some token
  | .restore id _ => some (.refresh id)
  | _ => none

def held (t : Token) (st : Stage) : ℕ := if st.holds = some t then 1 else 0

def heldNext (t : Token) : Option Stage → ℕ
  | none => 0
  | some st => held t st

def stored (s : State) (t : Token) : ℕ := if (s.store t).isSome then 1 else 0

/-- How many pairs a token can still yield or has yielded, apart from the requests that hold it. -/
def kept (s : State) (t : Token) : ℕ := stored s t + s.pairs.count t

def holders (s : State) (t : Token) : ℕ := s.threads.countP (fun th => th.stage.holds = some t)

/-- A device record is changed only while it is pending; a refresh token is taken with its reply,
and what is put back arrives. -/
def StageSafe (s : State) (answer : Answer) : Stage → Prop
  | .putFinish id clientID _ => answer.lands = true →
      s.store (.device id) = some (.device clientID .pending)
  | .takeRefresh id => answer.lands = true → answer.works = true ∨ s.store (.refresh id) = none
  | .restore _ _ => answer.lands = true
  | _ => True

/-- No request dies with a refresh token in its hands. -/
def Safe (s : State) : Act → Prop
  | .go i answer => ∀ th, s.threads[i]? = some th → StageSafe s answer th.stage
  | .crash i => ∀ th, s.threads[i]? = some th → ∀ id, th.stage.holds ≠ some (.refresh id)
  | _ => True

section Weight

variable {s s' : State} {t : Token}

theorem stored_del (t' : Token) : stored (s.del t') t = if t = t' then 0 else stored s t := by
  by_cases h : t = t'
  · simp [stored, State.del, h]
  · simp [stored, State.del, h]

theorem stored_put (t' : Token) (rec : Rec) :
    stored (s.put t' rec) t = if t = t' then 1 else stored s t := by
  by_cases h : t = t'
  · simp [stored, State.put, h]
  · simp [stored, State.put, h]

variable {rec : Rec} {next : Option Stage} {st : Stage} {t' : Token} {answer : Answer} {th : Thread}
  {i : ℕ} {l : List Thread}

theorem stored_eq_one (h : s.store t = some rec) : stored s t = 1 := by
  simp [stored, h]

/-- What a step of a request does to the claims on a token: it makes none, except for the refresh
token it draws. -/
structure Keeps (s s' : State) (t : Token) (st : Stage) (next : Option Stage) : Prop where
  born : s.born ⊆ s'.born
  weight : kept s' t + heldNext t next ≤ kept s t + held t st
    ∨ t ∉ s.born ∧ t ∈ s'.born ∧ kept s' t + heldNext t next ≤ 1

theorem keeps_same (h : heldNext t next ≤ held t st) : Keeps s s t st next :=
  ⟨fun _ h => h, .inl (Nat.add_le_add_left h _)⟩

theorem kept_del_le (t' : Token) : kept (s.del t') t ≤ kept s t := by
  show stored (s.del t') t + s.pairs.count t ≤ _
  rw [stored_del, kept]
  split_ifs <;> omega

theorem keeps_del (t' : Token) (h : heldNext t next ≤ held t st) : Keeps s (s.del t') t st next :=
  ⟨fun _ h => h, .inl (Nat.add_le_add (kept_del_le t') h)⟩

theorem keeps_take {next : Stage} (hrec : s.store t' = some rec) (hnext : next.holds = some t') :
    Keeps s (s.del t') t st (some next) := by
  refine ⟨fun _ h => h, .inl ?_⟩
  show stored (s.del t') t + s.pairs.count t + held t next ≤ kept s t + held t st
  rw [stored_del, kept, held, hnext]
  by_cases ht : t = t'
  · rw [if_pos ht, if_pos (by rw [ht]), ht, stored_eq_one hrec]
    omega
  · rw [if_neg ht, if_neg (fun h => ht (Option.some.inj h).symm)]
    omega

theorem keeps_put (rec : Rec) (h : t = t' → 1 ≤ stored s t + held t st) :
    Keeps s (s.put t' rec) t st none := by
  refine ⟨fun _ h => h, .inl ?_⟩
  show stored (s.put t' rec) t + s.pairs.count t + 0 ≤ kept s t + held t st
  rw [stored_put, kept]
  split_ifs with ht
  · have := h ht
    omega
  · omega

theorem heldNext_giveUp (token : Token) (rec : Rec) :
    heldNext t (giveUp token rec) ≤ held t (.issue token rec) := by
  cases token <;> first | exact Nat.le_refl _ | exact Nat.zero_le _

theorem issueStep_keeps {clientID : ℕ} {token : Token}
    (hnew : t ∉ s.born → kept s t + held t (.issue token rec) = 0)
    (h : issueStep s clientID token rec answer = some (s', next)) :
    Keeps s s' t (.issue token rec) next := by
  have hfresh : ∀ fresh, .refresh fresh ∉ s.born → ∀ s', s'.born = .refresh fresh :: s.born →
      s'.store = (s.bear (.refresh fresh) (.refresh clientID)).store →
      (s'.pairs = token :: s.pairs ∧ next = none ∨ s'.pairs = s.pairs ∧ next = giveUp token rec) →
      Keeps s s' t (.issue token rec) next := by
    intro fresh hfresh s' hborn hstore hpairs
    refine ⟨hborn ▸ List.subset_cons_self _ _, ?_⟩
    have hstored : stored s' t = if t = .refresh fresh then 1 else stored s t := by
      rw [← stored_put (s := s) (.refresh fresh) (.refresh clientID)]
      simp only [stored, hstore]
      rfl
    have hclaims :
        s'.pairs.count t + heldNext t next ≤ s.pairs.count t + held t (.issue token rec) := by
      obtain ⟨hp, hn⟩ | ⟨hp, hn⟩ := hpairs
      · rw [hp, hn, List.count_cons, held, Stage.holds]
        show _ + 0 ≤ _
        by_cases ht : token = t
        · simp [ht]
        · simp [ht]
      · rw [hp, hn]
        exact Nat.add_le_add_left (heldNext_giveUp token rec) _
    unfold kept at hnew ⊢
    rw [hstored]
    split_ifs with ht
    · have hborn' : t ∉ s.born := ht ▸ hfresh
      have := hnew hborn'
      exact .inr ⟨hborn', by rw [hborn, ht]; exact List.mem_cons_self, by omega⟩
    · exact .inl (by omega)
  cases answer with
  | ok fresh =>
    simp only [issueStep] at h
    split_ifs at h with hb
    cases h
    exact hfresh fresh hb _ rfl rfl (.inl ⟨rfl, rfl⟩)
  | lost fresh =>
    simp only [issueStep] at h
    split_ifs at h with hb
    cases h
    exact hfresh fresh hb _ rfl rfl (.inr ⟨rfl, rfl⟩)
  | fail | refused =>
    cases h
    exact keeps_same (heldNext_giveUp token rec)

theorem threadStep_keeps (hnew : t ∉ s.born → kept s t + held t th.stage = 0)
    (hfin : ∀ id clientID approve, th.stage = .putFinish id clientID approve →
      answer.lands = true → t = .device id → s.store t = some (.device clientID .pending))
    (h : threadStep s th answer = some (s', next)) : Keeps s s' t th.stage next := by
  unfold threadStep at h
  cases hst : th.stage with
  | takeCode id proof =>
    simp only [hst] at h
    split_ifs at h
    · cases h
      exact keeps_same (Nat.zero_le _)
    · cases h
      exact keeps_del _ (Nat.zero_le _)
    · split at h
      · rename_i clientID hrec
        split_ifs at h
        · cases h
          exact keeps_take hrec rfl
        · cases h
          exact keeps_del _ (Nat.zero_le _)
      · cases h
        exact keeps_del _ (Nat.zero_le _)
  | getDevice id =>
    simp only [hst] at h
    split_ifs at h
    · cases h
      exact keeps_same (Nat.zero_le _)
    · split at h
      · split_ifs at h
        · cases h
          exact keeps_same (Nat.zero_le _)
        · split at h <;> cases h <;> exact keeps_same (Nat.le_refl _)
      · cases h
        exact keeps_same (Nat.zero_le _)
  | delDevice id =>
    simp only [hst] at h
    cases h
    split_ifs
    · exact keeps_del _ (Nat.zero_le _)
    · exact keeps_same (Nat.zero_le _)
  | takeDevice id =>
    simp only [hst] at h
    split_ifs at h
    · cases h
      exact keeps_same (Nat.zero_le _)
    · cases h
      exact keeps_del _ (Nat.zero_le _)
    · split at h
      · rename_i rec hrec
        cases h
        exact keeps_take hrec rfl
      · cases h
        exact keeps_same (Nat.zero_le _)
  | takeRefresh id =>
    simp only [hst] at h
    split_ifs at h
    · cases h
      exact keeps_same (Nat.zero_le _)
    · cases h
      exact keeps_del _ (Nat.zero_le _)
    · split at h
      · rename_i rec hrec
        cases h
        exact keeps_take hrec rfl
      · cases h
        exact keeps_same (Nat.zero_le _)
  | held id rec =>
    simp only [hst] at h
    split_ifs at h
    · cases h
      exact keeps_same (Nat.le_refl _)
    · split at h
      · cases h
        exact keeps_same (Nat.le_refl _)
      · cases h
        exact ⟨fun _ h => h, .inl (Nat.le_add_right_of_le (Nat.le_refl _))⟩
      · cases h
        exact keeps_same (Nat.le_refl _)
  | issue token rec =>
    simp only [hst] at h
    exact issueStep_keeps (hst ▸ hnew) h
  | restore id rec =>
    simp only [hst] at h
    cases h
    split_ifs
    · refine keeps_put rec (fun ht => ?_)
      rw [held, Stage.holds, if_pos (by rw [ht])]
      omega
    · exact keeps_same (Nat.zero_le _)
  | getFinish id approve =>
    simp only [hst] at h
    split_ifs at h
    · cases h
      exact keeps_same (Nat.zero_le _)
    · split at h
      · cases h
        exact keeps_same (Nat.le_refl _)
      · cases h
        exact keeps_same (Nat.zero_le _)
  | putFinish id clientID approve =>
    simp only [hst] at h
    split_ifs at h with hland happrove
    · cases h
      exact keeps_same (Nat.zero_le _)
    all_goals
      cases h
      have hput : Keeps s (s.put (.device id) (.device clientID (decided approve))) t
          (.putFinish id clientID approve) none := by
        refine keeps_put _ (fun ht => ?_)
        rw [stored_eq_one (hfin id clientID approve hst (by simpa using hland) ht)]
        exact Nat.le_add_right _ _
      exact ⟨hput.born, hput.weight⟩

theorem eq_take_cons_drop (h : l[i]? = some th) : l = l.take i ++ th :: l.drop (i + 1) := by
  obtain ⟨hi, rfl⟩ := List.getElem?_eq_some_iff.mp h
  rw [← List.drop_eq_getElem_cons hi, List.take_append_drop]

theorem mem_replaceAt {new : List Thread} (h : th ∈ replaceAt l i new) : th ∈ l ∨ th ∈ new := by
  obtain h | h := List.mem_append.mp h
  · obtain h | h := List.mem_append.mp h
    · exact .inl (List.mem_of_mem_take h)
    · exact .inr h
  · exact .inl (List.mem_of_mem_drop h)

theorem countP_replaceAt (h : l[i]? = some th) (new : List Thread) (p : Thread → Bool) :
    (replaceAt l i new).countP p + (if p th then 1 else 0) = l.countP p + new.countP p := by
  conv_rhs => rw [eq_take_cons_drop h]
  rw [replaceAt, List.countP_append, List.countP_append, List.countP_append, List.countP_cons]
  omega

theorem countP_next (clientID : ℕ) (next : Option Stage) :
    ((next.map (Thread.mk clientID)).toList).countP (fun th => th.stage.holds = some t)
      = heldNext t next := by
  cases next with
  | none => rfl
  | some st => simp [heldNext, held, List.countP_cons]

/-- Of the store, the requests and the pairs, at most one has the token. -/
structure Single (s : State) (t : Token) : Prop where
  le : kept s t + holders s t ≤ 1
  new : t ∉ s.born → kept s t + holders s t = 0

theorem Single.bear (hs : Single s t) (rec : Rec) (hnew : t' ∉ s.born) :
    Single (s.bear t' rec) t := by
  have hkept : kept (s.bear t' rec) t = (if t = t' then 1 else stored s t) + s.pairs.count t := by
    rw [← stored_put t' rec]
    rfl
  have hle := hs.le
  have h0 := hs.new
  refine ⟨?_, fun hb => ?_⟩
  · show kept (s.bear t' rec) t + holders s t ≤ 1
    rw [hkept]
    unfold kept at hle h0
    split_ifs with ht
    · have := h0 (ht ▸ hnew)
      omega
    · omega
  · show kept (s.bear t' rec) t + holders s t = 0
    obtain ⟨hne, hb⟩ := not_or.mp (fun h => hb (List.mem_cons.mpr h))
    rw [hkept, if_neg hne]
    exact h0 hb

theorem Single.spawn (hs : Single s t) (hth : th.stage.holds = none) : Single (spawn s th) t := by
  have hholders : holders (Grants.spawn s th) t = holders s t := by
    simp [holders, Grants.spawn, List.countP_append, hth]
  exact ⟨hholders ▸ hs.le, fun hb => hholders ▸ hs.new hb⟩

theorem holders_replaceAt (hth : s.threads[i]? = some th) (next : Option Stage) :
    (replaceAt s.threads i (next.map (Thread.mk th.clientID)).toList).countP
        (fun th => th.stage.holds = some t) + held t th.stage
      = holders s t + heldNext t next := by
  rw [← countP_next th.clientID next, holders, ← countP_replaceAt hth]
  simp [held]

theorem Single.go (hs : Single s t) (hth : s.threads[i]? = some th)
    (hfin : ∀ id clientID approve, th.stage = .putFinish id clientID approve →
      answer.lands = true → t = .device id → s.store t = some (.device clientID .pending))
    (h : goStep s i th answer = some s') : Single s' t := by
  obtain ⟨⟨s₁, next⟩, h₁, rfl⟩ := Option.map_eq_some_iff.mp h
  have hcount := holders_replaceAt (t := t) hth next
  have hheld : held t th.stage ≤ holders s t := by
    have := holders_replaceAt (t := t) hth none
    simp only [heldNext] at this
    omega
  have hle := hs.le
  have h0 := hs.new
  have hk : Keeps s s₁ t th.stage next := by
    refine threadStep_keeps (fun hb => ?_) hfin h₁
    have := h0 hb
    omega
  refine ⟨?_, fun hb => ?_⟩
  · show kept s₁ t + (replaceAt s.threads i (next.map (Thread.mk th.clientID)).toList).countP
      (fun th => th.stage.holds = some t) ≤ 1
    obtain hw | ⟨hb, _, hw⟩ := hk.weight
    · omega
    · have := h0 hb
      omega
  · show kept s₁ t + (replaceAt s.threads i (next.map (Thread.mk th.clientID)).toList).countP
      (fun th => th.stage.holds = some t) = 0
    have := h0 (fun hm => hb (hk.born hm))
    obtain hw | ⟨_, hm, _⟩ := hk.weight
    · omega
    · exact absurd hm hb

theorem Single.step (hs : Single s t) {act : Act} (hok : ∀ id, t = .device id → Safe s act)
    (h : step s act = some s') : Single s' t := by
  cases act with
  | newCode id clientID =>
    simp only [Grants.step] at h
    split_ifs at h with hb
    cases h
    exact hs.bear _ hb
  | newDevice id clientID =>
    simp only [Grants.step] at h
    split_ifs at h with hb
    cases h
    exact hs.bear _ hb
  | redeemCode id clientID proof | pollDevice id clientID | refreshGrant id clientID
  | finishDevice id approve =>
    cases h
    exact hs.spawn rfl
  | go i answer =>
    obtain ⟨th, hth, h⟩ := Option.bind_eq_some_iff.mp h
    refine hs.go hth (fun id clientID approve hst hland ht => ?_) h
    have hsafe := hok id ht th hth
    rw [hst] at hsafe
    rw [ht]
    exact hsafe hland
  | crash i =>
    obtain ⟨th, hth, rfl⟩ := Option.map_eq_some_iff.mp h
    have hcount : (replaceAt s.threads i []).countP (fun th => th.stage.holds = some t)
        + held t th.stage = holders s t + 0 := holders_replaceAt hth none
    have hle := hs.le
    have h0 := hs.new
    refine ⟨?_, fun hb => ?_⟩
    · show kept s t + (replaceAt s.threads i []).countP (fun th => th.stage.holds = some t) ≤ 1
      omega
    · show kept s t + (replaceAt s.threads i []).countP (fun th => th.stage.holds = some t) = 0
      have := h0 hb
      omega
  | expire t' =>
    cases h
    have hle := hs.le
    have h0 := hs.new
    have hdel : kept (s.del t') t ≤ kept s t := kept_del_le t'
    refine ⟨?_, fun hb => ?_⟩
    · show kept (s.del t') t + holders s t ≤ 1
      omega
    · show kept (s.del t') t + holders s t = 0
      have := h0 hb
      omega

end Weight

end AchProofs.Auth.Grants
