import AchProofs.Keys.Lifecycle

/-!
The answers about an environment key are true of the row, however the requests interleave: what a
request has seen of the row since it started carries its answer.
-/

namespace AchProofs.Keys.Lifecycle

open Foundation.Run

variable {op : Op} {row row' : Row} {now : ℕ} {x y z : Snapshot} {seen : List Snapshot}
  {stage : Stage} {s s' : World}

section Rows

/-- The row at a later instant: a revoked row stays revoked, and the expiry is fixed. -/
structure Later (x y : Snapshot) : Prop where
  revoked : x.row.status = .revoked → y.row.status = .revoked
  now_le : x.now ≤ y.now
  expiresAt : y.row.expiresAt = x.row.expiresAt

theorem Later.refl (x : Snapshot) : Later x x := ⟨id, Nat.le_refl _, rfl⟩

theorem Later.trans (h : Later x y) (h' : Later y z) : Later x z :=
  ⟨h'.revoked ∘ h.revoked, Nat.le_trans h.now_le h'.now_le, h'.expiresAt.trans h.expiresAt⟩

theorem expired_congr (h : row'.expiresAt = row.expiresAt) (t : ℕ) :
    row'.expired t = row.expired t := by
  rw [Row.expired, Row.expired, h]

theorem expired_mono {t t' : ℕ} (ht : t ≤ t') (h : row.expired t = true) :
    row.expired t' = true := by
  rw [Row.expired] at h ⊢
  split at h
  · nomatch h
  · simp only [Bool.not_eq_true', decide_eq_false_iff_not] at h ⊢
    omega

theorem Later.expired (h : Later x y) {t : ℕ} (ht : x.now ≤ t) (hx : x.row.expired x.now = true) :
    y.row.expired t = true := by
  rw [expired_congr h.expiresAt]
  exact expired_mono ht hx

theorem update_later (h : update op row now = some row') : Later ⟨now, row⟩ ⟨now, row'⟩ := by
  cases op <;> rw [update] at h <;> split at h <;> cases h
  · exact ⟨fun hr => by simp_all, Nat.le_refl _, rfl⟩
  · exact ⟨fun hr => by simp_all, Nat.le_refl _, rfl⟩
  · exact ⟨fun _ => rfl, Nat.le_refl _, rfl⟩

theorem drain_later (row : Row) (now : ℕ) : Later ⟨now, row⟩ ⟨now, drain row⟩ := by
  rw [drain]
  split
  · exact ⟨fun _ => rfl, Nat.le_refl _, rfl⟩
  · exact .refl _

theorem resume_unexpired (h : update .resume row now = some row') :
    row'.status = .active ∧ row'.expired now = false := by
  rw [update] at h
  split at h
  · rename_i hc
    cases h
    refine ⟨rfl, ?_⟩
    rw [Row.expired]
    cases he : row.expiresAt with
    | none => rfl
    | some t => simpa [he] using hc.2
  · nomatch h

end Rows

section Knowledge

def Granted (seen : List Snapshot) (last : Snapshot) : Op → Prop
  | .suspend => ∃ x ∈ seen, x.row.status = .suspended
  | .resume => ∃ x ∈ seen, x.row.status = .active ∧ x.row.expired x.now = false
  | .revoke => last.row.status = .revoked

/-- What an answer says of the row is true. -/
structure Truthful (op : Op) (r : Reply) (seen : List Snapshot) (last : Snapshot) : Prop where
  granted : r = .noContent → Granted seen last op
  revoked : ∀ m, r = .error 409 "key_revoked" m → last.row.status = .revoked
  expired : ∀ m, r = .error 409 "key_expired" m → last.row.expired last.now = true

/-- What a request knows at a stage: a row it has read was there, an update that matched no row
found it so, and an answer it is about to give is true. -/
def Knows (op : Op) (seen : List Snapshot) (cur : Snapshot) : Stage → Prop
  | .judge row => ∃ x ∈ seen, x.row = row ∧ Later x cur
  | .updated => Granted seen cur op
  | .reread => ∃ x ∈ seen, update op x.row x.now = none ∧ op ≠ .revoke ∧ Later x cur
  | .rejudge row => ∃ x ∈ seen, ∃ y, y.row = row ∧ Later x y ∧ Later y cur ∧
      update op x.row x.now = none ∧ op ≠ .revoke
  | .reply r => Truthful op r seen cur
  | _ => True

theorem Granted.mono (h : Granted seen x op) (hl : Later x y) : Granted (y :: seen) y op := by
  cases op with
  | suspend =>
    obtain ⟨z, hz, hs⟩ := h
    exact ⟨z, List.mem_cons_of_mem _ hz, hs⟩
  | resume =>
    obtain ⟨z, hz, hs⟩ := h
    exact ⟨z, List.mem_cons_of_mem _ hz, hs⟩
  | revoke => exact hl.revoked h

theorem Truthful.mono {r : Reply} (h : Truthful op r seen x) (hl : Later x y) :
    Truthful op r (y :: seen) y where
  granted hr := (h.granted hr).mono hl
  revoked m hr := hl.revoked (h.revoked m hr)
  expired m hr := hl.expired hl.now_le (h.expired m hr)

theorem Knows.mono (h : Knows op seen x stage) (hl : Later x y) : Knows op (y :: seen) y stage := by
  cases stage with
  | judge row =>
    obtain ⟨z, hz, hr, hzx⟩ := h
    exact ⟨z, List.mem_cons_of_mem _ hz, hr, hzx.trans hl⟩
  | updated => exact Granted.mono h hl
  | reread =>
    obtain ⟨z, hz, hu, ho, hzx⟩ := h
    exact ⟨z, List.mem_cons_of_mem _ hz, hu, ho, hzx.trans hl⟩
  | rejudge row =>
    obtain ⟨z, hz, w, hw, hzw, hwx, hu⟩ := h
    exact ⟨z, List.mem_cons_of_mem _ hz, w, hw, hzw, hwx.trans hl, hu⟩
  | reply r => exact Truthful.mono h hl
  | _ => trivial

theorem truthful_error {status : ℕ} {code m : String} (h₁ : code ≠ "key_revoked")
    (h₂ : code ≠ "key_expired") : Truthful op (.error status code m) seen x where
  granted := nofun
  revoked m' h := by
    cases h
    exact absurd rfl h₁
  expired m' h := by
    cases h
    exact absurd rfl h₂

theorem truthful_revoked {m : String} (h : x.row.status = .revoked) :
    Truthful op (.error 409 "key_revoked" m) seen x :=
  ⟨nofun, fun _ _ => h, fun _ h => by simp at h⟩

theorem truthful_expired {m : String} (h : x.row.expired x.now = true) :
    Truthful op (.error 409 "key_expired" m) seen x :=
  ⟨nofun, fun _ h => by simp at h, fun _ _ => h⟩

theorem truthful_noContent (h : Granted seen x op) : Truthful op .noContent seen x :=
  ⟨fun _ => h, nofun, nofun⟩

end Knowledge

section Request

variable {caller : Caller} {outcome : Outcome} {cur : Snapshot}

theorem knows_loadStage (hcur : cur ∈ seen) :
    Knows op seen cur (loadStage caller cur.row outcome) := by
  rw [loadStage]
  split
  · exact truthful_error (by decide) (by decide)
  · split
    · exact truthful_error (by decide) (by decide)
    · split
      · exact truthful_error (by decide) (by decide)
      · exact ⟨cur, hcur, rfl, .refl cur⟩

/-- A request that decides on the row it has read tells the truth: a revoked row stays revoked, an
expired one expired, and an unexpired one was unexpired when it was read. -/
theorem knows_judgeStage (hx : x ∈ seen) (hl : Later x cur) :
    Knows op seen cur (judgeStage op x.row cur.now) := by
  have hexp : x.row.expired cur.now = true → cur.row.expired cur.now = true := fun h => by
    rw [expired_congr hl.expiresAt]
    exact h
  have hunexp : x.row.expired cur.now ≠ true → x.row.expired x.now = false := fun h => by
    rw [← Bool.not_eq_true]
    exact fun h' => h (expired_mono hl.now_le h')
  cases op <;> rw [judgeStage]
  case suspend =>
    split
    · exact truthful_revoked (hl.revoked ‹_›)
    · split
      · exact truthful_expired (hexp ‹_›)
      · split
        · exact truthful_noContent ⟨x, hx, ‹_›⟩
        · trivial
  case resume =>
    split
    · exact truthful_revoked (hl.revoked ‹_›)
    · split
      · exact truthful_expired (hexp ‹_›)
      · split
        · exact truthful_noContent ⟨x, hx, ‹_›, hunexp ‹_›⟩
        · trivial
  case revoke =>
    split
    · exact truthful_noContent (hl.revoked ‹_›)
    · trivial

theorem granted_of_missed (hx : x ∈ seen) (hxy : Later x y) (hy : Later y cur)
    (hnone : update op x.row x.now = none) (hop : op ≠ .revoke) (hrev : y.row.status ≠ .revoked)
    (hexp : y.row.expired cur.now ≠ true) : Granted seen cur op := by
  have hxrev : x.row.status ≠ .revoked := fun h => hrev (hxy.revoked h)
  have hxexp : x.row.expired x.now = false := by
    rw [← Bool.not_eq_true]
    exact fun h => hexp (hxy.expired (hxy.trans hy).now_le h)
  cases op with
  | suspend =>
    refine ⟨x, hx, ?_⟩
    cases hs : x.row.status with
    | active => simp [update, hs] at hnone
    | suspended => rfl
    | revoked => exact absurd hs hxrev
  | resume =>
    refine ⟨x, hx, ?_, hxexp⟩
    cases hs : x.row.status with
    | active => rfl
    | suspended =>
      have hall : x.row.expiresAt.all (fun t => decide (x.now < t)) = true := by
        rw [Row.expired] at hxexp
        cases he : x.row.expiresAt with
        | none => rfl
        | some t => simpa [he] using hxexp
      simp [update, hs, hall] at hnone
    | revoked => exact absurd hs hxrev
  | revoke => exact absurd rfl hop

theorem truthful_conflictReply (hx : x ∈ seen) (hxy : Later x y) (hy : Later y cur)
    (hnone : update op x.row x.now = none) (hop : op ≠ .revoke) :
    Truthful op (conflictReply y.row cur.now) seen cur := by
  rw [conflictReply]
  split
  · exact truthful_revoked (hy.revoked ‹_›)
  · split
    · rename_i hexp
      refine truthful_expired ?_
      rw [expired_congr hy.expiresAt]
      exact hexp
    · exact truthful_noContent (granted_of_missed hx hxy hy hnone hop ‹_› ‹_›)

theorem granted_of_update (h : update op row now = some row') :
    Granted (⟨now, row'⟩ :: seen) ⟨now, row'⟩ op := by
  cases op with
  | suspend =>
    rw [update] at h
    split at h <;> cases h
    exact ⟨_, List.mem_cons_self, rfl⟩
  | resume => exact ⟨_, List.mem_cons_self, resume_unexpired h⟩
  | revoke =>
    rw [update] at h
    split at h <;> cases h
    rfl

theorem knows_updateStage (op : Op) (outcome : Outcome) (hcur : cur ∈ seen) :
    Later cur ⟨cur.now, (updateStage op cur.row cur.now outcome).1⟩ ∧
      Knows op (⟨cur.now, (updateStage op cur.row cur.now outcome).1⟩ :: seen)
        ⟨cur.now, (updateStage op cur.row cur.now outcome).1⟩
        (updateStage op cur.row cur.now outcome).2 := by
  cases hu : update op cur.row cur.now with
  | some row' =>
    cases outcome <;> simp only [updateStage, hu, Option.getD_some]
    case ok => exact ⟨update_later hu, granted_of_update hu⟩
    case lost => exact ⟨update_later hu, truthful_error (by decide) (by decide)⟩
    all_goals exact ⟨.refl cur, truthful_error (by decide) (by decide)⟩
  | none =>
    cases outcome <;> simp only [updateStage, hu, Option.getD_none]
    case ok =>
      refine ⟨.refl cur, ?_⟩
      by_cases hop : op = .revoke
      · subst hop
        rw [if_pos rfl]
        rw [update] at hu
        split at hu
        · nomatch hu
        · rename_i hr
          exact not_not.mp hr
      · rw [if_neg hop]
        exact ⟨cur, List.mem_cons_of_mem _ hcur, hu, hop, .refl cur⟩
    all_goals exact ⟨.refl cur, truthful_error (by decide) (by decide)⟩

/-- A request under way has seen the row as it is now, and knows what its stage needs. -/
structure Informed (cur : Snapshot) (q : Request) : Prop where
  current : cur ∈ q.seen
  knows : Knows q.op q.seen cur q.stage

theorem Informed.see {q : Request} (h : Informed x q) (hl : Later x y) : Informed y (q.see y) :=
  ⟨List.mem_cons_self, h.knows.mono hl⟩

theorem informed_step {q : Request} {next : Row × Stage} (h : Informed cur q)
    (hs : requestStep q.op q.caller cur.row cur.now outcome q.stage = some next) :
    Later cur ⟨cur.now, next.1⟩ ∧
      Informed ⟨cur.now, next.1⟩ (Request.see ⟨cur.now, next.1⟩ { q with stage := next.2 }) := by
  have hsame : ∀ {st : Stage}, Knows q.op q.seen cur st →
      Informed cur (Request.see cur { q with stage := st }) :=
    fun hk => Informed.see ⟨h.current, hk⟩ (.refl cur)
  have hknows := h.knows
  cases hst : q.stage <;> rw [hst] at hs hknows <;> simp only [requestStep] at hs
  case load =>
    cases hs
    exact ⟨.refl cur, hsame (knows_loadStage h.current)⟩
  case judge row =>
    cases hs
    obtain ⟨x, hx, rfl, hl⟩ := hknows
    exact ⟨.refl cur, hsame (knows_judgeStage hx hl)⟩
  case environment | teams | litellm =>
    cases outcome <;> cases hs <;> refine ⟨.refl cur, hsame ?_⟩ <;>
      first | trivial | exact truthful_error (by decide) (by decide)
  case update =>
    cases hs
    obtain ⟨hl, hk⟩ := knows_updateStage q.op outcome h.current
    exact ⟨hl, List.mem_cons_self, hk⟩
  case updated =>
    cases hs
    exact ⟨.refl cur, hsame (truthful_noContent hknows)⟩
  case reread =>
    obtain ⟨x, hx, hu, hop, hl⟩ := hknows
    split at hs <;> cases hs
    · exact ⟨.refl cur, hsame ⟨x, hx, cur, rfl, hl, .refl cur, hu, hop⟩⟩
    · exact ⟨.refl cur, hsame (truthful_error (by decide) (by decide))⟩
  case rejudge row =>
    cases hs
    obtain ⟨x, hx, y, rfl, hxy, hy, hu, hop⟩ := hknows
    exact ⟨.refl cur, hsame (truthful_conflictReply hx hxy hy hu hop)⟩
  case reply => nomatch hs

end Request

section Runs

structure Inv (s : World) : Prop where
  requests : ∀ q ∈ s.requests, Informed s.current q
  answers : ∀ a ∈ s.answers, Truthful a.op a.reply a.seen a.last

theorem mem_see {s : World} {q : Request} (h : q ∈ s.see.requests) :
    ∃ u ∈ s.requests, q = u.see s.current := by
  obtain ⟨u, hu, rfl⟩ := List.mem_map.mp h
  exact ⟨u, hu, rfl⟩

theorem step_spec {act : Act} (h : Inv s) (hs : step s act = some s') :
    Inv s' ∧ Later s.current s'.current := by
  cases act with
  | start op caller =>
    cases hs
    refine ⟨⟨fun q hq => ?_, h.answers⟩, .refl _⟩
    obtain ⟨u, hu, rfl⟩ := mem_see hq
    rcases List.mem_append.mp hu with hu | hu
    · exact (h.requests u hu).see (.refl _)
    · cases List.mem_singleton.mp hu
      exact ⟨List.mem_cons_self, trivial⟩
  | drain =>
    cases hs
    have hl : Later s.current ⟨s.now, drain s.row⟩ := drain_later s.row s.now
    refine ⟨⟨fun q hq => ?_, h.answers⟩, hl⟩
    obtain ⟨u, hu, rfl⟩ := mem_see hq
    exact (h.requests u hu).see hl
  | wait d =>
    cases hs
    have hl : Later s.current ⟨s.now + d, s.row⟩ := ⟨id, Nat.le_add_right _ _, rfl⟩
    refine ⟨⟨fun q hq => ?_, h.answers⟩, hl⟩
    obtain ⟨u, hu, rfl⟩ := mem_see hq
    exact (h.requests u hu).see hl
  | go i outcome =>
    rw [step] at hs
    split at hs
    · nomatch hs
    · rename_i q hq
      have hinf := h.requests q (List.mem_of_getElem? hq)
      split at hs
      · rename_i r hst
        cases hs
        refine ⟨⟨fun u hu => h.requests u (List.mem_of_mem_eraseIdx hu), fun a ha => ?_⟩, .refl _⟩
        rcases List.mem_append.mp ha with ha | ha
        · exact h.answers a ha
        · cases List.mem_singleton.mp ha
          have hk := hinf.knows
          rw [hst] at hk
          exact hk
      · obtain ⟨next, hnext, rfl⟩ := Option.map_eq_some_iff.mp hs
        obtain ⟨hl, hinf'⟩ := informed_step hinf hnext
        refine ⟨⟨fun u hu => ?_, h.answers⟩, hl⟩
        obtain ⟨v, hv, rfl⟩ := mem_see hu
        rcases List.mem_or_eq_of_mem_set hv with hv | rfl
        · exact (h.requests v hv).see hl
        · exact hinf'

theorem requestStep_row {caller : Caller} {outcome : Outcome} {next : Row × Stage}
    (h : requestStep op caller row now outcome stage = some next) :
    next.1 = row ∨ update op row now = some next.1 := by
  cases stage <;> simp only [requestStep] at h
  case update =>
    cases h
    cases hu : update op row now <;> cases outcome <;> simp [updateStage, hu]
  case reply => nomatch h
  case environment | teams | litellm => cases outcome <;> cases h <;> exact .inl rfl
  case reread => split at h <;> cases h <;> exact .inl rfl
  all_goals
    cases h
    exact .inl rfl

theorem unexpired_of_update (h : update op row now = some row') (ha : row'.status = .active) :
    row'.expired now = false := by
  cases op with
  | resume => exact (resume_unexpired h).2
  | suspend =>
    rw [update] at h
    split at h <;> cases h
    nomatch ha
  | revoke =>
    rw [update] at h
    split at h <;> cases h
    nomatch ha

theorem step_unexpired {act : Act} (hs : step s act = some s') (hn : s.row.status ≠ .active)
    (ha : s'.row.status = .active) : s'.row.expired s'.now = false := by
  cases act with
  | start op caller =>
    cases hs
    exact absurd ha hn
  | wait d =>
    cases hs
    exact absurd ha hn
  | drain =>
    cases hs
    have hd : (drain s.row).status = .active := ha
    rw [drain] at hd
    split at hd
    · nomatch hd
    · exact absurd hd hn
  | go i outcome =>
    rw [step] at hs
    split at hs
    · nomatch hs
    · rename_i q hq
      split at hs
      · cases hs
        exact absurd ha hn
      · obtain ⟨next, hnext, rfl⟩ := Option.map_eq_some_iff.mp hs
        have hact : next.1.status = .active := ha
        rcases requestStep_row hnext with hrow | hu
        · exact absurd (hrow ▸ hact) hn
        · exact unexpired_of_update hu hact

/-- Over every interleaving, what is answered is true: a suspend that succeeds had the row
suspended, and a resume had it active and unexpired, at some instant since it started; a conflict is
answered only for a row that is revoked or expired then. A revoked row stays revoked, and no expired
row becomes active. -/
theorem lifecycle_answers_truthful {s₀ : World} {as : List Act} (hq : s₀.requests = [])
    (ha : s₀.answers = []) (hrun : run step s₀ as = some s) :
    (∀ a ∈ s.answers, Truthful a.op a.reply a.seen a.last) ∧
      (∀ bs s', run step s bs = some s' → s.row.status = .revoked → s'.row.status = .revoked) ∧
      (∀ act s', step s act = some s' → s.row.status ≠ .active → s'.row.status = .active →
        s'.row.expired s'.now = false) := by
  have h₀ : Inv s₀ := ⟨by simp [hq], by simp [ha]⟩
  have hinv : Inv s :=
    run_preserves (fun _ _ _ h _ hs => (step_spec h hs).1) h₀ (along_trivial as s₀) hrun
  refine ⟨hinv.answers, fun bs s' hbs hr => ?_, fun act s' hs => step_unexpired hs⟩
  have hstep : ∀ s a s', Inv s ∧ s.row.status = .revoked → True → step s a = some s' →
      Inv s' ∧ s'.row.status = .revoked :=
    fun _ _ _ h _ hs => ⟨(step_spec h.1 hs).1, (step_spec h.1 hs).2.revoked h.2⟩
  exact (run_preserves hstep ⟨hinv, hr⟩ (along_trivial bs s) hbs).2

/-- Two requests to suspend a key read it at the same time; the update of the second matches no
row. -/
def twoSuspends : List Act :=
  let alice : Caller := ⟨true, true, false⟩
  [.start .suspend alice, .start .suspend alice, .go 0 .ok, .go 1 .ok, .go 0 .ok, .go 1 .ok,
    .go 0 .ok, .go 1 .ok, .go 0 .ok, .go 0 .ok, .go 0 .ok, .go 0 .ok, .go 0 .ok]

theorem second_suspend_is_true :
    ∃ s a b, run step ⟨0, ⟨.active, some 60⟩, [], []⟩ twoSuspends = some s ∧
    s.answers = [a, b] ∧ b.reply = .noContent ∧ ∃ x ∈ b.seen, x.row.status = .suspended := by
  have hrun : ∃ s a b, run step ⟨0, ⟨.active, some 60⟩, [], []⟩ twoSuspends = some s ∧
      s.answers = [a, b] ∧ b.op = .suspend ∧ b.reply = .noContent :=
    ⟨_, _, _, rfl, rfl, rfl, rfl⟩
  obtain ⟨s, a, b, hrun, hans, hop, hreply⟩ := hrun
  have h := (lifecycle_answers_truthful rfl rfl hrun).1 b (by simp [hans])
  have hg := h.granted hreply
  rw [hop] at hg
  exact ⟨s, a, b, hrun, hans, hreply, hg⟩

end Runs

end AchProofs.Keys.Lifecycle
