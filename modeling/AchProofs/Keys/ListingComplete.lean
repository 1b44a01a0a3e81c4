import AchProofs.Keys.Listing

namespace AchProofs.Keys.Listing

open Access (KeyContext hasIntersect)
open Foundation Foundation.Percent Foundation.Timestamp

/-- A key of either table. -/
inductive Key where
  | pk (k : PersonalKey)
  | ek (k : EnvironmentKey)
  deriving DecidableEq, Repr

namespace Key

def keyID : Key → KeyID
  | pk k => k.keyID
  | ek k => k.keyID

def createdAt : Key → Civil
  | pk k => k.createdAt
  | ek k => k.createdAt

def owner : Key → String
  | pk k => k.ownerEmail
  | ek k => k.ownerEmail

def kind : Key → Kind
  | pk _ => .pk
  | ek _ => .ek

def environment : Key → Option String
  | pk _ => none
  | ek k => some k.environment

def item (now : Civil) : Key → KeyListItem
  | pk k => k.item now
  | ek k => k.item now

end Key

def Database.keys (db : Database) : List Key :=
  db.personalKeys.map Key.pk ++ db.environmentKeys.map Key.ek

def Holds (d : Deps) (owner env : String) : Prop :=
  ∃ teams authorizedTeams, d.lookupCallerTeams owner = some teams ∧
    d.getEnvironment env = some (some authorizedTeams) ∧ ∃ t ∈ teams, t ∈ authorizedTeams

/-- The teams or the Environment cannot be read. -/
def Unverifiable (d : Deps) (owner env : String) : Prop :=
  d.lookupCallerTeams owner = none ∨ d.getEnvironment env = none

def access (d : Deps) (owner env : String) : Verdict :=
  match d.lookupCallerTeams owner with
  | none => .unverified
  | some teams => verdict d teams env

theorem access_ne_lost_iff {d : Deps} {owner env : String} :
    access d owner env ≠ .lost ↔ Holds d owner env ∨ Unverifiable d owner env := by
  cases ht : d.lookupCallerTeams owner with
  | none => simp [access, Unverifiable, ht]
  | some teams =>
    cases he : d.getEnvironment env with
    | none => simp [access, verdict, Unverifiable, ht, he]
    | some row =>
      cases row with
      | none => simp [access, verdict, Holds, Unverifiable, ht, he]
      | some authorizedTeams =>
        have hmeet :
            hasIntersect authorizedTeams teams = true ↔ ∃ t ∈ teams, t ∈ authorizedTeams := by
          simp [hasIntersect]
        cases hi : hasIntersect authorizedTeams teams with
        | true =>
          have := hmeet.mp hi
          simp [access, verdict, Holds, ht, he, hi, this]
        | false =>
          have hno : ¬ ∃ t ∈ teams, t ∈ authorizedTeams := fun h => by
            rw [hmeet.mpr h] at hi
            exact nomatch hi
          simp only [access, ht, verdict, he, hi, Holds, Unverifiable, Bool.false_eq_true, if_false,
            ne_eq, not_true_eq_false, false_iff, not_or, Option.some.injEq, reduceCtorEq,
            not_false_eq_true, and_self, and_true]
          rintro ⟨_, _, rfl, rfl, h⟩
          exact hno h

/-- The state of a key: revoked before expired before suspended before invalid. -/
def Key.effective (d : Deps) : Key → Status
  | .pk k =>
    match k.status with
    | .revoked => .revoked
    | .expired => .expired
    | .active => if d.now < k.expiresAt ∧ d.now < k.createdAt.addDays 90 then .active else .expired
  | .ek k =>
    if k.status = .revoked then .revoked
    else if k.expired d.now then .expired
    else if k.status = .suspended then .suspended
    else if access d k.ownerEmail k.environment = .lost then .invalid
    else .active

def Key.access (d : Deps) : Key → Verdict
  | .pk _ => .granted
  | .ek k => Listing.access d k.ownerEmail k.environment

theorem effectiveState_item (d : Deps) (k : Key) :
    (effectiveState (k.item d.now) (k.access d)).1 = k.effective d := by
  cases k with
  | pk k =>
    have hexpired : min k.expiresAt (k.createdAt.addDays 90) ≤ d.now ↔
        ¬ (d.now < k.expiresAt ∧ d.now < k.createdAt.addDays 90) := by
      rw [min_le_iff, not_and_or, not_lt, not_lt]
    cases hs : k.status with
    | active =>
      by_cases hlive : d.now < k.expiresAt ∧ d.now < k.createdAt.addDays 90
      · simp [effectiveState, Key.item, PersonalKey.item, Key.effective, hs, hlive, PkStatus.listed]
      · simp only [effectiveState, Key.item, PersonalKey.item, Key.effective, hs, hexpired, hlive]
        simp
    | revoked => simp [effectiveState, Key.item, PersonalKey.item, Key.effective, hs,
        PkStatus.listed]
    | expired => simp [effectiveState, Key.item, PersonalKey.item, Key.effective, hs,
        PkStatus.listed]
  | ek k =>
    cases hx : k.expired d.now with
    | true =>
      cases hs : k.status <;>
        simp [effectiveState, Key.item, EnvironmentKey.item, Key.effective, hs, hx, EkStatus.listed]
    | false =>
      cases hs : k.status with
      | active =>
        by_cases hl : Listing.access d k.ownerEmail k.environment = .lost
        · simp [effectiveState, Key.item, EnvironmentKey.item, Key.effective, Key.access, hs, hx,
            hl, EkStatus.listed]
        · simp [effectiveState, Key.item, EnvironmentKey.item, Key.effective, Key.access, hs, hx,
            hl, EkStatus.listed]
      | suspended =>
        simp [effectiveState, Key.item, EnvironmentKey.item, Key.effective, hs, hx, EkStatus.listed]
      | revoked =>
        simp [effectiveState, Key.item, EnvironmentKey.item, Key.effective, hs, hx, EkStatus.listed]

section Verdicts

variable {d : Deps} {teams : List String} {out : List (String × Verdict)} {items : List KeyListItem}
  {env : String}

theorem accessLoop_spec (h : ∀ e ∈ out, e.2 = verdict d teams e.1) :
    (∀ e ∈ accessLoop d teams out items, e.2 = verdict d teams e.1) ∧
      ∀ env, ((∃ e ∈ out, e.1 = env) ∨ ∃ it ∈ items, it.kind = .ek ∧ it.environment = some env) →
        ∃ e ∈ accessLoop d teams out items, e.1 = env := by
  induction items generalizing out with
  | nil =>
    refine ⟨h, fun env hm => ?_⟩
    rcases hm with hm | ⟨it, hit, -⟩
    · exact hm
    · exact absurd hit List.not_mem_nil
  | cons it items ih =>
    -- an item that adds nothing: not an environment key, or one whose Environment is known
    have hskip : (it.kind = .ek → ∀ env, it.environment = some env → ∃ e ∈ out, e.1 = env) →
        (∀ e ∈ accessLoop d teams out items, e.2 = verdict d teams e.1) ∧
          ∀ env, ((∃ e ∈ out, e.1 = env) ∨
            ∃ it' ∈ it :: items, it'.kind = .ek ∧ it'.environment = some env) →
            ∃ e ∈ accessLoop d teams out items, e.1 = env := by
      intro hknown
      obtain ⟨hall, hmem⟩ := ih h
      refine ⟨hall, fun env hm => hmem env ?_⟩
      rcases hm with hm | ⟨it', hit', hek, henv⟩
      · exact .inl hm
      · rcases List.mem_cons.mp hit' with rfl | hrest
        · exact .inl (hknown hek env henv)
        · exact .inr ⟨it', hrest, hek, henv⟩
    cases hk : it.kind with
    | pk =>
      simp only [accessLoop, hk]
      exact hskip fun hek => (nomatch hk.symm.trans hek)
    | ek =>
      cases he : it.environment with
      | none =>
        simp only [accessLoop, hk, he]
        exact hskip fun _ env henv => (nomatch he.symm.trans henv)
      | some env₀ =>
        simp only [accessLoop, hk, he]
        split_ifs with hdone
        · refine hskip fun _ env henv => ?_
          obtain rfl := Option.some.inj (he.symm.trans henv)
          obtain ⟨e, hmem, hname⟩ := List.any_eq_true.mp hdone
          exact ⟨e, hmem, of_decide_eq_true hname⟩
        · have hout : ∀ e ∈ out ++ [(env₀, verdict d teams env₀)], e.2 = verdict d teams e.1 := by
            intro e hmem
            rcases List.mem_append.mp hmem with hold | hnew
            · exact h e hold
            · obtain rfl := List.mem_singleton.mp hnew
              rfl
          obtain ⟨hall, hmem⟩ := ih hout
          refine ⟨hall, fun env hm => hmem env ?_⟩
          rcases hm with ⟨e, hold, hname⟩ | ⟨it', hit', hek, henv⟩
          · exact .inl ⟨e, List.mem_append_left _ hold, hname⟩
          · rcases List.mem_cons.mp hit' with rfl | hrest
            · obtain rfl := Option.some.inj (he.symm.trans henv)
              exact .inl ⟨_, List.mem_append_right _ (List.mem_singleton_self _), rfl⟩
            · exact .inr ⟨it', hrest, hek, henv⟩

theorem verdictAt_eq {verdicts : List (String × Verdict)} {f : String → Verdict} {it : KeyListItem}
    (hall : ∀ e ∈ verdicts, e.2 = f e.1) (hmem : ∃ e ∈ verdicts, e.1 = env)
    (henv : it.environment = some env) : verdictAt verdicts it = f env := by
  obtain ⟨e, he, hname⟩ := hmem
  cases hfind : verdicts.find? (fun e => e.1 = it.environment.getD "") with
  | none =>
    have hno := List.find?_eq_none.mp hfind e he
    rw [henv] at hno
    exact absurd (decide_eq_true hname) hno
  | some e' =>
    have hname' := of_decide_eq_true (List.find?_some hfind :)
    rw [henv, Option.getD_some] at hname'
    rw [verdictAt, hfind, Option.map_some, Option.getD_some,
      hall e' (List.mem_of_find?_eq_some hfind), hname']

theorem verdictAt_page {owner : String} {it : KeyListItem} (hit : it ∈ items) (hek : it.kind = .ek)
    (henv : it.environment = some env) :
    verdictAt (accessByEnvironment d owner items) it = access d owner env := by
  have hany : items.any (fun it => it.kind = .ek && it.environment.isSome) = true :=
    List.any_eq_true.mpr ⟨it, hit, by simp [hek, henv]⟩
  rw [accessByEnvironment, if_pos hany, access]
  cases d.lookupCallerTeams owner with
  | none =>
    refine verdictAt_eq (f := fun _ => .unverified) (fun e he => ?_) ?_ henv
    · obtain ⟨env', -, rfl⟩ := List.mem_map.mp he
      rfl
    · have hmem : env ∈ items.filterMap KeyListItem.environment :=
        List.mem_filterMap.mpr ⟨it, hit, henv⟩
      exact ⟨(env, .unverified), List.mem_map.mpr ⟨env, hmem, rfl⟩, rfl⟩
  | some teams =>
    obtain ⟨hall, hmem⟩ :=
      @accessLoop_spec d teams [] items (fun e he => absurd he List.not_mem_nil)
    exact verdictAt_eq hall (hmem env (.inr ⟨it, hit, hek, henv⟩)) henv

theorem effectiveState_page {k : Key} {owner : String} (hk : k.item d.now ∈ items)
    (howner : k.owner = owner) :
    effectiveState (k.item d.now) (verdictAt (accessByEnvironment d owner items) (k.item d.now)) =
      effectiveState (k.item d.now) (k.access d) := by
  cases k with
  | pk k => rfl
  | ek k =>
    subst howner
    have hverdict : verdictAt (accessByEnvironment d k.ownerEmail items) (k.item d.now) =
      access d k.ownerEmail k.environment := verdictAt_page hk rfl rfl
    exact congrArg (effectiveState (k.item d.now)) hverdict

end Verdicts

section Cursor

theorem cutAt_append {sep : UInt8} {s : Bytes} (h : sep ∉ s) (rest : Bytes) :
    cutAt sep (s ++ sep :: rest) = some (s, rest) := by
  have hall : ∀ b ∈ s, decide (b ≠ sep) = true := fun b hb => by
    have hne : b ≠ sep := fun he => h (he ▸ hb)
    simpa using hne
  rw [cutAt, if_pos (List.mem_append_right _ List.mem_cons_self),
    List.takeWhile_append_of_pos hall, List.dropWhile_append_of_pos hall,
    List.takeWhile_cons_of_neg (by simp), List.dropWhile_cons_of_neg (by simp), List.append_nil,
    List.tail_cons]

theorem encodeCursor_ne_nil (t : Civil) (id : KeyID) : encodeCursor t id ≠ [] := by
  intro h
  have hdecode := Base64.decode_encode (t.formatRFC3339Nano ++ nul :: id.text)
  rw [← encodeCursor, h] at hdecode
  have hnil : Base64.decode [] = some [] := rfl
  have hraw := Option.some.inj (hnil.symm.trans hdecode)
  exact absurd hraw.symm (List.append_ne_nil_of_right_ne_nil _ (List.cons_ne_nil _ _))

theorem decodeCursor_encodeCursor {t : Civil} (h : Clocked t) (id : KeyID) :
    decodeCursor (encodeCursor t id) = some (t, id) := by
  have hnul : nul ∉ t.formatRFC3339Nano := Civil.not_mem_format (by decide) (by decide) t
  rw [decodeCursor, if_neg (encodeCursor_ne_nil t id), encodeCursor, Base64.decode_encode]
  simp only [Option.bind_eq_bind, Option.bind_some, cutAt_append hnul,
    Civil.parse_format h.valid h.year_lt]

theorem Clocked.ne_zeroTime {t : Civil} (h : Clocked t) : t ≠ zeroTime := by
  rintro rfl
  exact absurd h.year_ge (by decide)

end Cursor

section Order

def Key.position (k : Key) : Civil ×ₗ KeyID := toLex (k.createdAt, k.keyID)

theorem item_position (now : Civil) (k : Key) : (k.item now).position = k.position := by
  cases k <;> rfl

theorem combined_eq (db : Database) (now : Civil) :
    combined db now = db.keys.map (Key.item now) := by
  rw [combined, Database.keys, List.map_append, List.map_map, List.map_map]
  rfl

theorem nodup_keyIDs (db : Database) : (db.keys.map Key.keyID).Nodup := by
  rw [Database.keys, List.map_append, List.map_map, List.map_map]
  refine List.nodup_append.mpr ⟨db.pk_ids, db.ek_ids, ?_⟩
  rintro id hpk id' hek rfl
  obtain ⟨k, hk, rfl⟩ := List.mem_map.mp hpk
  obtain ⟨k', hk', hid⟩ := List.mem_map.mp hek
  obtain ⟨s, hs⟩ := db.pk_like k hk
  obtain ⟨s', hs'⟩ := db.ek_like k' hk'
  have htext : k'.keyID.text = k.keyID.text := congrArg KeyID.text hid
  rw [← hs, ← hs'] at htext
  exact absurd (List.head_eq_of_cons_eq htext) (by decide)

theorem clocked_of_mem {db : Database} {k : Key} (h : k ∈ db.keys) : Clocked k.createdAt := by
  rcases List.mem_append.mp h with hpk | hek
  · obtain ⟨k, hk, rfl⟩ := List.mem_map.mp hpk
    exact db.pk_clocked k hk
  · obtain ⟨k, hk, rfl⟩ := List.mem_map.mp hek
    exact db.ek_clocked k hk

theorem eq_of_position {db : Database} {a b : Key} (ha : a ∈ db.keys) (hb : b ∈ db.keys)
    (h : a.position = b.position) : a = b := by
  have hid : a.keyID = b.keyID := (Prod.ext_iff.mp (toLex.injective h)).2
  exact List.inj_on_of_nodup_map (nodup_keyIDs db) ha hb hid

variable [LinearOrder KeyID]

def Database.sorted (db : Database) (p : Key → Bool) : List Key :=
  (db.keys.filter p).mergeSort (fun a b => decide (b.position ≤ a.position))

theorem mem_sorted {db : Database} {p : Key → Bool} {k : Key} :
    k ∈ db.sorted p ↔ k ∈ db.keys ∧ p k = true := by
  rw [Database.sorted, List.mem_mergeSort, List.mem_filter]

theorem pairwise_sorted (db : Database) (p : Key → Bool) :
    (db.sorted p).Pairwise (fun a b => b.position ≤ a.position) := by
  have hsort : (db.sorted p).Pairwise (fun a b => decide (b.position ≤ a.position) = true) := by
    refine List.pairwise_mergeSort (fun a b c hab hbc => ?_) (fun a b => ?_) _
    · exact decide_eq_true ((of_decide_eq_true hbc).trans (of_decide_eq_true hab))
    · simpa using le_total b.position a.position
  exact hsort.imp fun h => of_decide_eq_true h

theorem descending_sorted (db : Database) (p : Key → Bool) :
    Paging.Descending Key.position (db.sorted p) := by
  have hnodup : (db.sorted p).Nodup :=
    (List.mergeSort_perm _ _).nodup_iff.mpr ((nodup_keyIDs db).of_map.filter p)
  refine ((pairwise_sorted db p).and hnodup).imp_of_mem fun ha hb h => lt_of_le_of_ne h.1 fun he =>
    ?_
  exact h.2 (eq_of_position (mem_sorted.mp hb).1 (mem_sorted.mp ha).1 he).symm

theorem sorted_and (db : Database) (p p' : Key → Bool) :
    db.sorted (fun k => p k && p' k) = (db.sorted p).filter p' := by
  have hperm : List.Perm (db.sorted (fun k => p k && p' k)) ((db.sorted p).filter p') := by
    refine (List.mergeSort_perm _ _).trans ?_
    rw [← List.filter_filter, List.filter_comm]
    exact ((List.mergeSort_perm _ _).filter p').symm
  refine hperm.eq_of_pairwise (fun a b ha hb hab hba => ?_) (pairwise_sorted db _)
    ((pairwise_sorted db p).filter p')
  exact eq_of_position (mem_sorted.mp ha).1 (mem_sorted.mp (List.mem_of_mem_filter hb)).1
    (le_antisymm hba hab)

end Order

section Pages

variable [LinearOrder KeyID] {d : Deps} {kc : KeyContext} {q : Query} {limit : ℤ}

/-- The request is one that is answered with a page of so many rows. -/
structure Accepted (kc : KeyContext) (q : Query) (limit : ℤ) : Prop where
  keyType : kc.keyType = .pk
  limit : parseLimit q.limit = .ok limit
  status : q.status = "" ∨ ∃ s : Status, s.name = q.status

/-- The rows that the query selects, before the state is looked at. -/
def selects (d : Deps) (kc : KeyContext) (q : Query) (k : Key) : Bool :=
  KeyListFilter.passes ⟨some kc.ownerEmail, normalizeKeyType q.kind, normalizeKeyStatus q.status,
    q.environment⟩ (k.item d.now)

def Key.row (d : Deps) (k : Key) : KeyListRow :=
  keyRow (k.item d.now) (effectiveState (k.item d.now) (k.access d)).1
    (effectiveState (k.item d.now) (k.access d)).2

def shown (d : Deps) (q : Query) (k : Key) : Option KeyListRow :=
  if (wantStatus q.status).any (fun s => k.effective d ≠ s) then none else some (k.row d)

omit [LinearOrder KeyID] in
theorem clampLimit_pos (limit : ℤ) : 0 < clampLimit limit := by
  rw [clampLimit]
  split_ifs <;> omega

omit [LinearOrder KeyID] in
theorem wantStatus_eq_some_iff {v : String} {s : Status} : wantStatus v = some s ↔ s.name = v := by
  constructor
  · intro h
    exact of_decide_eq_true (List.find?_some h :)
  · rintro rfl
    cases s <;> rfl

omit [LinearOrder KeyID] in
theorem selects_iff {k : Key} : selects d kc q k = true ↔ k.owner = kc.ownerEmail ∧
    (normalizeKeyType q.kind = none ∨ normalizeKeyType q.kind = some k.kind) ∧
    (normalizeKeyStatus q.status = none ∨ normalizeKeyStatus q.status =
      some (k.item d.now).status) ∧
    (q.environment = "" ∨ k.environment = some q.environment) := by
  have howner : (k.item d.now).ownerEmail = k.owner := by cases k <;> rfl
  have hkind : (k.item d.now).kind = k.kind := by cases k <;> rfl
  have henv : (k.item d.now).environment = k.environment := by cases k <;> rfl
  simp only [selects, KeyListFilter.passes, Bool.and_eq_true, Bool.or_eq_true, decide_eq_true_eq,
    reduceCtorEq, false_or, Option.some.injEq, howner, hkind, henv, and_assoc]
  exact and_congr_left fun _ => eq_comm

theorem query_eq (cursor : Civil × KeyID) :
    query d.db d.now ⟨some kc.ownerEmail, normalizeKeyType q.kind, normalizeKeyStatus q.status,
        q.environment⟩ cursor =
      ((d.db.sorted (selects d kc q)).filter (Paging.below Key.position
        (if cursor.1 = zeroTime then none else some (toLex cursor)))).map (Key.item d.now) := by
  have hfilter :
      ∀ after, (fun it => KeyListFilter.passes ⟨some kc.ownerEmail, normalizeKeyType q.kind,
      normalizeKeyStatus q.status,
      q.environment⟩ it && Paging.below KeyListItem.position after it) ∘
        Key.item d.now = fun k => selects d kc q k && Paging.below Key.position after k :=
          fun after => by
    funext k
    cases after with
    | none => rfl
    | some c => simp only [Function.comp_apply, Paging.below, item_position, selects]
  rw [← sorted_and, Database.sorted,
    List.map_mergeSort (s := fun a b => decide (b.position ≤ a.position))]
  · rw [query, combined_eq, List.filter_map, hfilter]
  · intro a _ b _
    rw [item_position, item_position]

def keyPage (d : Deps) (kc : KeyContext) (q : Query) (limit : ℤ) (c : Civil × KeyID) :
    List Key × Option (Civil ×ₗ KeyID) :=
  Paging.cut Key.position (clampLimit limit) (((d.db.sorted (selects d kc q)).filter
    (Paging.below Key.position (if c.1 = zeroTime then none else some (toLex c)))).take
      (clampLimit limit + 1))

theorem selects_of_mem_page {c : Civil × KeyID} {k : Key} (h : k ∈ (keyPage d kc q limit c).1) :
    selects d kc q k = true := by
  have hsub : (keyPage d kc q limit c).1.Sublist (d.db.sorted (selects d kc q)) :=
    (Paging.cut_sublist _ _).trans ((List.take_sublist _ _).trans List.filter_sublist)
  exact (mem_sorted.mp (hsub.subset h)).2

theorem fetch_eq (h : Accepted kc q limit) {cursor : Bytes} {c : Civil × KeyID}
    (hc : decodeCursor cursor = some c) :
    fetch d kc q cursor = some ((keyPage d kc q limit c).1.filterMap (shown d q),
      (keyPage d kc q limit c).2.map (fun p => encodeCursor (ofLex p).1 (ofLex p).2)) := by
  have hstatus : ¬ (q.status ≠ "" ∧ wantStatus q.status = none) := by
    rintro ⟨hne, hnone⟩
    obtain hempty | ⟨s, hs⟩ := h.status
    · exact hne hempty
    · rw [wantStatus_eq_some_iff.mpr hs] at hnone
      exact nomatch hnone
  have hlist : listKeys d.db d.now ⟨some kc.ownerEmail, normalizeKeyType q.kind,
      normalizeKeyStatus q.status, q.environment⟩ limit cursor =
      some ((keyPage d kc q limit c).1.map (Key.item d.now), ((keyPage d kc q limit c).2.map
        (fun p => encodeCursor (ofLex p).1 (ofLex p).2)).getD []) := by
    have hposition : KeyListItem.position ∘ Key.item d.now = Key.position :=
      funext (item_position d.now)
    rw [listKeys, hc, Option.map_some, query_eq, ← List.map_take, Paging.cut_map, hposition]
    rfl
  simp only [fetch, listAllHandler, h.keyType, ne_eq, not_true_eq_false, if_false, h.limit, hstatus,
    hlist, List.filterMap_map]
  refine congrArg some (Prod.ext (List.filterMap_congr fun k hk => ?_) ?_)
  · have hmem : k.item d.now ∈ (keyPage d kc q limit c).1.map (Key.item d.now) :=
      List.mem_map_of_mem hk
    have hstate := effectiveState_page hmem (selects_iff.mp (selects_of_mem_page hk)).1
    simp only [Function.comp_apply, hstate, effectiveState_item, shown, Key.row, ne_eq]
  · cases (keyPage d kc q limit c).2 with
    | none => rfl
    | some p => exact if_neg (encodeCursor_ne_nil _ _)

/-- Where a cursor stands: behind it are these keys, the last ones of all. -/
def Stands (d : Deps) (kc : KeyContext) (q : Query) (cursor : Bytes) (rest : List Key) : Prop :=
  ∃ c n, decodeCursor cursor = some c ∧ rest = (d.db.sorted (selects d kc q)).drop n ∧
    (d.db.sorted (selects d kc q)).filter
      (Paging.below Key.position (if c.1 = zeroTime then none else some (toLex c))) = rest

theorem stands_first : Stands d kc q [] (d.db.sorted (selects d kc q)) := by
  refine ⟨(zeroTime, ⟨[]⟩), 0, rfl, rfl, ?_⟩
  rw [if_pos rfl]
  exact List.filter_eq_self.mpr fun _ _ => rfl

theorem fetch_of_stands (h : Accepted kc q limit) {cursor : Bytes} {rest : List Key}
    (hs : Stands d kc q cursor rest) :
    fetch d kc q cursor = some (rest.filterMap (shown d q), none) ∨
      ∃ k cursor', 0 < k ∧ k < rest.length ∧
        fetch d kc q cursor = some ((rest.take k).filterMap (shown d q), some cursor') ∧
        Stands d kc q cursor' (rest.drop k) := by
  obtain ⟨c, n, hc, rfl, hrest⟩ := hs
  rw [fetch_eq h hc, keyPage, hrest]
  obtain hlast | ⟨x, hx, hcut, hlong, hbelow⟩ := Paging.cut_spec
    (descending_sorted d.db (selects d kc q)) (clampLimit_pos limit) n
  · rw [hlast]
    exact .inl rfl
  · right
    have hclocked := clocked_of_mem (mem_sorted.mp hx).1
    refine ⟨clampLimit limit, encodeCursor x.createdAt x.keyID, clampLimit_pos limit, ?_, ?_,
      (x.createdAt, x.keyID), n + clampLimit limit, decodeCursor_encodeCursor hclocked _, ?_, ?_⟩
    · rw [List.length_drop]
      omega
    · rw [hcut]
      rfl
    · rw [List.drop_drop]
    · rw [if_neg hclocked.ne_zeroTime, List.drop_drop]
      exact hbelow

/-- The keys that a request asks for. -/
structure Key.Wanted (d : Deps) (kc : KeyContext) (q : Query) (k : Key) : Prop where
  owner : k.owner = kc.ownerEmail
  kind : normalizeKeyType q.kind = none ∨ normalizeKeyType q.kind = some k.kind
  status : q.status = "" ∨ (k.effective d).name = q.status
  environment : q.environment = "" ∨ k.environment = some q.environment

omit [LinearOrder KeyID] in
theorem effective_eq_or (d : Deps) (k : Key) :
    k.effective d = (k.item d.now).status ∨ k.effective d = .invalid := by
  rw [← effectiveState_item]
  simp only [effectiveState]
  split_ifs with _ hrevoked
  all_goals first
    | exact .inl rfl
    | exact .inr rfl
    | exact .inl hrevoked.symm

omit [LinearOrder KeyID] in
theorem wanted_iff (h : Accepted kc q limit) (k : Key) :
    k.Wanted d kc q ↔ selects d kc q k = true ∧
      (wantStatus q.status).any (fun s => k.effective d ≠ s) = false := by
  rw [selects_iff]
  cases hw : wantStatus q.status with
  | none =>
    have hempty : q.status = "" := by
      obtain hempty | ⟨s, hs⟩ := h.status
      · exact hempty
      · exact nomatch hw.symm.trans (wantStatus_eq_some_iff.mpr hs)
    have hnorm : normalizeKeyStatus q.status = none :=
      by rw [normalizeKeyStatus, hw, Option.filter_none]
    constructor
    · intro hk
      exact ⟨⟨hk.owner, hk.kind, .inl hnorm, hk.environment⟩, rfl⟩
    · rintro ⟨⟨howner, hkind, -, henv⟩, -⟩
      exact ⟨howner, hkind, .inl hempty, henv⟩
  | some s =>
    have hs := wantStatus_eq_some_iff.mp hw
    have hany : (some s).any (fun s => k.effective d ≠ s) = false ↔ k.effective d = s := by
      simp [Option.any_some]
    rw [hany]
    constructor
    · intro hk
      have heff : k.effective d = s := by
        obtain hempty | hname := hk.status
        · exact absurd (hs.trans hempty) (by cases s <;> decide)
        · exact Option.some.inj ((wantStatus_eq_some_iff.mpr hname).symm.trans hw)
      refine ⟨⟨hk.owner, hk.kind, ?_, hk.environment⟩, heff⟩
      rw [normalizeKeyStatus, hw]
      obtain hitem | hinvalid := effective_eq_or d k
      · by_cases hne : s = .invalid
        · exact .inl (by simp [Option.filter, hne])
        · exact .inr (by simp [Option.filter, hne, ← hitem, heff])
      · exact .inl (by simp [Option.filter, ← heff, hinvalid])
    · rintro ⟨⟨howner, hkind, -, henv⟩, heff⟩
      exact ⟨howner, hkind, .inr (by rw [heff, hs]), henv⟩

/-- Following the cursors from the first page to the last shows the keys that are asked for, newest
first. -/
theorem follow_fetch (h : Accepted kc q limit) {n : ℕ}
    (hn : (d.db.sorted (selects d kc q)).length < n) :
    Paging.follow (fetch d kc q) n [] =
      some (((d.db.sorted (selects d kc q)).filter (fun k =>
        !(wantStatus q.status).any (fun s => k.effective d ≠ s))).map (Key.row d)) := by
  rw [Paging.follow_eq (fun _ _ => fetch_of_stands h) hn stands_first]
  refine congrArg some ?_
  induction d.db.sorted (selects d kc q) with
  | nil => rfl
  | cons k ks ih =>
    cases hk : (wantStatus q.status).any (fun s => k.effective d ≠ s) with
    | true =>
      have hnone : shown d q k = none := if_pos hk
      rw [List.filterMap_cons_none hnone, List.filter_cons_of_neg (by rw [hk]; decide), ih]
    | false =>
      have hsome : shown d q k = some (k.row d) := if_neg (by rw [hk]; decide)
      rw [List.filterMap_cons_some hsome, List.filter_cons_of_pos (by rw [hk]; rfl), List.map_cons,
        ih]

end Pages

theorem row_status (d : Deps) (k : Key) :
    (k.row d).status = k.effective d := effectiveState_item d k

theorem effective_pk_iff {d : Deps} {k : PersonalKey} (h : k ∈ d.db.personalKeys) :
    (Key.pk k).effective d = .active ↔ (pkCheckAndExtend d.db d.now k.credentialHash).isSome := by
  have hcandidate : (Key.pk k).effective d = .active ↔ k.candidate d.now = true := by
    simp only [Key.effective, PersonalKey.candidate, Bool.and_eq_true, decide_eq_true_eq, and_assoc]
    cases k.status with
    | active =>
      by_cases hlive : d.now < k.expiresAt ∧ d.now < k.createdAt.addDays 90
      · simp [hlive]
      · simp [hlive]
    | revoked => simp
    | expired => simp
  rw [hcandidate, pkCheckAndExtend, List.find?_isSome]
  constructor
  · intro hc
    exact ⟨k, h, Bool.and_eq_true_iff.mpr ⟨decide_eq_true rfl, hc⟩⟩
  · rintro ⟨k', hk', hfound⟩
    obtain ⟨hhash, hc⟩ := Bool.and_eq_true_iff.mp hfound
    obtain rfl := List.inj_on_of_nodup_map d.db.pk_hashes hk' h (of_decide_eq_true hhash)
    exact hc

theorem effective_ek_iff {d : Deps} {k : EnvironmentKey} :
    (Key.ek k).effective d = .active ↔ k.status ≠ .suspended ∧ k.status ≠ .revoked ∧
      (∀ t, k.expiresAt = some t → d.now < t) ∧
      (Holds d k.ownerEmail k.environment ∨ Unverifiable d k.ownerEmail k.environment) := by
  have hexpired : k.expired d.now = false ↔ ∀ t, k.expiresAt = some t → d.now < t := by
    rw [EnvironmentKey.expired]
    cases k.expiresAt with
    | none => simp
    | some t => simp
  rw [← access_ne_lost_iff, ← hexpired, Key.effective]
  by_cases hr : k.status = .revoked
  · simp [hr]
  cases hx : k.expired d.now with
  | true => simp [hr]
  | false =>
    by_cases hs : k.status = .suspended
    · simp [hs]
    by_cases hl : access d k.ownerEmail k.environment = .lost
    · simp [hr, hs, hl]
    · simp [hr, hs, hl]

section Main

variable [LinearOrder KeyID]

end Main

section TwoKeys

/-- The order of the bytes, which is that of the C collation. -/
@[reducible] def byteOrder : LinearOrder KeyID :=
  LinearOrder.lift' (fun id => id.text.map UInt8.toNat) (fun a b h => by
    have hinj : Function.Injective UInt8.toNat := fun _ _ => UInt8.toNat_inj.mp
    exact congrArg KeyID.mk (List.map_injective_iff.mpr hinj h))

def noon (day : ℕ) : Civil := ⟨2026, 3, day, 12, 0, 0, 0⟩

def livePk : PersonalKey :=
  ⟨⟨pkid ++ [0x5f, 0x31]⟩, [1], "ada", .active, noon 1, none, noon 8, none⟩

def strandedEk : EnvironmentKey :=
  ⟨⟨ekid ++ [0x5f, 0x31]⟩, "lab", "ada", "ci", .active, noon 1, none, none, none⟩

theorem clocked_noon_one : Clocked (noon 1) := ⟨by decide, by decide, by decide⟩

/-- One key of each kind, of one moment. The owner is in no team that the Environment is open to. -/
def twoKeys : Deps where
  db := {
    personalKeys := [livePk]
    environmentKeys := [strandedEk]
    pk_ids := List.nodup_singleton _
    pk_hashes := List.nodup_singleton _
    pk_like := fun k hk => by
      obtain rfl := List.mem_singleton.mp hk
      exact List.prefix_append _ _
    pk_clocked := fun k hk => by
      obtain rfl := List.mem_singleton.mp hk
      exact clocked_noon_one
    ek_ids := List.nodup_singleton _
    ek_like := fun k hk => by
      obtain rfl := List.mem_singleton.mp hk
      exact List.prefix_append _ _
    ek_clocked := fun k hk => by
      obtain rfl := List.mem_singleton.mp hk
      exact clocked_noon_one }
  now := noon 2
  lookupCallerTeams := fun _ => some ["run"]
  getEnvironment := fun _ => some (some ["lab"])

def ada : KeyContext := ⟨.pk, "ada", "", false⟩

def activeOnly : Query := ⟨.number 1, "active", "", ""⟩

end TwoKeys

end AchProofs.Keys.Listing
