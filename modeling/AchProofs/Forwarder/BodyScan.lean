import AchProofs.Forwarder.BodyTags

namespace AchProofs.Forwarder

open Foundation Foundation.Percent Foundation.Search
  Foundation.Text Foundation.Json

theorem ok_of_bind {ε α β : Type} {x : Except ε α} {f : α → Except ε β} {b : β}
    (h : (x >>= f) = .ok b) : ∃ a, x = .ok a ∧ f a = .ok b :=
  match x, h with
  | .ok a, h => ⟨a, rfl, h⟩

variable {β : Type}

/-- A metadata value that the scan lets pass as it is. -/
def MetaClean (w : Wire β) (v : Json) : Prop :=
  match metaRead w v with
  | some sub => lookup tagsKey sub = none ∧ ∀ p ∈ refusedMetaParams, lookup p sub = none
  | none => ∀ s, v.asString = some s → trimSpace s = []

/-- A map that the scan lets pass as it is. -/
structure Clean (w : Wire β) (m : Members) : Prop where
  tags : lookup tagsKey m = none
  params : refuseParams m = false
  metadata : ∀ k ∈ metaKeys, ∀ v, lookup k m = some v → MetaClean w v

/-- What the scan may do to a metadata value: drop its tags, and write it as an object. -/
def MetaKept (w : Wire β) (v v' : Json) : Prop :=
  v' = v ∨ ∃ sub sub', metaRead w v = some sub ∧ v' = .obj sub' ∧
    ∀ k, k ≠ tagsKey → lookup k sub' = lookup k sub

/-- What the scan may do to a map: every member outside the given ones keeps its value, the
metadata members but for their tags. -/
structure Kept (w : Wire β) (outside : List Bytes) (m m' : Members) : Prop where
  same : ∀ k, k ≠ tagsKey → k ∉ metaKeys → k ∉ outside → lookup k m' = lookup k m
  metadata : ∀ k ∈ metaKeys, Option.Rel (MetaKept w) (lookup k m) (lookup k m')

/-- A body that the scan lets pass as it is. -/
structure CleanBody (w : Wire β) (ms : Members) : Prop where
  top : Clean w ms
  params : ∀ ps, (lookup paramsKey ms).bind Json.asMap = some ps → Clean w ps

structure KeptBody (w : Wire β) (ms ms' : Members) : Prop where
  top : Kept w [paramsKey] ms ms'
  params : lookup paramsKey ms' = lookup paramsKey ms ∨
    ∃ ps ps', (lookup paramsKey ms).bind Json.asMap = some ps ∧
      lookup paramsKey ms' = some (.obj ps') ∧ Kept w [] ps ps'

theorem metaRead_obj (w : Wire β) (sub : Members) : metaRead w (.obj sub) = some (lastOnly sub) :=
  rfl

variable {w : Wire β} {c : Bool} {k : Bytes} {m m' n : Members} {b : β} {body body' : Option β}
  {h : Header} {uni : Unicode}

theorem metaClean_obj {sub : Members} (ht : lookup tagsKey sub = none)
    (hp : ∀ p ∈ refusedMetaParams, lookup p sub = none) : MetaClean w (.obj sub) := by
  simp only [MetaClean, metaRead_obj, lookup_lastOnly]
  exact ⟨ht, hp⟩

theorem stripMeta_cases (h : stripMeta w m k = .ok (m', c)) :
    (c = false ∧ m' = m ∧ ∀ v, lookup k m = some v → MetaClean w v) ∨
      (c = true ∧ ∃ v sub, lookup k m = some v ∧ metaRead w v = some sub ∧
        (∀ p ∈ refusedMetaParams, lookup p sub = none) ∧
        m' = assign k (.obj (erase tagsKey sub)) m) := by
  unfold stripMeta at h
  split at h
  · rename_i hl
    cases h
    exact .inl ⟨rfl, rfl, fun v hv => by rw [hl] at hv; cases hv⟩
  · rename_i v hl
    split at h
    · rename_i hr
      split at h
      · cases h
      · rename_i hs
        cases h
        refine .inl ⟨rfl, rfl, fun v' hv' => ?_⟩
        obtain rfl : v = v' := Option.some.inj (hl.symm.trans hv')
        simp only [MetaClean, hr]
        intro s hs'
        by_contra hne
        exact hs (by simp [hs', hne])
    · rename_i sub hr
      split at h
      · cases h
      · rename_i hp
        have hnone : ∀ p ∈ refusedMetaParams, lookup p sub = none := by simpa using hp
        split at h
        · rename_i ht
          cases h
          refine .inl ⟨rfl, rfl, fun v' hv' => ?_⟩
          obtain rfl : v = v' := Option.some.inj (hl.symm.trans hv')
          simp only [MetaClean, hr]
          exact ⟨Option.isNone_iff_eq_none.mp ht, hnone⟩
        · cases h
          exact .inr ⟨rfl, v, sub, hl, hr, hnone, rfl⟩

theorem stripMeta_of_clean (h : ∀ v, lookup k m = some v → MetaClean w v) :
    stripMeta w m k = .ok (m, false) := by
  unfold stripMeta
  split
  · rfl
  · rename_i v hl
    have hv := h v hl
    unfold MetaClean at hv
    split
    · rename_i hr
      rw [hr] at hv
      cases hs : v.asString with
      | none => rfl
      | some s => simp [hv s hs]
    · rename_i sub hr
      rw [hr] at hv
      rw [if_neg (by simpa using hv.2), if_pos (by simp [hv.1])]

theorem stripMeta_ok (h : stripMeta w m k = .ok (m', c)) :
    (∀ j, j ≠ k → lookup j m' = lookup j m) ∧ (∀ v, lookup k m' = some v → MetaClean w v) ∧
      Option.Rel (MetaKept w) (lookup k m) (lookup k m') ∧ (c = false → m' = m) := by
  obtain ⟨rfl, rfl, hclean⟩ | ⟨rfl, v, sub, hl, hr, hp, rfl⟩ := stripMeta_cases h
  · refine ⟨fun j _ => rfl, hclean, ?_, fun _ => rfl⟩
    cases lookup k m' with
    | none => exact .none
    | some v => exact .some (.inl rfl)
  · refine ⟨fun j hj => lookup_assign_ne hj _ m, ?_, ?_, fun hc => by cases hc⟩
    · intro v' hv'
      rw [lookup_assign_self] at hv'
      cases hv'
      refine metaClean_obj (lookup_erase_self tagsKey sub) (fun p hp' => ?_)
      have hne : p ≠ tagsKey := by
        rintro rfl
        exact absurd hp' (by decide)
      rw [lookup_erase_ne hne]
      exact hp p hp'
    · rw [lookup_assign_self, hl]
      exact .some (.inr ⟨sub, _, hr, rfl, fun j hj => lookup_erase_ne hj sub⟩)

theorem ne_of_mem_metaKeys (hk : k ∈ metaKeys) : k ≠ tagsKey ∧ k ≠ paramsKey := by
  have hall : ∀ k ∈ metaKeys, k ≠ tagsKey ∧ k ≠ paramsKey := by decide
  exact hall k hk

theorem refuseParams_eq
    (h : ∀ k, k ≠ tagsKey → k ∉ metaKeys → k ≠ paramsKey → lookup k m' = lookup k m) :
    refuseParams m' = refuseParams m := by
  have hall : ∀ k ∈ toolsKey :: refusedParams, k ≠ tagsKey ∧ k ∉ metaKeys ∧ k ≠ paramsKey := by
    decide
  have hsame : ∀ k ∈ toolsKey :: refusedParams, lookup k m' = lookup k m := fun k hk =>
    h k (hall k hk).1 (hall k hk).2.1 (hall k hk).2.2
  have hany : refusedParams.any (fun k => (lookup k m').isSome) =
      refusedParams.any (fun k => (lookup k m).isSome) := by
    rw [Bool.eq_iff_iff, List.any_eq_true, List.any_eq_true]
    refine exists_congr (fun k => and_congr_right (fun hk => ?_))
    rw [hsame k (List.mem_cons_of_mem _ hk)]
  rw [refuseParams, refuseParams, hany, hsame toolsKey (by simp)]

theorem stripObjTags_of_clean (h : Clean w m) : stripObjTags w m = .ok (m, false) := by
  have h₁ := stripMeta_of_clean (h.metadata (bytes "metadata") (by decide))
  have h₂ := stripMeta_of_clean (h.metadata (bytes "litellm_metadata") (by decide))
  simp [stripObjTags, h.params, h.tags, h₁, h₂, bind, Except.bind, pure, Except.pure]

theorem stripObjTags_ok (h : stripObjTags w m = .ok (m', c)) :
    Clean w m' ∧ Kept w [] m m' ∧ (c = false → m' = m) := by
  unfold stripObjTags at h
  split at h
  · cases h
  rename_i href
  set m₁ := if (lookup tagsKey m).isSome then erase tagsKey m else m with hm₁
  obtain ⟨⟨m₂, c₂⟩, h₂, h⟩ := ok_of_bind h
  obtain ⟨⟨m₃, c₃⟩, h₃, h⟩ := ok_of_bind h
  cases h
  have htags : lookup tagsKey m₁ = none := by
    rw [hm₁]
    split
    · exact lookup_erase_self tagsKey m
    · rename_i hno
      simpa using hno
  have hrest : ∀ k, k ≠ tagsKey → lookup k m₁ = lookup k m := by
    intro k hk
    rw [hm₁]
    split
    · exact lookup_erase_ne hk m
    · rfl
  obtain ⟨hother₂, hclean₂, hkept₂, hsame₂⟩ := stripMeta_ok h₂
  obtain ⟨hother₃, hclean₃, hkept₃, hsame₃⟩ := stripMeta_ok h₃
  have hkeys : bytes "metadata" ≠ bytes "litellm_metadata" := by decide
  have hmeta : metaKeys = [bytes "metadata", bytes "litellm_metadata"] := rfl
  have hplain : ∀ k, k ∉ metaKeys → lookup k m' = lookup k m₁ := by
    intro k hk
    simp only [hmeta, List.mem_cons, List.not_mem_nil, or_false, not_or] at hk
    rw [hother₃ k hk.2, hother₂ k hk.1]
  refine ⟨⟨?_, ?_, ?_⟩, ⟨?_, ?_⟩, ?_⟩
  · rw [hplain tagsKey (by decide), htags]
  · rw [refuseParams_eq (fun k ht hk _ => (hplain k hk).trans (hrest k ht))]
    simpa using href
  · intro k hk v hv
    simp only [hmeta, List.mem_cons, List.not_mem_nil, or_false] at hk
    obtain rfl | rfl := hk
    · exact hclean₂ v (by rw [← hother₃ _ hkeys, hv])
    · exact hclean₃ v hv
  · intro k ht hk _
    rw [hplain k hk, hrest k ht]
  · intro k hk
    simp only [hmeta, List.mem_cons, List.not_mem_nil, or_false] at hk
    obtain rfl | rfl := hk
    · rw [hother₃ _ hkeys, ← hrest _ (by decide)]
      exact hkept₂
    · rw [← hrest _ (by decide), ← hother₂ _ hkeys.symm]
      exact hkept₃
  · intro hc
    simp only [Bool.or_eq_false_iff] at hc
    rw [hsame₃ hc.2, hsame₂ hc.1.2, hm₁, if_neg (by simp [hc.1.1])]

/-! The scan of a map sees only what is looked up in it. -/

theorem Clean.congr (h : Clean w m) (hs : ∀ k, lookup k n = lookup k m) : Clean w n where
  tags := (hs tagsKey).trans h.tags
  params := (refuseParams_eq (fun k _ _ _ => hs k)).trans h.params
  metadata := fun k hk v hv => h.metadata k hk v ((hs k).symm.trans hv)

theorem CleanBody.congr (h : CleanBody w m) (hs : ∀ k, lookup k n = lookup k m) :
    CleanBody w n where
  top := h.top.congr hs
  params := fun ps hps => h.params ps (by rw [← hs]; exact hps)

theorem KeptBody.congr {n' : Members} (h : KeptBody w m m') (hs : ∀ k, lookup k n = lookup k m)
    (hs' : ∀ k, lookup k n' = lookup k m') :
    KeptBody w n n' where
  top :=
    { same := fun k ht hk ho => by rw [hs, hs']; exact h.top.same k ht hk ho
      metadata := fun k hk => by rw [hs, hs']; exact h.top.metadata k hk }
  params := by
    rw [hs, hs']
    exact h.params

theorem Clean.assign_params (h : Clean w m) (v : Json) :
    Clean w (assign paramsKey v m) where
  tags := by
    rw [lookup_assign_ne (by decide)]
    exact h.tags
  params := by
    rw [refuseParams_eq (fun k _ _ hk => lookup_assign_ne hk v m)]
    exact h.params
  metadata := by
    intro k hk v' hv'
    rw [lookup_assign_ne (ne_of_mem_metaKeys hk).2] at hv'
    exact h.metadata k hk v' hv'

theorem stripJSONTags_of_clean {ms : Members} (hb : w.parse b = some (.obj ms))
    (h : CleanBody w ms) :
    stripJSONTags w b = .ok none := by
  have htop := stripObjTags_of_clean (h.top.congr (fun k => lookup_lastOnly k ms))
  simp only [stripJSONTags, hb, htop, bind, Except.bind, lookup_lastOnly]
  cases hps : (lookup paramsKey ms).bind Json.asMap with
  | none => rfl
  | some ps =>
    have hclean := stripObjTags_of_clean (h.params ps hps)
    simp only [hclean]
    rfl

/-- The map that the scan of a body arrives at, and the body it sends. -/
theorem stripJSONTags_cases {out : Option β} (h : stripJSONTags w b = .ok out) :
    ∃ ms m, w.parse b = some (.obj ms) ∧ CleanBody w m ∧ KeptBody w (lastOnly ms) m ∧
      (out = some (w.encode m) ∨ out = none ∧ m = lastOnly ms) := by
  unfold stripJSONTags at h
  split at h
  case h_2 => cases h
  rename_i ms hb
  obtain ⟨⟨top, changed⟩, htop, h⟩ := ok_of_bind h
  obtain ⟨hclean, hkept, hsame⟩ := stripObjTags_ok htop
  have hparams : lookup paramsKey top = lookup paramsKey (lastOnly ms) :=
    hkept.same paramsKey (by decide) (by decide) (by simp)
  have hkept' : Kept w [paramsKey] (lastOnly ms) top :=
    ⟨fun k ht hk _ => hkept.same k ht hk (by simp), hkept.metadata⟩
  have hplain : CleanBody w top → ∀ out, (if changed then some (w.encode top) else none) = out →
      ∃ ms m, w.parse b = some (.obj ms) ∧ CleanBody w m ∧ KeptBody w (lastOnly ms) m ∧
        (out = some (w.encode m) ∨ out = none ∧ m = lastOnly ms) := by
    rintro hbody out rfl
    refine ⟨ms, top, hb, hbody, ⟨hkept', .inl hparams⟩, ?_⟩
    cases changed with
    | true => exact .inl rfl
    | false => exact .inr ⟨rfl, hsame rfl⟩
  dsimp only at h
  split at h
  · rename_i hps
    refine hplain ⟨hclean, fun ps hps' => ?_⟩ out (Except.ok.inj h)
    rw [hps] at hps'
    cases hps'
  · rename_i ps hps
    obtain ⟨⟨ps', pch⟩, hobj, h⟩ := ok_of_bind h
    obtain ⟨hclean', hkeptps, hsame'⟩ := stripObjTags_ok hobj
    dsimp only at h
    split at h
    · cases h
      refine ⟨ms, assign paramsKey (.obj ps') top, hb, ⟨hclean.assign_params _, ?_⟩, ⟨⟨?_, ?_⟩, ?_⟩,
        .inl rfl⟩
      · intro qs hqs
        rw [lookup_assign_self] at hqs
        cases hqs
        exact hclean'.congr (fun k => lookup_lastOnly k ps')
      · intro k ht hk ho
        rw [lookup_assign_ne (by simpa using ho)]
        exact hkept.same k ht hk (by simp)
      · intro k hk
        rw [lookup_assign_ne (ne_of_mem_metaKeys hk).2]
        exact hkept.metadata k hk
      · exact .inr ⟨ps, ps', by rw [← hparams]; exact hps, lookup_assign_self .., hkeptps⟩
    · rename_i hpch
      refine hplain ⟨hclean, fun qs hqs => ?_⟩ out (Except.ok.inj h)
      obtain rfl : ps = qs := Option.some.inj (hps.symm.trans hqs)
      rw [← hsame' (by simpa using hpch)]
      exact hclean'

theorem stripJSONTags_ok {out : Option β} (h : stripJSONTags w b = .ok out) :
    ∃ ms ns, w.parse b = some (.obj ms) ∧ w.parse (out.getD b) = some (.obj ns) ∧
      CleanBody w ns ∧ KeptBody w ms ns ∧ stripJSONTags w (out.getD b) = .ok none := by
  obtain ⟨ms, m, hb, hclean, hkept, hout⟩ := stripJSONTags_cases h
  have hms : ∀ k, lookup k ms = lookup k (lastOnly ms) := fun k => (lookup_lastOnly k ms).symm
  obtain rfl | ⟨rfl, rfl⟩ := hout
  · obtain ⟨ns, hns, hs⟩ := w.parse_encode m
    have hclean' := hclean.congr hs
    exact ⟨ms, ns, hb, hns, hclean', hkept.congr hms hs, stripJSONTags_of_clean hns hclean'⟩
  · have hclean' := hclean.congr hms
    exact ⟨ms, ms, hb, hb, hclean', hkept.congr hms hms, stripJSONTags_of_clean hb hclean'⟩

/-- Which bodies the scan of a request lets pass, and as what. -/
inductive Scanned (uni : Unicode) (w : Wire β) (h : Header) : Option β → Option β → Prop where
  | noBody : Scanned uni w h none none
  | blank {b : β} : w.blank b = true → Scanned uni w h (some b) (some b)
  | form {b : β} : w.blank b = false → (h contentTypeHeader).length ≤ 1 →
      (h contentTypeHeader).any ambiguousHeader = false → isForm (h.get contentTypeHeader) = true →
      checkParts uni (w.parts (h.get contentTypeHeader) b) = .ok () →
        Scanned uni w h (some b) (some b)
  | json {b : β} {out : Option β} : w.blank b = false → (h contentTypeHeader).length ≤ 1 →
      (h contentTypeHeader).any ambiguousHeader = false → isForm (h.get contentTypeHeader) = false →
      stripJSONTags w b = .ok out → Scanned uni w h (some b) (some (out.getD b))

/-- The scan of a request leaves all headers alone but for two that describe the length. -/
def SameButLength (h h' : Header) : Prop :=
  ∀ n, n ≠ contentLengthHeader → n ≠ transferEncodingHeader → h' n = h n

theorem stripBodyTags_ok {h' : Header} (hok : stripBodyTags uni w h body = .ok (h', body')) :
    Scanned uni w h body body' ∧ SameButLength h h' ∧
      ∀ b, body = some b → w.size b ≤ maxTagScanBody := by
  have hrefl : SameButLength h h := fun n _ _ => rfl
  cases body with
  | none =>
    cases hok
    exact ⟨.noBody, hrefl, fun b hb => by cases hb⟩
  | some b =>
    rw [stripBodyTags] at hok
    split at hok
    · cases hok
    rename_i hsize
    have hsize' : ∀ b', some b = some b' → w.size b' ≤ maxTagScanBody := by
      rintro b' ⟨⟩
      exact not_lt.mp hsize
    split at hok
    · rename_i hb
      cases hok
      exact ⟨.blank hb, hrefl, hsize'⟩
    split at hok
    · cases hok
    rename_i hb hct
    have hlen : (h contentTypeHeader).length ≤ 1 := not_lt.mp (fun hlt => hct (.inl hlt))
    have hplain : (h contentTypeHeader).any ambiguousHeader = false :=
      Bool.eq_false_iff.mpr (fun ha => hct (.inr ha))
    have hb' : w.blank b = false := Bool.eq_false_iff.mpr hb
    split at hok
    · rename_i hform
      obtain ⟨⟨⟩, hparts, hok⟩ := ok_of_bind hok
      cases hok
      exact ⟨.form hb' hlen hplain hform hparts, hrefl, hsize'⟩
    · rename_i hform
      have hform' : isForm (h.get contentTypeHeader) = false := Bool.eq_false_iff.mpr hform
      obtain ⟨out, hjson, hok⟩ := ok_of_bind hok
      have hscan : Scanned uni w h (some b) (some (out.getD b)) :=
        .json hb' hlen hplain hform' hjson
      cases out with
      | none =>
        cases hok
        exact ⟨hscan, hrefl, hsize'⟩
      | some out =>
        cases hok
        refine ⟨hscan, fun n hlen hte => ?_, hsize'⟩
        rw [Header.del_ne _ hte, Header.set_ne _ _ hlen]

theorem Scanned.strip (hs : Scanned uni w h body body')
    (hsize : ∀ b, body = some b → w.size b ≤ maxTagScanBody) :
    ∃ h', stripBodyTags uni w h body = .ok (h', body') := by
  cases hs with
  | noBody => exact ⟨h, rfl⟩
  | blank hb =>
    rw [stripBodyTags, if_neg (not_lt.mpr (hsize _ rfl)), if_pos hb]
    exact ⟨h, rfl⟩
  | form hb hlen hplain hform hparts =>
    rw [stripBodyTags, if_neg (not_lt.mpr (hsize _ rfl)), if_neg (by simp [hb]),
      if_neg (by simp [hplain, hlen]), if_pos hform, hparts]
    exact ⟨h, rfl⟩
  | @json b out hb hlen hplain hform hjson =>
    rw [stripBodyTags, if_neg (not_lt.mpr (hsize _ rfl)), if_neg (by simp [hb]),
      if_neg (by simp [hplain, hlen]), if_neg (by simp [hform]), hjson]
    cases out with
    | none => exact ⟨h, rfl⟩
    | some out => exact ⟨_, rfl⟩

theorem Scanned.clean (hs : Scanned uni w h body (some b))
    (hform : isForm (h.get contentTypeHeader) = false) :
    w.blank b = true ∨
      ∃ ns, w.parse b = some (.obj ns) ∧ CleanBody w ns ∧ stripJSONTags w b = .ok none := by
  cases hs with
  | blank hb => exact .inl hb
  | form _ _ _ hform' =>
    rw [hform'] at hform
    cases hform
  | json _ _ _ _ hjson =>
    obtain ⟨-, ns, -, hns, hclean, -, hagain⟩ := stripJSONTags_ok hjson
    exact .inr ⟨ns, hns, hclean, hagain⟩

theorem Scanned.kept (hs : Scanned uni w h body body') :
    body' = body ∨ ∃ b b' ms ms', body = some b ∧ body' = some b' ∧ w.parse b = some (.obj ms) ∧
      w.parse b' = some (.obj ms') ∧ KeptBody w ms ms' := by
  cases hs with
  | noBody | blank | form => exact .inl rfl
  | json _ _ _ _ hjson =>
    obtain ⟨ms, ns, hms, hns, -, hkept, -⟩ := stripJSONTags_ok hjson
    exact .inr ⟨_, _, ms, ns, rfl, rfl, hms, hns, hkept⟩

theorem Scanned.congr {h' : Header} (hs : Scanned uni w h body body')
    (hct : h' contentTypeHeader = h contentTypeHeader) : Scanned uni w h' body body' := by
  have hget : h'.get contentTypeHeader = h.get contentTypeHeader := by
    rw [Header.get, hct, Header.get]
  cases hs with
  | noBody => exact .noBody
  | blank hb => exact .blank hb
  | form hb hlen hplain hform hparts =>
    rw [← hct] at hlen hplain
    rw [← hget] at hform hparts
    exact .form hb hlen hplain hform hparts
  | json hb hlen hplain hform hjson =>
    rw [← hct] at hlen hplain
    rw [← hget] at hform
    exact .json hb hlen hplain hform hjson

theorem Scanned.again (hs : Scanned uni w h body (some b)) (hsize : w.size b ≤ maxTagScanBody) :
    stripBodyTags uni w h (some b) = .ok (h, some b) := by
  rw [stripBodyTags, if_neg (not_lt.mpr hsize)]
  cases hs with
  | blank hb => rw [if_pos hb]
  | form hb hlen hplain hform hparts =>
    have htyped : ¬ (1 < (h contentTypeHeader).length ∨
        (h contentTypeHeader).any ambiguousHeader = true) := by simp [hplain, hlen]
    rw [if_neg (by simp [hb]), if_neg htyped, if_pos hform, hparts]
    rfl
  | json hb hlen hplain hform hjson =>
    rename_i b out
    have htyped : ¬ (1 < (h contentTypeHeader).length ∨
        (h contentTypeHeader).any ambiguousHeader = true) := by simp [hplain, hlen]
    obtain ⟨ms, ns, -, hns, -, -, hagain⟩ := stripJSONTags_ok hjson
    have hfull : ¬ w.blank (out.getD b) = true := by
      intro hblank
      rw [w.parse_blank _ hblank] at hns
      cases hns
    rw [if_neg hfull, if_neg htyped, if_neg (by simp [hform]), hagain]
    rfl

end AchProofs.Forwarder
