import AchProofs.Forwarder.Handlers

namespace AchProofs.Forwarder

open Foundation Foundation.Percent Foundation.Search
  Foundation.Text Foundation.Json

variable {β : Type}

/-- How LiteLLM reads bodies and strings, and the tags in a value. Its parser accepts more, but
where both parsers read something they read the same. -/
structure Reader (w : Wire β) where
  body : β → Option Json
  body_eq : ∀ b j j', body b = some j → w.parse b = some j' → j = j'
  body_blank : ∀ b, w.blank b = true → body b = none
  text : Bytes → Option Json
  text_eq : ∀ s j j', text s = some j → w.parseText s = some j' → j = j'
  text_blank : ∀ s, trimSpace s = [] → text s = none
  tagsOf : Json → List Bytes

section Reading

variable {w : Wire β} (r : Reader w)

/-- A metadata value sent as a string is parsed once. -/
def Reader.metaMembers : Json → Option Members
  | .obj ms => some ms
  | .str s =>
    match r.text s with
    | some (.obj ms) => some ms
    | _ => none
  | _ => none

def Reader.tagsIn (ms : Members) : List Bytes :=
  (lookup tagsKey ms).elim [] r.tagsOf ++ metaKeys.flatMap (fun k =>
    (((lookup k ms).bind r.metaMembers).bind (lookup tagsKey)).elim [] r.tagsOf)

def nestedParams (ms : Members) : Option Members :=
  match lookup paramsKey ms with
  | some (.obj ps) => some ps
  | _ => none

def Reader.bodyTags (b : β) : List Bytes :=
  match r.body b with
  | some (.obj ms) => r.tagsIn ms ++ (nestedParams ms).elim [] r.tagsIn
  | _ => []

def Reader.tags (up : Request β) : List Bytes :=
  (up.header tagsHeader).flatMap (List.splitOn comma) ++ up.header plainTagsHeader ++
    match up.body with
    | some b => if isForm (up.header.get contentTypeHeader) then [] else r.bodyTags b
    | none => []

def Reader.CarriesRefused (ms : Members) : Prop :=
  (∃ k ∈ refusedParams, (lookup k ms).isSome) ∨
  (∃ items tool, lookup toolsKey ms = some (.arr items) ∧ .obj tool ∈ items ∧
    lookup (bytes "type") tool = some (.str (bytes "mcp"))) ∨
  ∃ k ∈ metaKeys, ∃ v sub, lookup k ms = some v ∧ r.metaMembers v = some sub ∧
    ∃ p ∈ refusedMetaParams, (lookup p sub).isSome

end Reading

/-- The charges of a forwarded request are those of its caller's identity and nobody else's, it
holds no refused parameter, its other members are those of the request, and a further scan changes
nothing. -/
structure Attributed (g : Gateway β) (r : Reader g.wire) (caller : Caller) (req up : Request β) :
    Prop where
  tags : ∀ t, t ∈ r.tags up ↔ t ∈ tagsForContext g.uni.toLower caller
  refused : ∀ b ms, up.body = some b → isForm (up.header.get contentTypeHeader) = false →
    r.body b = some (.obj ms) →
      ¬ r.CarriesRefused ms ∧ ∀ ps, nestedParams ms = some ps → ¬ r.CarriesRefused ps
  kept : up.body = req.body ∨ ∃ b b' ms ms', req.body = some b ∧ up.body = some b' ∧
    g.wire.parse b = some (.obj ms) ∧ g.wire.parse b' = some (.obj ms') ∧ KeptBody g.wire ms ms'
  stable : ∀ b, up.body = some b →
    (g.wire.size b ≤ maxTagScanBody →
      stripBodyTags g.uni g.wire up.header (some b) = .ok (up.header, some b)) ∧
    (g.wire.blank b = false → isForm (up.header.get contentTypeHeader) = false →
      stripJSONTags g.wire b = .ok none)

/-- No text that ends up in a tag of the caller holds a comma. -/
def CommaFree (toLower : Bytes → Bytes) (caller : Caller) : Prop :=
  ∀ kc, caller.keyContext = some kc →
    (kc.ownerEmail ≠ [] → comma ∉ normalizeEmail toLower kc.ownerEmail) ∧
    (kc.keyType = .ek → comma ∉ kc.environment ∧ comma ∉ kc.keyID)

theorem commaFree_iff (toLower : Bytes → Bytes) (caller : Caller) :
    (∀ t ∈ tagsForContext toLower caller, comma ∉ t) ↔ CommaFree toLower caller := by
  have hnot : comma ∉ bytes "user:" ∧ comma ∉ bytes "environment:" ∧ comma ∉ bytes "key:" := by
    decide
  unfold CommaFree tagsForContext
  cases caller.keyContext with
  | none => simp
  | some kc =>
    by_cases howner : kc.ownerEmail = [] <;> by_cases hek : kc.keyType = .ek <;>
      by_cases henv : kc.environment = [] <;> by_cases hid : kc.keyID = [] <;>
      simp [howner, hek, henv, hid, userBudgetTag, environmentBudgetTag, keyBudgetTag, hnot]

section Clean

variable {w : Wire β} (r : Reader w)

theorem Reader.metaMembers_clean {v : Json} {sub : Members} (h : MetaClean w v)
    (hsub : r.metaMembers v = some sub) :
    lookup tagsKey sub = none ∧ ∀ p ∈ refusedMetaParams, lookup p sub = none := by
  cases v with
  | obj ms =>
    cases hsub
    simpa only [MetaClean, metaRead_obj, lookup_lastOnly] using h
  | str s =>
    simp only [metaMembers] at hsub
    split at hsub
    · rename_i ms htext
      cases hsub
      simp only [MetaClean, metaRead, asString] at h
      cases hparse : w.parseText s with
      | none =>
        -- What only the other parser reads is not blank, and such a string is refused.
        simp only [hparse, Option.bind_none, Option.some.injEq, forall_eq'] at h
        rw [r.text_blank s h] at htext
        cases htext
      | some j =>
        obtain rfl := r.text_eq s _ j htext hparse
        simpa only [hparse, Option.bind_some, asMap, lookup_lastOnly] using h
    · cases hsub
  | null | bool | num | arr => cases hsub

theorem Reader.tagsIn_clean {ms : Members} (h : Clean w ms) : r.tagsIn ms = [] := by
  have hmeta : ∀ k ∈ metaKeys, ((lookup k ms).bind r.metaMembers).bind (lookup tagsKey) = none := by
    intro k hk
    cases hl : lookup k ms with
    | none => rfl
    | some v =>
      rw [Option.bind_some]
      cases hsub : r.metaMembers v with
      | none => rfl
      | some sub => exact (r.metaMembers_clean (h.metadata k hk v hl) hsub).1
  rw [tagsIn, h.tags, Option.elim_none, List.nil_append, List.flatMap_eq_nil_iff]
  intro k hk
  rw [hmeta k hk, Option.elim_none]

theorem Reader.not_carriesRefused {ms : Members} (h : Clean w ms) : ¬ r.CarriesRefused ms := by
  have hparams := h.params
  simp only [refuseParams, Bool.or_eq_false_iff, List.any_eq_false] at hparams
  rintro (⟨k, hk, hsome⟩ | ⟨items, tool, htools, htool, htype⟩ | ⟨k, hk, v, sub, hl, hsub, p, hp,
    hsome⟩)
  · exact hparams.1 k hk hsome
  · refine hparams.2 (.obj tool) ?_ ?_
    · rw [htools]
      exact htool
    · simp only [isMcpTool, asMap, Option.bind_some, lookup_lastOnly, htype, asString, decide_true]
  · rw [(r.metaMembers_clean (h.metadata k hk v hl) hsub).2 p hp] at hsome
    cases hsome

theorem CleanBody.nested {ms ps : Members} (h : CleanBody w ms) (hps : nestedParams ms = some ps) :
    Clean w ps := by
  unfold nestedParams at hps
  split at hps
  · rename_i hl
    cases hps
    refine (h.params (lastOnly ps) ?_).congr (fun k => (lookup_lastOnly k ps).symm)
    rw [hl]
    rfl
  · cases hps

theorem Reader.bodyTags_clean {b : β} {ns : Members} (hb : w.parse b = some (.obj ns))
    (h : CleanBody w ns) : r.bodyTags b = [] := by
  unfold bodyTags
  split
  · rename_i ms hread
    obtain rfl : ms = ns := by simpa using r.body_eq b _ _ hread hb
    rw [r.tagsIn_clean h.top, List.nil_append]
    cases hps : nestedParams ms with
    | none => rfl
    | some ps => exact r.tagsIn_clean (h.nested hps)
  · rfl

theorem Reader.bodyTags_blank {b : β} (h : w.blank b = true) : r.bodyTags b = [] := by
  rw [bodyTags, r.body_blank b h]

end Clean

theorem Reader.tags_eq {g : Gateway β} (r : Reader g.wire) {caller : Caller}
    {req scanned up : Request β} (hscan : g.scan req = some scanned)
    (hsends : g.Sends caller scanned up) :
    r.tags up = (up.header tagsHeader).flatMap (List.splitOn comma) := by
  have hbody := hsends.scanned hscan
  have hnone : (match up.body with
      | some b => if isForm (up.header.get contentTypeHeader) then [] else r.bodyTags b
      | none => []) = [] := by
    split
    · rename_i b hb
      split
      · rfl
      · rename_i hform
        rw [hb] at hbody
        obtain hblank | ⟨ns, hns, hclean, -⟩ := hbody.clean (Bool.eq_false_iff.mpr hform)
        · exact r.bodyTags_blank hblank
        · exact r.bodyTags_clean hns hclean
    · rfl
  rw [tags, hsends.tags_eq.1, hnone, List.append_nil, List.append_nil]

/-- A forwarded request on the model or agent routes is charged to its caller's identity alone,
with every guarantee of the scan, if and only if no text of that identity holds a comma. -/
theorem attributed_iff (g : Gateway β) (r : Reader g.wire) {fam : Family} {caller : Caller}
    {req up : Request β} (hfam : fam ∈ [Family.v1, .gemini, .a2a])
    (h : g.forward fam caller req = some up) :
    Attributed g r caller req up ↔ CommaFree g.uni.toLower caller := by
  obtain ⟨scanned, hscan, hsends⟩ := Gateway.forward_cases h hfam
  have hbody := hsends.scanned hscan
  have htags : (∀ t, t ∈ r.tags up ↔ t ∈ tagsForContext g.uni.toLower caller) ↔
      CommaFree g.uni.toLower caller := by
    rw [r.tags_eq hscan hsends, hsends.tags_eq.2, ← commaFree_iff]
    by_cases hne : tagsForContext g.uni.toLower caller = []
    · simp [hne]
    · rw [if_neg hne, List.flatMap_singleton]
      exact mem_splitOn_intercalate_iff hne
  refine ⟨fun ha => htags.mp ha.tags, fun hc => ⟨htags.mpr hc, ?_, hbody.kept, ?_⟩⟩
  · intro b ms hb hform hread
    rw [hb] at hbody
    obtain hblank | ⟨ns, hns, hclean, -⟩ := hbody.clean hform
    · rw [r.body_blank b hblank] at hread
      cases hread
    · obtain rfl : ms = ns := by simpa using r.body_eq _ _ _ hread hns
      exact ⟨r.not_carriesRefused hclean.top,
        fun ps hps => r.not_carriesRefused (hclean.nested hps)⟩
  · intro b hb
    rw [hb] at hbody
    refine ⟨hbody.again, fun hfull hform => ?_⟩
    obtain hblank | ⟨-, -, -, hagain⟩ := hbody.clean hform
    · rw [hblank] at hfull
      cases hfull
    · exact hagain

def jsonReader : Reader (jsonGateway []).wire where
  body := some
  body_eq := fun b j j' h h' => Option.some.inj (h.symm.trans h')
  body_blank := jsonWire.parse_blank
  text := fun _ => none
  text_eq := by simp
  text_blank := jsonWire.parseText_blank
  tagsOf := fun v => (v.asList.getD []).filterMap Json.asString

def ownerOf (email : Bytes) : Caller := .identity ⟨email, .pk, [], [], none⟩

def chatRequest : Request Json where
  method := .post
  url := ⟨bytes "/v1/chat/completions", []⟩
  allModels := false
  namesAlias := false
  header := fun n => if n = tagsHeader then [bytes "user:v"] else []
  body := some (.obj [(bytes "model", .str (bytes "m")),
    (tagsKey, .arr [.str (bytes "user:v")])])

theorem attributed_chat : ∃ up,
    (jsonGateway []).forward .v1 (ownerOf (bytes "x@corp")) chatRequest = some up ∧
    Attributed (jsonGateway []) jsonReader (ownerOf (bytes "x@corp")) chatRequest up := by
  have hfam : Family.v1 ∈ [Family.v1, .gemini, .a2a] := by decide
  refine ⟨_, rfl, (attributed_iff (jsonGateway []) jsonReader hfam rfl).mpr ?_⟩
  intro kc hkc
  cases hkc
  decide

/-- The tag of an owner whose address holds a comma is read as two. -/
theorem comma_splits_tag :
    ∃ up, (jsonGateway []).forward .v1 (ownerOf (bytes "x,user:v")) chatRequest = some up ∧
      bytes "user:v" ∈ jsonReader.tags up ∧
      ¬ Attributed (jsonGateway []) jsonReader (ownerOf (bytes "x,user:v")) chatRequest up := by
  refine ⟨_, rfl, by decide, fun h => ?_⟩
  exact absurd ((h.tags (bytes "user:v")).mp (by decide)) (by decide)

end AchProofs.Forwarder
