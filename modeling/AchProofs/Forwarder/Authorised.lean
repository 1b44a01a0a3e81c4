import AchProofs.Forwarder.Handlers

namespace AchProofs.Forwarder

open Foundation Foundation.Percent Foundation.Search
  Foundation.Text Foundation.Json

/-! ### Servers -/

variable {u : URL} {rest p action model : Bytes} {prefixes : List Bytes}

theorem setPath_eq_some {raw : Bytes} (h : setPath raw = some u) :
    unescape raw = some u.path ∧ (u.rawPath = [] ∨ u.rawPath = raw) := by
  obtain ⟨path, hpath, rfl⟩ := Option.map_eq_some_iff.mp h
  refine ⟨hpath, ?_⟩
  dsimp only
  split
  · exact .inl rfl
  · exact .inr rfl

/-- A segment that was written with escapes is not the segment they stand for. -/
theorem segment_unescape_ne {rest' : Bytes} (h : unescape rest = some rest')
    (hp : percent ∈ segment rest) : segment rest' ≠ segment rest := by
  intro he
  have hlen : (segment rest').length ≤ ((unescape (segment rest)).getD []).length ∧
      ((unescape (segment rest)).getD []).length < (segment rest).length := by
    obtain hs | ⟨t, hs⟩ := segment_cases rest
    · rw [← hs, h, Option.getD_some]
      exact ⟨(List.takeWhile_prefix _).length_le, (length_unescape rest h).2 (hs ▸ hp)⟩
    · rw [hs] at h
      obtain ⟨s', t', hs', -, rfl⟩ := unescape_split (by decide) (by decide) _ h
      rw [hs', Option.getD_some]
      refine ⟨?_, (length_unescape _ hs').2 hp⟩
      have hseg : segment (s' ++ slash :: t') = segment s' := by
        obtain hc | ⟨t'', hc⟩ := segment_cases s'
        · rw [← hc]
          exact segment_append_slash (hc ▸ slash_not_mem_segment s') t'
        · conv_lhs => rw [hc]
          rw [List.append_assoc]
          exact segment_append_slash (slash_not_mem_segment s') _
      rw [hseg]
      exact (List.takeWhile_prefix _).length_le
  rw [he] at hlen
  omega

theorem segment_unescape {rest' : Bytes} (h : unescape rest = some rest')
    (hp : percent ∉ segment rest) : segment rest' = segment rest := by
  obtain hs | ⟨t, hs⟩ := segment_cases rest
  · rw [hs, unescape_of_not_mem hp] at h
    cases h
    exact segment_eq_self (slash_not_mem_segment rest)
  · rw [hs, unescape_append _ _ (unescape_of_not_mem hp), unescape_cons (by decide)] at h
    obtain ⟨t', ht', rfl⟩ := Option.map_eq_some_iff.mp h
    obtain ⟨t'', -, rfl⟩ := Option.map_eq_some_iff.mp ht'
    exact segment_append_slash (slash_not_mem_segment rest) t''

theorem mcpServerPath_eq_iff {n : Bytes} (hne : rest ≠ []) (hn : slash ∉ n) :
    mcpServerPath (bytes "/mcp/" ++ rest) = bytes "/mcp/" ++ n ↔ n ≠ [] ∧ segment rest = n := by
  rw [mcpServerPath_append]
  split
  · rename_i hseg
    rw [List.append_cancel_left_eq]
    constructor
    · rintro rfl
      exact absurd (segment_eq_self hn ▸ hseg) hne
    · rintro ⟨hn', rfl⟩
      exact absurd hseg hn'
  · rename_i hseg
    rw [List.append_cancel_left_eq]
    exact ⟨fun he => ⟨he ▸ hseg, he⟩, fun he => he.2⟩

/-- A request routed to a server goes upstream under the name it was checked under if and only if
that name is not empty and was not written with escapes. -/
theorem directPath_eq_iff {router : Router} (prefixes : List Bytes) {raw : Bytes} {n : Bytes}
    (hu : setPath raw = some u) (hn : router.urlParam (bytes "/mcp/") u = some n) :
    (directPath prefixes u).path = bytes "/mcp/" ++ n ↔
      n ≠ [] ∧ (u.rawPath = [] ∨ percent ∉ n) := by
  obtain ⟨hpath, hraw⟩ := setPath_eq_some hu
  obtain ⟨rest, hne, hroute, rfl⟩ := (router.urlParam_eq_some_iff _ _ _).mp hn
  obtain ⟨path, rawPath⟩ := u
  dsimp only at hpath hraw hroute ⊢
  by_cases hempty : rawPath = []
  · rw [routePath, if_pos hempty] at hroute
    dsimp only at hroute
    rw [hroute, directPath_mcp, mcpServerPath_eq_iff hne (slash_not_mem_segment rest)]
    simp [hempty]
  · obtain rfl := hraw.resolve_left hempty
    rw [routePath, if_neg hempty] at hroute
    dsimp only at hroute
    rw [hroute, unescape_append _ _ (unescape_of_not_mem (by decide))] at hpath
    obtain ⟨rest', hrest', rfl⟩ := Option.map_eq_some_iff.mp hpath
    have hne' : rest' ≠ [] := fun he => hne (eq_nil_of_unescape (he ▸ hrest'))
    rw [directPath_mcp, mcpServerPath_eq_iff hne' (slash_not_mem_segment rest)]
    refine and_congr_right (fun _ => ?_)
    simp only [hempty, false_or]
    exact ⟨fun he hp => segment_unescape_ne hrest' hp he, segment_unescape hrest'⟩

/-! ### Models -/

def firstMatch (prefixes : List Bytes) (tail : Bytes) : Option Bytes :=
  prefixes.find? (fun p => p ≠ [] ∧ p <+: tail)

/-- The prefix taken off the whole tail is one of the model alone, or nothing is taken off. -/
def Anchored (prefixes : List Bytes) (model action : Bytes) : Prop :=
  ∀ p, firstMatch prefixes (model ++ colon :: action) = some p →
    colon ∉ p ∨ (p = model ++ colon :: action ∧ stripModel prefixes model = model)

theorem stripTail_cons_of_not {tail : Bytes} (prefixes : List Bytes) (h : ¬ (p ≠ [] ∧ p <+: tail)) :
    stripTail (p :: prefixes) tail = stripTail prefixes tail := by
  rw [stripTail, if_neg h]

theorem stripTail_cons_of_pos {s : Bytes} (prefixes : List Bytes) (hp : p ≠ []) :
    stripTail (p :: prefixes) (p ++ s) = if s = [] ∨ s.head? = some colon then p ++ s else s := by
  rw [stripTail, if_pos ⟨hp, List.prefix_append p s⟩, List.drop_left]

/-- A prefix of a model and its action is one of the model, or it reaches past the colon. -/
theorem prefix_action_cases (hm : colon ∉ model) (h : p <+: model ++ colon :: action) :
    (colon ∉ p ∧ ∃ s, model = p ++ s) ∨ ∃ a s, p = model ++ colon :: a ∧ action = a ++ s := by
  obtain ⟨t, ht⟩ := h
  obtain ⟨s, hs, hs'⟩ | ⟨s, hs, hs'⟩ := List.append_eq_append_iff.mp ht
  · exact .inl ⟨fun hc => hm (by rw [hs]; exact List.mem_append_left s hc), s, hs⟩
  · cases s with
    | nil =>
      rw [List.append_nil] at hs
      exact .inl ⟨fun hc => hm (hs ▸ hc), [], by rw [List.append_nil, hs]⟩
    | cons c s =>
      obtain ⟨rfl, rfl⟩ := List.cons.inj hs'
      exact .inr ⟨s, t, hs, rfl⟩

theorem stripTail_action_iff (prefixes : List Bytes) (hm : colon ∉ model) (ha : colon ∉ action) :
    stripTail prefixes (model ++ colon :: action) = stripTail prefixes model ++ colon :: action ↔
      Anchored prefixes model action := by
  simp only [Anchored, stripModel_eq]
  induction prefixes with
  | nil => simp [stripTail, firstMatch]
  | cons p prefixes ih =>
    by_cases hp : p ≠ [] ∧ p <+: model ++ colon :: action
    · have hfirst : firstMatch (p :: prefixes) (model ++ colon :: action) = some p := by
        simp only [firstMatch, List.find?_cons, hp, ne_eq, not_false_eq_true, and_self, decide_true]
      simp only [hfirst, Option.some.injEq, forall_eq']
      obtain ⟨hc, s, rfl⟩ | ⟨a, s, rfl, rfl⟩ := prefix_action_cases hm hp.2
      · -- The same prefix comes off the model, and leaves a name in both cases or in neither.
        have hs : s.head? ≠ some colon := fun he =>
          hm (List.mem_append_right p (List.mem_of_head? he))
        rw [List.append_assoc, stripTail_cons_of_pos prefixes hp.1,
          stripTail_cons_of_pos prefixes hp.1]
        cases s with
        | nil => simp [hc]
        | cons b s =>
          have hb : b ≠ colon := fun he => hs (by rw [he]; rfl)
          simp [hc, hb]
      · have hmodel : ¬ (model ++ colon :: a ≠ [] ∧ model ++ colon :: a <+: model) := by
          rintro ⟨-, hpre⟩
          exact hm (hpre.subset (by simp))
        have hcolon : colon ∈ model ++ colon :: a := by simp
        rw [stripTail_cons_of_not prefixes hmodel,
          show model ++ colon :: (a ++ s) = (model ++ colon :: a) ++ s by simp,
          stripTail_cons_of_pos prefixes hp.1]
        have hs : s.head? ≠ some colon := fun he =>
          ha (List.mem_append_right a (List.mem_of_head? he))
        cases s with
        | nil => simp [hcolon, eq_comm]
        | cons b s =>
          have hnot : colon ∉ b :: s := fun hm' => ha (List.mem_append_right a hm')
          rw [if_neg (by simpa using hs)]
          constructor
          · intro he
            exact absurd
              (he ▸ (by simp : colon ∈ stripTail prefixes model ++ colon :: (a ++ b :: s)))
              hnot
          · rintro (hno | ⟨hlen, -⟩)
            · exact absurd hcolon hno
            · exact absurd (congrArg List.length hlen) (by simp)
    · have hp' : ¬ (p ≠ [] ∧ p <+: model) := fun h =>
        hp ⟨h.1, h.2.trans (List.prefix_append model _)⟩
      have hfirst : firstMatch (p :: prefixes) (model ++ colon :: action) =
          firstMatch prefixes (model ++ colon :: action) := by
        simp only [firstMatch, List.find?_cons, hp, decide_false]
      rw [stripTail_cons_of_not prefixes hp, stripTail_cons_of_not prefixes hp', hfirst]
      exact ih

theorem colon_not_mem_geminiMethods (h : action ∈ geminiMethods) : colon ∉ action := by
  have hall : ∀ a ∈ geminiMethods, colon ∉ a := by decide
  exact hall action h

/-- The allowed routes. -/
theorem geminiPathModel_cases {method : Method}
    (h : geminiPathModel method u prefixes = some model) :
    (method = .get ∧ u.path = geminiModels) ∨
      (IsModel (stripModel prefixes model) ∧
        ((method = .get ∧ u.path = geminiModels ++ slash :: model) ∨
          method = .post ∧ ∃ action ∈ geminiMethods, colon ∉ model ∧
            u.path = geminiModels ++ slash :: (model ++ colon :: action))) := by
  obtain ⟨rest, hrest, h⟩ := Option.bind_eq_some_iff.mp h
  have hpath := cutPrefix_eq_some_iff.mp hrest
  split at h
  · cases h
  split at h
  · rename_i hnil
    split at h
    · rename_i hget
      exact .inl ⟨hget, by rw [hpath, hnil, List.append_nil]⟩
    · cases h
  obtain ⟨tail, htail, h⟩ := Option.bind_eq_some_iff.mp h
  obtain ⟨model', hmodel, h⟩ := Option.bind_eq_some_iff.mp h
  rw [cutPrefix_eq_some_iff.mp htail] at hpath
  split at h
  · rename_i hok
    cases h
    refine .inr ⟨hok, ?_⟩
    cases method with
    | get =>
      cases hmodel
      exact .inl ⟨rfl, hpath⟩
    | post =>
      obtain ⟨⟨m, action⟩, hcut, hmodel⟩ := Option.bind_eq_some_iff.mp hmodel
      split at hmodel
      · rename_i hmem
        cases hmodel
        refine .inr ⟨rfl, action, hmem, not_mem_of_cut hcut, ?_⟩
        rw [hpath, eq_of_cut hcut]
        simp
      · cases hmodel
    | other => cases hmodel
  · cases h

variable {β : Type}

theorem namesPath_iff {pathModel : Bytes} {v : Json} :
    namesPath prefixes pathModel v = true ↔
      ∃ name, v.asString = some name ∧
        normGeminiModel name prefixes = normGeminiModel pathModel prefixes := by
  unfold namesPath
  cases v.asString with
  | none => simp
  | some name => simp

variable {w : Wire β} {g : Gateway β} {req : Request β}

theorem namesPath_of_bodyModelMatches {contentType path : Bytes} {b : β} {pathModel : Bytes}
    (h : bodyModelMatches w contentType path b pathModel prefixes = true) :
    ∀ v ∈ bodyModels w path b, namesPath prefixes pathModel v = true := by
  intro v hv
  unfold bodyModels at hv
  unfold bodyModelMatches at h
  split at hv
  · cases hv
  rename_i m hm
  split at h
  · rename_i hblank
    rw [w.parse_blank b hblank] at hm
    cases hm
  split at h
  · cases h
  simp only [hm, Bool.and_eq_true] at h
  obtain ⟨⟨-, htop⟩, hbatch⟩ := h
  obtain hv | hv := List.mem_append.mp hv
  · rw [Option.mem_toList.mp hv] at htop
    exact htop
  · split at hv
    · rename_i hpath
      simp only [hpath, Bool.not_true, Bool.false_or] at hbatch
      obtain ⟨e, he, hev⟩ := List.mem_filterMap.mp hv
      cases hreq : lookup (bytes "requests") m with
      | none =>
        rw [hreq] at he
        cases he
      | some raw =>
        simp only [hreq, Option.bind_some, Option.all_some] at he hbatch
        cases hitems : raw.asList with
        | none =>
          rw [hitems] at he
          cases he
        | some items =>
          simp only [hitems, Option.getD_some, Option.any_some] at he hbatch
          have hentry := List.all_eq_true.mp hbatch e he
          cases e with
          | obj ms =>
            simp only [asMap, Option.bind_some, lookup_lastOnly] at hev
            simpa only [entryMatches, hev, Option.all_some] using hentry
          | null | bool | num | str | arr => cases hentry
    · cases hv

theorem bodyModels_kept {b b' : β} {ms ms' : Members} (path : Bytes)
    (hb : w.parse b = some (.obj ms)) (hb' : w.parse b' = some (.obj ms')) (h : KeptBody w ms ms') :
    bodyModels w path b' = bodyModels w path b := by
  have hsame : ∀ k ∈ [modelKey, bytes "requests"], lookup k ms' = lookup k ms := by
    have hall : ∀ k ∈ [modelKey, bytes "requests"], k ≠ tagsKey ∧ k ∉ metaKeys ∧
      k ∉ [paramsKey] := by
      decide
    exact fun k hk => h.top.same k (hall k hk).1 (hall k hk).2.1 (hall k hk).2.2
  simp only [bodyModels, hb, hb', Option.bind_some, asMap, lookup_lastOnly,
    hsame modelKey (by simp), hsame (bytes "requests") (by simp)]

def requestModels (w : Wire β) (path : Bytes) (body : Option β) : List Json :=
  body.elim [] (bodyModels w path)

theorem Scanned.models_eq {uni : Unicode} {h : Header} {body body' : Option β}
    (hs : Scanned uni w h body body') (path : Bytes) :
    requestModels w path body' = requestModels w path body := by
  obtain rfl | ⟨b, b', ms, ms', rfl, rfl, hb, hb', hkept⟩ := hs.kept
  · rfl
  · exact bodyModels_kept path hb hb' hkept

def NamesModel (prefixes : List Bytes) (m : Bytes) (v : Json) : Prop :=
  ∃ name, v.asString = some name ∧ normGeminiModel name prefixes = m

/-- A request for the list of models goes upstream as that. One that was allowed for a model goes
upstream for that model without its prefix, a name of one segment, with the action it was sent
with, and its body names no other model. -/
def ModelForwarded (g : Gateway β) (model : Bytes) (req up : Request β) : Prop :=
  (req.url.path = geminiModels ∧ up.url.path = geminiModels) ∨
  ∃ suffix, (suffix = [] ∨ ∃ action ∈ geminiMethods, suffix = colon :: action) ∧
    req.url.path = geminiModels ++ slash :: (model ++ suffix) ∧
    up.url.path = geminiModels ++ slash :: (stripModel g.prefixes model ++ suffix) ∧
    IsModel (stripModel g.prefixes model) ∧
    ∀ v ∈ requestModels g.wire req.url.path up.body,
      NamesModel g.prefixes (stripModel g.prefixes model) v

/-- What the allowlist leaves open. On a `POST` the prefix that comes off may reach past the colon,
and a path model may start with `models/`. On a `GET` the body is not looked at. -/
def Unambiguous (g : Gateway β) (model : Bytes) (req : Request β) : Prop :=
  if req.method = .post then
    (∀ action ∈ geminiMethods, req.url.path = geminiModels ++ slash :: (model ++ colon :: action) →
      Anchored g.prefixes model action) ∧
    (requestModels g.wire req.url.path req.body = [] ∨
      normGeminiModel model g.prefixes = stripModel g.prefixes model)
  else req.url.path = geminiModels ∨
    ∀ v ∈ requestModels g.wire req.url.path req.body,
      NamesModel g.prefixes (stripModel g.prefixes model) v

theorem geminiModels_ne (tail : Bytes) : geminiModels ++ slash :: tail ≠ geminiModels := by
  intro h
  have hlen := congrArg List.length h
  simp at hlen

theorem requestModels_match (hpost : req.method = .post) (h : g.admitGemini model req = true) :
    ∀ v ∈ requestModels g.wire req.url.path req.body,
      NamesModel g.prefixes (normGeminiModel model g.prefixes) v := by
  intro v hv
  cases hb : req.body with
  | none =>
    rw [hb] at hv
    cases hv
  | some b =>
    rw [hb] at hv
    simp only [Gateway.admitGemini, hpost, hb] at h
    exact namesPath_iff.mp (namesPath_of_bodyModelMatches h v hv)

theorem forall_namesModel_iff {vs : List Json} {m m' : Bytes}
    (h : ∀ v ∈ vs, NamesModel prefixes m v) :
    (∀ v ∈ vs, NamesModel prefixes m' v) ↔ vs = [] ∨ m = m' := by
  constructor
  · intro h'
    cases vs with
    | nil => exact .inl rfl
    | cons v vs =>
      obtain ⟨name, hname, rfl⟩ := h v List.mem_cons_self
      obtain ⟨name', hname', rfl⟩ := h' v List.mem_cons_self
      rw [hname, Option.some.injEq] at hname'
      exact .inr (by rw [hname'])
  · rintro (rfl | rfl)
    · exact fun v hv => absurd hv List.not_mem_nil
    · exact h

theorem modelForwarded_iff {caller : Caller} {up : Request β}
    (hmodel : geminiPathModel req.method req.url g.prefixes = some model)
    (hup : g.forward .gemini caller req = some up) :
    ModelForwarded g model req up ↔ Unambiguous g model req := by
  obtain ⟨model', hmodel', hup⟩ := Option.bind_eq_some_iff.mp hup
  obtain rfl : model = model' := Option.some.inj (hmodel.symm.trans hmodel')
  obtain ⟨scanned, hscan, hadmits, hsends⟩ := Gateway.taggedPassthroughChecked_cases hup
  obtain ⟨hurl, hmethod, -⟩ := Gateway.scan_eq_some hscan
  have hbody := (hsends.scanned hscan).models_eq req.url.path
  have hpath : up.url.path = (directPath g.prefixes req.url).path := by rw [hsends.path_eq, hurl]
  have hdirect : ∀ tail, req.url.path = geminiModels ++ slash :: tail →
      up.url.path = geminiModels ++ slash :: stripTail g.prefixes tail := by
    intro tail htail
    rw [hpath, show req.url = ⟨req.url.path, req.url.rawPath⟩ from rfl, htail, directPath_gemini]
  obtain ⟨hget, hreq⟩ | ⟨hok, ⟨hget, hreq⟩ | ⟨hpost, action, haction, hcolon, hreq⟩⟩ :=
    geminiPathModel_cases hmodel
  · have hup' : up.url.path = geminiModels := by
      rw [hpath, show req.url = ⟨req.url.path, req.url.rawPath⟩ from rfl, hreq,
        directPath_gemini_list]
    rw [Unambiguous, if_neg (by simp [hget])]
    exact iff_of_true (.inl ⟨hreq, hup'⟩) (.inl hreq)
  · have hup' := hdirect model hreq
    have hne : req.url.path ≠ geminiModels := hreq ▸ geminiModels_ne model
    rw [Unambiguous, if_neg (by simp [hget]), ← hbody]
    constructor
    · rintro (⟨hlist, -⟩ | ⟨suffix, -, -, -, -, hall⟩)
      · exact absurd hlist hne
      · exact .inr hall
    · rintro (hlist | hall)
      · exact absurd hlist hne
      · refine .inr ⟨[], .inl rfl, by rw [hreq, List.append_nil], ?_, hok, hall⟩
        rw [hup', stripModel_eq, List.append_nil]
  · have hup' := hdirect _ hreq
    have hne : req.url.path ≠ geminiModels := hreq ▸ geminiModels_ne _
    have hnames : (∀ v ∈ requestModels g.wire req.url.path up.body,
        NamesModel g.prefixes (stripModel g.prefixes model) v) ↔
        requestModels g.wire req.url.path req.body = [] ∨
          normGeminiModel model g.prefixes = stripModel g.prefixes model := by
      rw [← hbody]
      refine forall_namesModel_iff ?_
      have hmatch := requestModels_match (hmethod.trans hpost) hadmits
      rwa [hurl, ← hsends.body_eq] at hmatch
    have hanchor := stripTail_action_iff g.prefixes hcolon (colon_not_mem_geminiMethods haction)
    rw [Unambiguous, if_pos hpost, ← hnames]
    constructor
    · rintro (⟨hlist, -⟩ | ⟨suffix, -, hreq', hpath', -, hall⟩)
      · exact absurd hlist hne
      · have hsuffix : suffix = colon :: action := by simpa [hreq] using hreq'.symm
        refine ⟨fun action' _ haction' => ?_, hall⟩
        obtain rfl : action' = action := by simpa [hreq] using haction'.symm
        refine hanchor.mp ?_
        simpa [hup', hsuffix, stripModel_eq] using hpath'
    · rintro ⟨hanc, hall⟩
      refine .inr ⟨colon :: action, .inr ⟨action, haction, rfl⟩, hreq, ?_, hok, hall⟩
      rw [hup', hanchor.mpr (hanc action haction hreq), stripModel_eq]

/-- A request that was admitted for a server or a model goes upstream for exactly that one if and
only if the server's name was written out, or what the allowlist leaves open does not arise. -/
theorem forwarded_as_authorised_iff (g : Gateway β) {raw : Bytes} {req : Request β}
    (hurl : setPath raw = some req.url) :
    (∀ kc n up, g.router.urlParam (bytes "/mcp/") req.url = some n →
      g.forward .mcp (.identity kc) req = some up →
        (up.url.path = bytes "/mcp/" ++ n ↔ n ≠ [] ∧ (req.url.rawPath = [] ∨ percent ∉ n))) ∧
    (∀ caller model up, geminiPathModel req.method req.url g.prefixes = some model →
      g.forward .gemini caller req = some up →
        (ModelForwarded g model req up ↔ Unambiguous g model req)) := by
  refine ⟨fun kc n up hn hup => ?_, fun caller model up hmodel hup => modelForwarded_iff hmodel hup⟩
  have hnamed : g.handlerNamed .mcp (.identity kc) req = some up := hup
  obtain ⟨scanned, hscan, hsends⟩ := Gateway.handlerNamed_cases hnamed
  obtain rfl : req = scanned := by simpa using hscan
  rw [hsends.path_eq]
  exact directPath_eq_iff g.prefixes hurl hn

theorem forward_gemini_of_scan {caller : Caller} {scanned : Request β}
    (hmodel : geminiPathModel req.method req.url g.prefixes = some model)
    (hscan : g.scan req = some scanned) (hadmits : g.admitGemini model scanned = true) :
    g.forward .gemini caller req = some (g.proxy caller none (prepareModelList scanned)) := by
  change Option.bind _ _ = _
  rw [hmodel, Option.bind_some]
  change Option.bind (g.scan req) _ = _
  rw [hscan, Option.bind_some, if_pos hadmits]

theorem prepareModelList_url (req : Request β) : (prepareModelList req).url = req.url := by
  unfold prepareModelList
  split <;> rfl

def postRequest (path : Bytes) (body : Option Json) : Request Json where
  method := .post
  url := ⟨path, []⟩
  allModels := false
  namesAlias := false
  header := fun _ => []
  body := body

def countRequest : Request Json :=
  postRequest (bytes "/gemini/v1beta/models/gemini/g:countTokens")
    (some (.obj [(modelKey, .str (bytes "models/gemini/g")), (bytes "contents", .arr [])]))

def toolRequest : Request Json := postRequest (bytes "/mcp/git/tools") none

theorem unambiguous_countRequest :
    Unambiguous (jsonGateway [bytes "gemini/"]) (bytes "gemini/g") countRequest := by
  have hpost : countRequest.method = .post := rfl
  rw [Unambiguous, if_pos hpost]
  refine ⟨fun action _ haction p hp => ?_, .inr (by decide +kernel)⟩
  have haction' : geminiModels ++ slash :: (bytes "gemini/g" ++ colon :: bytes "countTokens") =
      geminiModels ++ slash :: (bytes "gemini/g" ++ colon :: action) := haction
  obtain rfl : bytes "countTokens" = action := by
    rw [List.append_cancel_left_eq, List.cons.injEq, List.append_cancel_left_eq] at haction'
    exact (List.cons.inj haction'.2).2
  have hfirst : firstMatch [bytes "gemini/"] (bytes "gemini/g" ++ colon :: bytes "countTokens") =
      some (bytes "gemini/") := by decide +kernel
  obtain rfl : bytes "gemini/" = p := Option.some.inj (hfirst.symm.trans hp)
  exact .inl (by decide)

theorem forwarded_as_authorised_stripped :
    (∃ up, (jsonGateway [bytes "gemini/"]).forward .mcp
        (.identity ⟨bytes "x@corp", .pk, [], [], none⟩) toolRequest = some up ∧
      up.url.path = bytes "/mcp/" ++ bytes "git") ∧
    ∃ up, (jsonGateway [bytes "gemini/"]).forward .gemini .foreign countRequest = some up ∧
      up.url.path = bytes "/gemini/v1beta/models/g:countTokens" ∧
      ModelForwarded (jsonGateway [bytes "gemini/"]) (bytes "gemini/g") countRequest up := by
  have htool : setPath (bytes "/mcp/git/tools") = some toolRequest.url := by decide +kernel
  have hcount : setPath (bytes "/gemini/v1beta/models/gemini/g:countTokens") =
      some countRequest.url := by decide +kernel
  have hmodel : geminiPathModel .post countRequest.url [bytes "gemini/"] =
      some (bytes "gemini/g") := by decide +kernel
  have hup : (jsonGateway [bytes "gemini/"]).forward .gemini .foreign countRequest = some _ :=
    forward_gemini_of_scan hmodel rfl (by decide +kernel)
  refine ⟨⟨_, rfl, ((forwarded_as_authorised_iff (jsonGateway [bytes "gemini/"]) htool).1
    ⟨bytes "x@corp", .pk, [], [], none⟩ (bytes "git") _ (by decide) rfl).mpr
      ⟨by decide, .inl rfl⟩⟩, _, hup, ?_, ((forwarded_as_authorised_iff
      (jsonGateway [bytes "gemini/"]) hcount).2 .foreign _ _ hmodel hup).mpr
        unambiguous_countRequest⟩
  change (directPath [bytes "gemini/"] (prepareModelList _).url).path = _
  rw [prepareModelList_url]
  decide +kernel

def renamedPath : Bytes := bytes "/gemini/v1beta/models/v:generateContent"

/-- The configured prefix reaches past the colon: the model's name comes off with it, and the action
is left as the model. -/
theorem colon_prefix_renames :
    parseGeminiStripModelPrefixes (.arr [.str (bytes "v:")]) = some [bytes "v:"] ∧
    ∃ up, geminiPathModel .post (postRequest renamedPath none).url [bytes "v:"] = some (bytes "v") ∧
      (jsonGateway [bytes "v:"]).forward .gemini .foreign (postRequest renamedPath none) = some up ∧
      up.url.path = bytes "/gemini/v1beta/models/generateContent" ∧
      ¬ ModelForwarded (jsonGateway [bytes "v:"]) (bytes "v") (postRequest renamedPath none)
        up := by
  have hmodel : geminiPathModel .post (postRequest renamedPath none).url [bytes "v:"] =
      some (bytes "v") := by decide +kernel
  have hscan : (jsonGateway [bytes "v:"]).scan (postRequest renamedPath none) =
      some (postRequest renamedPath none) := rfl
  have hup : (jsonGateway [bytes "v:"]).forward .gemini .foreign (postRequest renamedPath none) =
      some _ := forward_gemini_of_scan hmodel hscan rfl
  have hpath : (directPath [bytes "v:"] (postRequest renamedPath none).url).path =
      bytes "/gemini/v1beta/models/generateContent" := by decide +kernel
  have hpath' : ((jsonGateway [bytes "v:"]).proxy .foreign none
      (prepareModelList (postRequest renamedPath none))).url.path =
        bytes "/gemini/v1beta/models/generateContent" := by
    change (directPath [bytes "v:"] (prepareModelList (postRequest renamedPath none)).url).path = _
    rw [prepareModelList_url, hpath]
  refine ⟨by decide +kernel, _, hmodel, hup, hpath', ?_⟩
  rintro (⟨hlist, -⟩ | ⟨suffix, -, -, hforwarded, -⟩)
  · exact absurd hlist (by decide +kernel)
  · have hmodel' : stripModel (jsonGateway [bytes "v:"]).prefixes (bytes "v") = bytes "v" := by
      decide +kernel
    have hsplit : bytes "/gemini/v1beta/models/generateContent" =
        geminiModels ++ slash :: bytes "generateContent" := rfl
    rw [hpath', hmodel', hsplit, List.append_cancel_left_eq, List.cons.injEq] at hforwarded
    exact absurd (List.cons.inj hforwarded.2).1 (by decide)

end AchProofs.Forwarder
