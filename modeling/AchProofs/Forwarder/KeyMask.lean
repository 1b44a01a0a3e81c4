import AchProofs.Forwarder.KeyLeak

namespace AchProofs.Forwarder

open Foundation Foundation.Percent Foundation.Search
  Foundation.Text Foundation.Json

variable {β : Type}

/-- Other headers, with something else in place of some keys that did not win authentication. -/
structure Masked (slots : Slots) (h h₂ : Header) : Prop where
  other : ∀ n, n ∉ slots.watched → h₂ n = h n
  values : ∀ n ∈ slots.watched, List.Forall₂ (fun v v₂ => v₂ = v ∨ CarriesKey v) (h n) (h₂ n)
  winner : ∀ value name mode, credential h slots.headers = .found value name mode →
    h₂.get name = h.get name

theorem eq_of_forall₂_mask {vs vs₂ : List Bytes}
    (h : List.Forall₂ (fun v v₂ => v₂ = v ∨ CarriesKey v) vs vs₂)
    (hno : ∀ v ∈ vs, ¬ CarriesKey v) : vs₂ = vs := by
  induction h with
  | nil => rfl
  | cons hv _ ih =>
    rw [ih (fun v hm => hno v (List.mem_cons_of_mem _ hm)),
      hv.resolve_right (hno _ List.mem_cons_self)]

variable {h h₂ h' : Header} {n : Bytes} {slots : Slots} {resolve : Bytes → Option KeyContext}

theorem Masked.eq_of_not_carries (hm : Masked slots h h₂) (hno : ∀ v ∈ h n, ¬ CarriesKey v) :
    h₂ n = h n := by
  by_cases hn : n ∈ slots.watched
  · exact eq_of_forall₂_mask (hm.values n hn) hno
  · exact hm.other n hn

theorem headD_of_forall₂_mask {vs vs₂ : List Bytes}
    (h : List.Forall₂ (fun v v₂ => v₂ = v ∨ CarriesKey v) vs vs₂)
    (hno : ¬ CarriesKey (vs.headD [])) : vs₂.headD [] = vs.headD [] := by
  cases h with
  | nil => rfl
  | cons hv _ => exact hv.resolve_right hno

theorem Masked.get_eq (hm : Masked slots h h₂) (hno : ¬ CarriesKey (h.get n)) :
    h₂.get n = h.get n := by
  by_cases hn : n ∈ slots.watched
  · exact headD_of_forall₂_mask (hm.values n hn) hno
  · rw [Header.get, hm.other n hn, Header.get]

theorem credential_congr {ss : List CredentialHeader}
    (hblank : ∀ n, trimSpace (h.get n) = [] → h₂.get n = h.get n)
    (hwin : ∀ value name mode, credential h ss = .found value name mode → h₂.get name = h.get name)
    (hforeign : credential h ss = .foreign → h₂.get authzHeader = h.get authzHeader) :
    credential h₂ ss = credential h ss := by
  induction ss with
  | nil =>
    have hget : h₂.get authzHeader = h.get authzHeader := by
      cases hc : authorization h with
      | nothing =>
        refine hblank _ ?_
        unfold authorization at hc
        dsimp only at hc
        by_contra hne
        rw [if_neg hne] at hc
        split at hc <;> cases hc
      | foreign => exact hforeign hc
      | found value name mode =>
        have hname : name = authzHeader := by
          simp only [authorization] at hc
          split_ifs at hc
          cases hc
          rfl
        exact hname ▸ hwin value name mode hc
    simp only [credential, authorization, hget]
  | cons s ss ih =>
    by_cases hv : trimSpace (h.get s.name) = []
    · have hget := hblank s.name hv
      have hrest : credential h (s :: ss) = credential h ss := by
        simp only [credential, hv, if_true]
      rw [hrest] at hwin hforeign ⊢
      rw [← ih hwin hforeign]
      simp only [credential, hget, hv, if_true]
    · have hfound : ∃ value mode, credential h (s :: ss) = .found value s.name mode := by
        simp only [credential, hv, if_false]
        split
        · exact ⟨_, _, rfl⟩
        · exact ⟨_, _, rfl⟩
      obtain ⟨value, mode, hfound⟩ := hfound
      have hget := hwin value s.name mode hfound
      simp only [credential, hget, hv, if_false]

section Mask

variable {g : Gateway β} {fam : Family} {caller : Caller} {req : Request β}

/-- The forwarded headers depend on what is not replaced, on the connection and on the fixed
values between neighbours. -/
theorem Gateway.upstream_congr {sent sent₂ h₂ : Header} (hsent : g.SentFrom fam caller req sent)
    (hsent₂ : g.SentFrom fam caller { req with header := h₂ } sent₂)
    (hconn : h₂ connectionHeader = req.header connectionHeader)
    (hte : h₂ teHeader = req.header teHeader)
    (hup : hasUpgradeToken (req.header connectionHeader) = true →
      h₂.get upgradeHeader = req.header.get upgradeHeader)
    (hrest : ∀ n, ¬ g.Replaces fam caller req n → n ≠ upgradeHeader → h₂ n = req.header n) :
    g.upstream fam caller { req with header := h₂ } sent₂ = g.upstream fam caller req sent := by
  have hreal : g.Realtime caller { req with header := h₂ } ↔ g.Realtime caller req := by
    simp only [Realtime, hconn]
  have hrep : ∀ n, g.Replaces fam caller { req with header := h₂ } n ↔
      g.Replaces fam caller req n := by
    intro n
    simp only [Replaces, hreal]
    rfl
  have hget : sent₂.get upgradeHeader = h₂.get upgradeHeader ∧
      sent.get upgradeHeader = req.header.get upgradeHeader := by
    constructor
    · rw [Header.get, hsent₂.eq_of_ne (by decide) (by decide) (by decide) (by decide), Header.get]
    · rw [Header.get, hsent.eq_of_ne (by decide) (by decide) (by decide) (by decide), Header.get]
  have hconn₂ : sent₂ connectionHeader = req.header connectionHeader :=
    hsent₂.connection.trans hconn
  have hupgrade : upgradeType (direct g.uni.toLower g.openKey caller (g.token fam caller req.url)
      req.url.path sent₂) = upgradeType (direct g.uni.toLower g.openKey caller
        (g.token fam caller req.url) req.url.path sent) := by
    rw [upgradeType_direct, upgradeType_direct, hsent.connection, hconn₂, hget.1, hget.2]
    split
    · rename_i hc
      exact hup hc
    · rfl
  funext n
  by_cases hn : g.Replaces fam caller req n
  · obtain hach | rfl | ⟨hhop, hu⟩ | hown | ⟨rfl, hroute⟩ | ⟨rfl, hdrop⟩ | ⟨rfl, hauthz⟩ := hn
    · rw [upstream_ach hach, upstream_ach hach]
    · rw [upstream, upstream, outgoing_contentLength, outgoing_contentLength]
    · have hte₂ : sent₂ teHeader = sent teHeader := by
        rw [hsent₂.eq_of_ne (by decide) (by decide) (by decide) (by decide),
          hsent.eq_of_ne (by decide) (by decide) (by decide) (by decide)]
        exact hte
      rw [upstream, upstream, outgoing_hop _ _ hhop hu, outgoing_hop _ _ hhop hu, hte₂, hupgrade]
    · obtain rfl | hown := List.mem_cons.mp hown
      · rw [upstream_apiKey, upstream_apiKey]
      · rw [upstream_tags hown, upstream_tags hown]
    · rw [upstream_goog hsent, upstream_goog hsent₂, if_pos hroute, if_pos hroute]
    · rw [upstream_acceptEncoding hsent hdrop, upstream_acceptEncoding hsent₂ hdrop]
    · cases ht : g.token fam caller req.url with
      | some token =>
        have h₁ :
            g.upstream fam caller { req with header := h₂ } sent₂ authzHeader = [bearer token] :=
          upstream_authz_token ht
        rw [h₁, upstream_authz_token ht]
      | none =>
        by_cases hr : g.Realtime caller req
        · rw [upstream_authz_realtime hsent ht hr,
            upstream_authz_realtime hsent₂ ht (hreal.mpr hr)]
        · have hdrops : g.dropsAuthz fam caller req.url = true := by
            obtain hd | hsome | hr' := hauthz
            · exact hd
            · rw [ht] at hsome
              cases hsome
            · exact absurd hr' hr
          rw [upstream_authz_dropped hsent ht hr hdrops,
            upstream_authz_dropped hsent₂ ht (fun h => hr (hreal.mp h)) hdrops]
  · by_cases hu : n = upgradeHeader
    · subst hu
      rw [upstream, upstream, outgoing_upgrade, outgoing_upgrade, hupgrade]
    · rw [upstream_of_not_replaces hsent hn hu,
        upstream_of_not_replaces hsent₂ (fun h => hn ((hrep n).mp h)) hu]
      exact hrest n hn hu

end Mask

theorem authn_cases {caller : Caller} (ha : authn resolve slots h = some (caller, h')) :
    (credential h slots.headers = .foreign ∧ caller = .foreign ∧ h' = h) ∨
    (∃ value name, credential h slots.headers = .found value name .passthrough ∧
      caller = .raw value ∧ h' = h) ∨
    ∃ value name kc, credential h slots.headers = .found value name .resolve ∧
      resolve value = some kc ∧ caller = .identity kc ∧ h' = h.del name := by
  unfold authn at ha
  split at ha
  · cases ha
  · rename_i hc
    cases ha
    exact .inl ⟨hc, rfl, rfl⟩
  · rename_i value name hc
    cases ha
    exact .inr (.inl ⟨value, name, hc, rfl, rfl⟩)
  · rename_i value name hc
    obtain ⟨kc, hkc, he⟩ := Option.map_eq_some_iff.mp ha
    cases he
    exact .inr (.inr ⟨value, name, kc, hc, hkc, rfl, rfl⟩)

theorem Gateway.not_replaces_authz_foreign (g : Gateway β) (fam : Family) (req : Request β) :
    ¬ g.Replaces fam .foreign req authzHeader := by
  have hdrops : g.dropsAuthz fam .foreign req.url = false := by
    unfold Gateway.dropsAuthz
    cases fam.kind <;> rfl
  have htoken : g.token fam .foreign req.url = none := by
    unfold Gateway.token
    cases fam.kind <;> rfl
  rintro (h | h | ⟨h, -⟩ | h | ⟨h, -⟩ | ⟨h, -⟩ | ⟨-, h | h | ⟨-, -, h⟩⟩)
  · exact absurd h (by decide)
  · exact absurd h (by decide)
  · exact absurd h (by decide)
  · exact absurd h (by decide)
  · exact absurd h (by decide)
  · exact absurd h (by decide)
  · rw [hdrops] at h
    cases h
  · rw [htoken] at h
    cases h
  · exact h rfl

theorem Gateway.not_replaces_of_mem (g : Gateway β) (fam : Family) (caller : Caller)
    (req : Request β) (hn : n ∈ [contentTypeHeader, upgradeHeader]) :
    ¬ g.Replaces fam caller req n := by
  have hall : ∀ n ∈ [contentTypeHeader, upgradeHeader], ¬ bytes "x-ach-" <+: n ∧
      n ≠ contentLengthHeader ∧ ¬ (n ∈ hopHeaders ∧ n ≠ upgradeHeader) ∧
      n ∉ [apiKeyHeader, tagsHeader, headerTags, plainTagsHeader] ∧ n ≠ googKeyHeader ∧
      n ≠ acceptEncodingHeader ∧ n ≠ authzHeader := by decide
  obtain ⟨h₁, h₂, h₃, h₄, h₅, h₆, h₇⟩ := hall n hn
  simp only [Replaces, h₁, h₂, h₃, h₄, h₅, h₆, h₇, false_and, or_self, not_false_eq_true]

theorem Masked.authn_eq {g : Gateway β} {fam : Family} {caller : Caller} {req : Request β}
    (hm : Masked slots req.header h₂) (ha : authn resolve slots req.header = some (caller, h'))
    (hc : g.Contained fam caller { req with header := h' } slots) :
    ∃ h₂', authn resolve slots h₂ = some (caller, h₂') ∧
      ∀ n, h₂' n = h₂ n ∧ h' n = req.header n ∨ h₂' n = [] ∧ h' n = [] := by
  have hblank : ∀ n, trimSpace (req.header.get n) = [] → h₂.get n = req.header.get n :=
    fun n hn => hm.get_eq (fun hk => hk.trimSpace_ne_nil hn)
  have hforeign : credential req.header slots.headers = .foreign →
      h₂.get authzHeader = req.header.get authzHeader := by
    intro hf
    obtain ⟨-, rfl, rfl⟩ | ⟨v, n, hv, -⟩ | ⟨v, n, kc, hv, -⟩ := authn_cases ha
    · have hsurvive : ∀ v ∈ req.header authzHeader, ¬ CarriesKey v := by
        intro v hv
        refine hc.survivors authzHeader List.mem_cons_self v
          ⟨g.not_replaces_authz_foreign fam _, ?_⟩
        rw [if_neg (by decide)]
        exact hv
      rw [Header.get, hm.eq_of_not_carries hsurvive, Header.get]
    · rw [hf] at hv
      cases hv
    · rw [hf] at hv
      cases hv
  have hcred := credential_congr hblank hm.winner hforeign
  unfold authn
  rw [hcred]
  obtain ⟨hf, rfl, rfl⟩ | ⟨v, n, hf, rfl, rfl⟩ | ⟨v, name, kc, hf, hkc, rfl, rfl⟩ := authn_cases ha
  · rw [hf]
    exact ⟨h₂, rfl, fun n => .inl ⟨rfl, rfl⟩⟩
  · rw [hf]
    exact ⟨h₂, rfl, fun n => .inl ⟨rfl, rfl⟩⟩
  · rw [hf]
    refine ⟨h₂.del name, by dsimp only; rw [hkc]; rfl, fun n => ?_⟩
    by_cases hn : n = name
    · subst hn
      exact .inr ⟨Header.del_self .., Header.del_self ..⟩
    · exact .inl ⟨Header.del_ne _ hn, Header.del_ne _ hn⟩

theorem caller_of_carries {g : Gateway β} (hw : WritesNoKey g resolve) {caller : Caller}
    (h : CarriesKey (material g.openKey caller)) : ∃ key, caller = .raw key := by
  cases caller with
  | foreign => exact absurd h not_carriesKey_nil
  | raw key => exact ⟨key, rfl⟩
  | identity kc =>
    cases hm : kc.material.bind g.openKey with
    | none =>
      simp only [material, hm, Option.getD_none] at h
      exact absurd h not_carriesKey_nil
    | some m =>
      simp only [material, hm, Option.getD_some] at h
      obtain ⟨s, -, hs⟩ := Option.bind_eq_some_iff.mp hm
      exact absurd h (hw.material s m hs)

theorem tags_of_authn {g : Gateway β} (hw : WritesNoKey g resolve) {caller : Caller}
    (ha : authn resolve slots h = some (caller, h')) :
    ¬ CarriesKey ([comma].intercalate (tagsForContext g.uni.toLower caller)) := by
  obtain ⟨-, rfl, -⟩ | ⟨v, n, -, rfl, -⟩ | ⟨v, n, kc, -, hkc, rfl, -⟩ := authn_cases ha
  · exact not_carriesKey_nil
  · exact not_carriesKey_nil
  · exact hw.tags v kc hkc

/-- A forwarded request has no key of ACH in a credential header if and only if the keys of the
request are contained: the winning one is taken away, and any other is in a header that is not
forwarded. The request upstream then does not depend on those others. -/
theorem keys_stay_iff {g : Gateway β} {resolve : Bytes → Option KeyContext}
    (hw : WritesNoKey g resolve) (slots : Slots) {fam : Family} {caller : Caller} {h' : Header}
    {req up : Request β} (ha : authn resolve slots req.header = some (caller, h'))
    (hup : g.serve resolve slots fam req = some up) :
    (NoKeyLeaves slots up ↔ g.Contained fam caller { req with header := h' } slots) ∧
    (g.Contained fam caller { req with header := h' } slots →
      connectionHeader ∉ slots.watched → teHeader ∉ slots.watched →
      ∀ h₂, Masked slots req.header h₂ →
        g.serve resolve slots fam { req with header := h₂ } = some up) := by
  have hfwd : g.forward fam caller { req with header := h' } = some up := by
    rw [Gateway.serve, ha, Option.bind_some] at hup
    exact hup
  obtain ⟨sent, hsent, hup'⟩ := Gateway.forward_of_contentType hfwd rfl
  have hproxied : g.proxied fam caller { req with header := h' } up.body sent = up :=
    Option.some.inj (hup'.symm.trans hfwd)
  have hheader : up.header = g.upstream fam caller { req with header := h' } sent := by
    rw [← hproxied]
    rfl
  constructor
  · have hiff := Gateway.noKey_iff_contained hsent hw.token (tags_of_authn hw ha)
      (caller_of_carries hw) slots
    rw [← hiff, NoKeyLeaves, hheader]
  · intro hc hconn hte h₂ hm
    obtain ⟨h₂', ha₂, hpoint⟩ := hm.authn_eq ha hc
    have heq : ∀ n, (∀ v ∈ h' n, ¬ CarriesKey v) → h₂' n = h' n := by
      intro n hno
      obtain ⟨h₁, h₂⟩ | ⟨h₁, h₂⟩ := hpoint n
      · rw [h₁, h₂]
        exact hm.eq_of_not_carries (fun v hv => hno v (h₂ ▸ hv))
      · rw [h₁, h₂]
    have hother : ∀ n, n ∉ slots.watched → h₂' n = h' n := by
      intro n hn
      obtain ⟨h₁, h₂⟩ | ⟨h₁, h₂⟩ := hpoint n
      · rw [h₁, h₂]
        exact hm.other n hn
      · rw [h₁, h₂]
    have hrest : ∀ n, ¬ g.Replaces fam caller { req with header := h' } n → n ≠ upgradeHeader →
        h₂' n = h' n := by
      intro n hn hu
      by_cases hwn : n ∈ slots.watched
      · refine heq n (fun v hv => hc.survivors n hwn v ⟨hn, ?_⟩)
        rw [if_neg hu]
        exact hv
      · exact hother n hwn
    have hupgrade : hasUpgradeToken (h' connectionHeader) = true →
        h₂'.get upgradeHeader = h'.get upgradeHeader := by
      intro htok
      by_cases hwn : upgradeHeader ∈ slots.watched
      · have hk : ¬ CarriesKey (h'.get upgradeHeader) := by
          refine hc.survivors upgradeHeader hwn _ ⟨g.not_replaces_of_mem fam caller _ (by decide),
            ?_⟩
          rw [if_pos rfl]
          exact ⟨htok, rfl⟩
        obtain ⟨h₁, h₂⟩ | ⟨h₁, h₂⟩ := hpoint upgradeHeader
        · unfold Header.get at hk ⊢
          rw [h₂] at hk
          rw [h₁, h₂]
          exact hm.get_eq hk
        · rw [Header.get, h₁, Header.get, h₂]
      · rw [Header.get, hother _ hwn, Header.get]
    have hct : h₂' contentTypeHeader = h' contentTypeHeader :=
      hrest _ (g.not_replaces_of_mem fam caller _ (by decide)) (by decide)
    obtain ⟨sent₂, hsent₂, hup₂⟩ := Gateway.forward_of_contentType hfwd hct
    have hup₃ := Gateway.upstream_congr hsent hsent₂ (hother _ hconn) (hother _ hte) hupgrade hrest
    rw [Gateway.serve, ha₂, Option.bind_some]
    refine hup₂.trans (congrArg some ?_)
    rw [← hproxied]
    simp only [Gateway.proxied, Request.mk.injEq, true_and, and_true]
    exact hup₃

def sealedGateway : Gateway Json := { jsonGateway [] with openKey := fun _ => none }

def ownerContext : KeyContext := ⟨bytes "x@corp", .pk, [], [], none⟩

def getRequest (header : Header) : Request Json where
  method := .get
  url := ⟨bytes "/v1/files", []⟩
  allModels := false
  namesAlias := false
  header := header
  body := none

def keySlot : Slots where
  headers := [⟨bytes "x-key", .resolve⟩]
  nodup := by decide
  name_ne_nil := by decide
  name_ne_authz := by decide

def presentedKey : Header := fun n =>
  if n = bytes "x-key" then [bytes "ek-1"] else if n = authzHeader then [bytes "Basic abc"] else []

theorem sealedGateway_writesNoKey : WritesNoKey sealedGateway (fun _ => some ownerContext) where
  material := fun s m h => by cases h
  token := fun _ _ _ t h => by cases h
  tags := fun v kc h hk => by
    cases h
    exact absurd hk.dash_mem (by decide)

theorem keys_stay_resolved : ∃ up,
    sealedGateway.serve (fun _ => some ownerContext) keySlot .v1 (getRequest presentedKey) =
      some up ∧
      NoKeyLeaves keySlot up := by
  have ha : authn (fun _ => some ownerContext) keySlot (getRequest presentedKey).header =
      some (.identity ownerContext, presentedKey.del (bytes "x-key")) := rfl
  have hup :
      sealedGateway.serve (fun _ => some ownerContext) keySlot .v1 (getRequest presentedKey) =
      some _ := rfl
  refine ⟨_, hup, ((keys_stay_iff sealedGateway_writesNoKey keySlot ha hup).1).mpr ⟨?_, ?_⟩⟩
  · intro n hn v hs hk
    have hwatched : n = authzHeader ∨ n = bytes "x-key" :=
      by simpa [Slots.watched, keySlot] using hn
    obtain ⟨-, hv⟩ := hs
    obtain rfl | rfl := hwatched
    · rw [if_neg (by decide)] at hv
      obtain rfl : v = bytes "Basic abc" := List.mem_singleton.mp hv
      exact absurd hk.dash_mem (by decide)
    · rw [if_neg (by decide)] at hv
      cases hv
  · intro key hkey
    cases hkey

/-- A key behind a scheme in lower case is nobody's to judge, and goes upstream as it came. -/
theorem lower_case_scheme_leaks : ∃ up,
    sealedGateway.serve (fun _ => some ownerContext) keySlot .v1
      (getRequest (fun n => if n = authzHeader then [bytes "bearer pk-1"] else [])) = some up ∧
      bytes "bearer pk-1" ∈ up.header authzHeader ∧ ¬ NoKeyLeaves keySlot up := by
  refine ⟨_, rfl, by decide, fun h => ?_⟩
  refine h authzHeader List.mem_cons_self (bytes "bearer pk-1") (by decide) ?_
  exact .inr ⟨[0x20], by decide, bytes "bearer", bytes "pk-1", rfl, by decide⟩

end AchProofs.Forwarder
