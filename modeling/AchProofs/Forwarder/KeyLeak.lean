import AchProofs.Forwarder.Credential
import AchProofs.Forwarder.SentHeader

namespace AchProofs.Forwarder

open Foundation Foundation.Percent Foundation.Search
  Foundation.Text Foundation.Json

variable {β : Type}

def Gateway.serve (g : Gateway β) (resolve : Bytes → Option KeyContext) (slots : Slots)
    (fam : Family) (req : Request β) : Option (Request β) :=
  (authn resolve slots req.header).bind (fun r => g.forward fam r.1 { req with header := r.2 })

def Slots.watched (slots : Slots) : List Bytes :=
  authzHeader :: slots.headers.map CredentialHeader.name

def NoKeyLeaves (slots : Slots) (up : Request β) : Prop :=
  ∀ n ∈ slots.watched, ∀ v ∈ up.header n, ¬ CarriesKey v

/-- What the forwarder itself writes upstream holds no key of ACH: LiteLLM's keys, the minted tokens
and the tags of the callers. -/
structure WritesNoKey (g : Gateway β) (resolve : Bytes → Option KeyContext) : Prop where
  material : ∀ s m, g.openKey s = some m → ¬ CarriesKey m
  token : ∀ kind kc name t, g.sign kind kc name = some t → ¬ CarriesKey t
  tags : ∀ v kc, resolve v = some kc →
    ¬ CarriesKey ([comma].intercalate (tagsForContext g.uni.toLower (.identity kc)))

section Upstream

variable (g : Gateway β) (fam : Family) (caller : Caller) (req : Request β)

def Gateway.Realtime : Prop :=
  hasUpgradeToken (req.header connectionHeader) = true ∧ req.url.path = bytes "/v1/realtime" ∧
    material g.openKey caller ≠ []

/-- The headers whose values in the request do not go upstream. -/
def Gateway.Replaces (n : Bytes) : Prop :=
  bytes "x-ach-" <+: n ∨ n = contentLengthHeader ∨ (n ∈ hopHeaders ∧ n ≠ upgradeHeader) ∨
  n ∈ [apiKeyHeader, tagsHeader, headerTags, plainTagsHeader] ∨
  (n = googKeyHeader ∧ routeFor req.url.path = .gemini) ∨
  (n = acceptEncodingHeader ∧ dropsEncoding fam req = true) ∨
  (n = authzHeader ∧ (g.dropsAuthz fam caller req.url = true ∨
    (g.token fam caller req.url).isSome = true ∨ g.Realtime caller req))

/-- The values of a header of the request that go upstream. Of an upgrade the first one does, if
the connection asks for it. -/
def Gateway.Survives (n v : Bytes) : Prop :=
  ¬ g.Replaces fam caller req n ∧
    if n = upgradeHeader then
      hasUpgradeToken (req.header connectionHeader) = true ∧ v = req.header.get upgradeHeader
    else v ∈ req.header n

def Gateway.KeyAt (n : Bytes) : Prop :=
  (n = apiKeyHeader ∧ routeFor req.url.path ≠ .gemini) ∨
  (n = googKeyHeader ∧ routeFor req.url.path = .gemini) ∨
  (n = authzHeader ∧ g.Realtime caller req ∧ g.token fam caller req.url = none)

/-- Every key in a watched header is in one that does not go upstream, and if a client presents one
as its LiteLLM key, then that does not go upstream in a watched header. -/
structure Gateway.Contained (slots : Slots) : Prop where
  survivors : ∀ n ∈ slots.watched, ∀ v, g.Survives fam caller req n v → ¬ CarriesKey v
  raw : ∀ key, caller = .raw key → CarriesKey key →
    ∀ n ∈ slots.watched, ¬ g.KeyAt fam caller req n

end Upstream

/-! ### The headers of the proxy's own -/

theorem upgradeType_direct (toLower : Bytes → Bytes) (openKey : Bytes → Option Bytes)
    (caller : Caller) (jwt : Option Bytes) (path : Bytes) (h : Header) :
    upgradeType (direct toLower openKey caller jwt path h) =
      if hasUpgradeToken (h connectionHeader) then h.get upgradeHeader else [] := by
  have hup : hasUpgradeToken [bytes "Upgrade"] = true := by decide
  have hno : hasUpgradeToken [] = false := by decide
  have hget :
      (direct toLower openKey caller jwt path h).get upgradeHeader = h.get upgradeHeader := by
    rw [Header.get, direct_other _ _ _ _ _ _ (by decide) (by decide), Header.get]
  rw [upgradeType, direct_connection, hget]
  split <;> simp_all

theorem outgoing_contentLength (o d : Header) : outgoing o d contentLengthHeader = [] := by
  unfold outgoing
  split_ifs <;> simp +decide [Header.set_ne]

theorem outgoing_upgrade (o d : Header) : outgoing o d upgradeHeader =
    if upgradeType d ≠ [] then [upgradeType d] else [] := by
  unfold outgoing
  split_ifs <;> simp +decide [Header.set_ne, Header.del_ne, removeHopByHop]

theorem outgoing_hop (o d : Header) {n : Bytes} (hn : n ∈ hopHeaders) (hup : n ≠ upgradeHeader) :
    outgoing o d n =
      if n = connectionHeader then (if upgradeType d ≠ [] then [bytes "Upgrade"] else [])
      else if n = teHeader then
        (if bytes "trailers" ∈ tokens (o teHeader) then [bytes "trailers"] else [])
      else [] := by
  have hlen : n ≠ contentLengthHeader := by
    rintro rfl
    exact absurd hn (by decide)
  have hte : teHeader ≠ connectionHeader := by decide
  have hremove : (removeHopByHop d).del contentLengthHeader n = [] := by
    rw [Header.del_ne _ hlen, removeHopByHop, if_pos (.inr hn)]
  unfold outgoing
  by_cases hc : n = connectionHeader
  · subst hc
    split_ifs <;> simp_all [Header.set_ne, Ne.symm hte]
  · by_cases ht : n = teHeader
    · subst ht
      split_ifs <;> simp_all [Header.set_ne]
    · split_ifs <;> simp_all [Header.set_ne]

/-! ### What reaches the upstream -/

section Reach

variable {g : Gateway β} {fam : Family} {caller : Caller} {req : Request β} {sent : Header}

theorem Gateway.SentFrom.eq_of_ne (hsent : g.SentFrom fam caller req sent) {n : Bytes}
    (hlen : n ≠ contentLengthHeader) (hte : n ≠ transferEncodingHeader)
    (hae : n ≠ acceptEncodingHeader) (haz : n ≠ authzHeader) : sent n = req.header n := by
  rw [hsent n hlen hte, if_neg (by simp [hae, haz])]

theorem Gateway.SentFrom.connection (hsent : g.SentFrom fam caller req sent) :
    sent connectionHeader = req.header connectionHeader :=
  hsent.eq_of_ne (by decide) (by decide) (by decide) (by decide)

theorem Gateway.token_eq_some {u : URL} {token : Bytes} (h : g.token fam caller u = some token) :
    ∃ kind kc name, g.sign kind kc name = some token := by
  unfold Gateway.token at h
  split at h
  · split at h
    · exact ⟨_, _, _, h⟩
    · cases h
  · cases h

def Gateway.upstream (g : Gateway β) (fam : Family) (caller : Caller) (req : Request β)
    (sent : Header) : Header :=
  outgoing sent
    (direct g.uni.toLower g.openKey caller (g.token fam caller req.url) req.url.path sent)

theorem Gateway.upstream_of_ne {n : Bytes} (hn : n ∉ hopHeaders) (hlen : n ≠ contentLengthHeader)
    (haz : n ≠ authzHeader) : g.upstream fam caller req sent n =
      stampTags g.uni.toLower caller (rewriteKeys g.openKey caller req.url.path sent) n := by
  rw [upstream, outgoing_direct _ _ _ _ _ _ _ hn hlen, direct_of_ne _ _ _ _ _ _ haz]

theorem Gateway.upstream_authz_token {token : Bytes} (h : g.token fam caller req.url = some token) :
    g.upstream fam caller req sent authzHeader = [bearer token] := by
  rw [upstream, outgoing_direct _ _ _ _ _ _ _ (by decide) (by decide), direct_authz, h]

theorem Gateway.upstream_authz_realtime (hsent : g.SentFrom fam caller req sent)
    (h : g.token fam caller req.url = none) (hr : g.Realtime caller req) :
    g.upstream fam caller req sent authzHeader = [bearer (material g.openKey caller)] := by
  rw [upstream, outgoing_direct _ _ _ _ _ _ _ (by decide) (by decide), direct_authz, h]
  dsimp only
  rw [rewriteKeys_authz, hsent.connection]
  exact if_pos hr

theorem Gateway.upstream_authz_sent (hsent : g.SentFrom fam caller req sent)
    (h : g.token fam caller req.url = none) (hr : ¬ g.Realtime caller req) :
    g.upstream fam caller req sent authzHeader = sent authzHeader := by
  rw [upstream, outgoing_direct _ _ _ _ _ _ _ (by decide) (by decide), direct_authz, h]
  dsimp only
  rw [rewriteKeys_authz, hsent.connection]
  exact if_neg hr

theorem Gateway.upstream_upgrade (hsent : g.SentFrom fam caller req sent) :
    g.upstream fam caller req sent upgradeHeader =
      if hasUpgradeToken (req.header connectionHeader) ∧ req.header.get upgradeHeader ≠ [] then
        [req.header.get upgradeHeader] else [] := by
  have hup : sent upgradeHeader = req.header upgradeHeader :=
    hsent.eq_of_ne (by decide) (by decide) (by decide) (by decide)
  have hget : sent.get upgradeHeader = req.header.get upgradeHeader := by
    rw [Header.get, hup, Header.get]
  rw [upstream, outgoing_upgrade, upgradeType_direct, hsent.connection, hget]
  by_cases hc : hasUpgradeToken (req.header connectionHeader) = true <;> simp [hc]

theorem Gateway.upstream_apiKey : g.upstream fam caller req sent apiKeyHeader =
    if routeFor req.url.path = .gemini then []
    else if routeFor req.url.path = .mcp then [bearer (material g.openKey caller)]
    else [material g.openKey caller] := by
  rw [upstream_of_ne (by decide) (by decide) (by decide),
    stampTags_other _ _ _ (by decide) (by decide) (by decide), rewriteKeys_apiKey]

theorem Gateway.upstream_goog (hsent : g.SentFrom fam caller req sent) :
    g.upstream fam caller req sent googKeyHeader =
      if routeFor req.url.path = .gemini then [material g.openKey caller]
      else req.header googKeyHeader := by
  rw [upstream_of_ne (by decide) (by decide) (by decide),
    stampTags_other _ _ _ (by decide) (by decide) (by decide), rewriteKeys_goog,
    hsent.eq_of_ne (by decide) (by decide) (by decide) (by decide)]

theorem Gateway.upstream_of_not_replaces (hsent : g.SentFrom fam caller req sent) {n : Bytes}
    (hn : ¬ g.Replaces fam caller req n) (hup : n ≠ upgradeHeader) :
    g.upstream fam caller req sent n = req.header n := by
  simp only [Replaces, not_or, not_and] at hn
  obtain ⟨hach, hlen, hhop, hown, hgoog, hae, haz⟩ := hn
  have hhop' : n ∉ hopHeaders := fun hm => hhop hm hup
  have hte : n ≠ transferEncodingHeader := by
    rintro rfl
    exact hhop' (by decide)
  have hsame : (n = authzHeader → g.dropsAuthz fam caller req.url ≠ true) →
      sent n = req.header n := by
    intro hdrop
    rw [hsent n hlen hte, if_neg]
    rintro (⟨rfl, h⟩ | ⟨rfl, h⟩)
    · exact hae rfl h
    · exact hdrop rfl h
  by_cases hz : n = authzHeader
  · subst hz
    obtain ⟨hdrop, htoken, hreal⟩ := haz rfl
    rw [upstream_authz_sent hsent (Option.not_isSome_iff_eq_none.mp htoken) hreal]
    exact hsame (fun _ => hdrop)
  · by_cases hg : n = googKeyHeader
    · subst hg
      rw [upstream_goog hsent, if_neg (hgoog rfl)]
    · have hother : n ∉ ownHeaders := by
        have hconn : n ≠ connectionHeader := by
          rintro rfl
          exact hhop' (by decide)
        simp only [List.mem_cons, List.not_mem_nil, or_false, not_or] at hown
        simp [ownHeaders, hconn, hz, hg, hown]
      rw [upstream, outgoing_direct _ _ _ _ _ _ _ hhop' hlen, direct_other _ _ _ _ _ _ hother hach]
      exact hsame (fun h => absurd h hz)

theorem Gateway.upstream_ach {n : Bytes} (hach : bytes "x-ach-" <+: n) :
    g.upstream fam caller req sent n = [] := by
  have hne : ∀ m, ¬ bytes "x-ach-" <+: m → n ≠ m := fun m hm he => hm (he ▸ hach)
  have hhop : n ∉ hopHeaders := by
    have hall : ∀ m ∈ hopHeaders, ¬ bytes "x-ach-" <+: m := by decide
    exact fun hm => hall n hm hach
  rw [upstream_of_ne hhop (hne _ (by decide)) (hne _ (by decide)),
    stampTags_other _ _ _ (hne _ (by decide)) (hne _ (by decide)) (hne _ (by decide)),
    rewriteKeys_ach _ _ _ _ hach]

theorem Gateway.upstream_tags {n : Bytes} (hn : n ∈ [tagsHeader, headerTags, plainTagsHeader]) :
    g.upstream fam caller req sent n =
      if n = plainTagsHeader ∨ tagsForContext g.uni.toLower caller = [] then []
      else [[comma].intercalate (tagsForContext g.uni.toLower caller)] := by
  have hall : ∀ m ∈ [tagsHeader, headerTags, plainTagsHeader],
      m ∉ hopHeaders ∧ m ≠ contentLengthHeader ∧ m ≠ authzHeader := by decide
  obtain ⟨hhop, hlen, haz⟩ := hall n hn
  have h₁ : tagsHeader ≠ plainTagsHeader := by decide
  have h₂ : headerTags ≠ plainTagsHeader := by decide
  rw [upstream_of_ne hhop hlen haz]
  simp only [List.mem_cons, List.not_mem_nil, or_false] at hn
  obtain rfl | rfl | rfl := hn
  · simp only [stampTags_tags, h₁, false_or]
  · simp only [stampTags_mirror, h₂, false_or]
  · simp only [stampTags_plain, true_or, if_true]

theorem Gateway.upstream_acceptEncoding (hsent : g.SentFrom fam caller req sent)
    (hdrop : dropsEncoding fam req = true) :
    g.upstream fam caller req sent acceptEncodingHeader = [] := by
  rw [upstream, outgoing_direct _ _ _ _ _ _ _ (by decide) (by decide),
    direct_other _ _ _ _ _ _ (by decide) (by decide), hsent _ (by decide) (by decide),
    if_pos (.inl ⟨rfl, hdrop⟩)]

theorem Gateway.upstream_authz_dropped (hsent : g.SentFrom fam caller req sent)
    (h : g.token fam caller req.url = none) (hr : ¬ g.Realtime caller req)
    (hdrop : g.dropsAuthz fam caller req.url = true) :
    g.upstream fam caller req sent authzHeader = [] := by
  rw [upstream_authz_sent hsent h hr, hsent _ (by decide) (by decide), if_pos (.inr ⟨rfl, hdrop⟩)]

theorem Gateway.key_of_replaces (hsent : g.SentFrom fam caller req sent)
    (htoken : ∀ kind kc name t, g.sign kind kc name = some t → ¬ CarriesKey t)
    (htags : ¬ CarriesKey ([comma].intercalate (tagsForContext g.uni.toLower caller)))
    {n v : Bytes} (hn : g.Replaces fam caller req n) (hv : v ∈ g.upstream fam caller req sent n)
    (hk : CarriesKey v) :
    g.KeyAt fam caller req n ∧ CarriesKey (material g.openKey caller) := by
  obtain hach | rfl | ⟨hhop, hup⟩ | hown | ⟨rfl, hroute⟩ | ⟨rfl, hdrop⟩ | ⟨rfl, hauthz⟩ := hn
  · rw [upstream_ach hach] at hv
    cases hv
  · rw [upstream, outgoing_contentLength] at hv
    cases hv
  · rw [upstream, outgoing_hop _ _ hhop hup] at hv
    have hfixed : v = bytes "Upgrade" ∨ v = bytes "trailers" := by
      split_ifs at hv <;> simp_all
    obtain rfl | rfl := hfixed
    · exact absurd hk.dash_mem (by decide)
    · exact absurd hk.dash_mem (by decide)
  · obtain rfl | hown := List.mem_cons.mp hown
    · rw [upstream_apiKey] at hv
      split at hv
      · cases hv
      rename_i hroute
      refine ⟨.inl ⟨rfl, hroute⟩, ?_⟩
      split at hv
      · rw [List.mem_singleton.mp hv] at hk
        exact carriesKey_bearer.mp hk
      · rw [List.mem_singleton.mp hv] at hk
        exact hk
    · rw [upstream_tags hown] at hv
      split at hv
      · cases hv
      · rw [List.mem_singleton.mp hv] at hk
        exact absurd hk htags
  · rw [upstream_goog hsent, if_pos hroute, List.mem_singleton] at hv
    exact ⟨.inr (.inl ⟨rfl, hroute⟩), hv ▸ hk⟩
  · rw [upstream_acceptEncoding hsent hdrop] at hv
    cases hv
  · cases ht : g.token fam caller req.url with
    | some token =>
      rw [upstream_authz_token ht, List.mem_singleton] at hv
      rw [hv] at hk
      obtain ⟨kind, kc, name, hsign⟩ := token_eq_some ht
      exact absurd (carriesKey_bearer.mp hk) (htoken kind kc name token hsign)
    | none =>
      by_cases hr : g.Realtime caller req
      · rw [upstream_authz_realtime hsent ht hr, List.mem_singleton] at hv
        rw [hv] at hk
        exact ⟨.inr (.inr ⟨rfl, hr, ht⟩), carriesKey_bearer.mp hk⟩
      · have hdrops : g.dropsAuthz fam caller req.url = true := by
          obtain hd | hsome | hr' := hauthz
          · exact hd
          · rw [ht] at hsome
            cases hsome
          · exact absurd hr' hr
        rw [upstream_authz_dropped hsent ht hr hdrops] at hv
        cases hv

theorem Gateway.upstream_keyAt (hsent : g.SentFrom fam caller req sent) {n : Bytes}
    (hn : g.KeyAt fam caller req n) (hk : CarriesKey (material g.openKey caller)) :
    ∃ v ∈ g.upstream fam caller req sent n, CarriesKey v := by
  obtain ⟨rfl, hroute⟩ | ⟨rfl, hroute⟩ | ⟨rfl, hr, ht⟩ := hn
  · rw [upstream_apiKey, if_neg hroute]
    split
    · exact ⟨_, List.mem_singleton_self _, carriesKey_bearer.mpr hk⟩
    · exact ⟨_, List.mem_singleton_self _, hk⟩
  · rw [upstream_goog hsent, if_pos hroute]
    exact ⟨_, List.mem_singleton_self _, hk⟩
  · rw [upstream_authz_realtime hsent ht hr]
    exact ⟨_, List.mem_singleton_self _, carriesKey_bearer.mpr hk⟩

theorem Gateway.noKey_iff_contained (hsent : g.SentFrom fam caller req sent)
    (htoken : ∀ kind kc name t, g.sign kind kc name = some t → ¬ CarriesKey t)
    (htags : ¬ CarriesKey ([comma].intercalate (tagsForContext g.uni.toLower caller)))
    (hraw : CarriesKey (material g.openKey caller) → ∃ key, caller = .raw key) (slots : Slots) :
    (∀ n ∈ slots.watched, ∀ v ∈ g.upstream fam caller req sent n, ¬ CarriesKey v) ↔
      g.Contained fam caller req slots := by
  constructor
  · intro h
    refine ⟨fun n hn v hs hk => ?_, fun key hkey hk n hn hat => ?_⟩
    · obtain ⟨hrep, hv⟩ := hs
      split at hv
      · rename_i hup
        obtain ⟨hc, rfl⟩ := hv
        subst hup
        have hne : req.header.get upgradeHeader ≠ [] := fun he => not_carriesKey_nil (he ▸ hk)
        refine h upgradeHeader hn _ ?_ hk
        rw [upstream_upgrade hsent, if_pos ⟨hc, hne⟩]
        exact List.mem_singleton_self _
      · rename_i hup
        refine h n hn v ?_ hk
        rw [upstream_of_not_replaces hsent hrep hup]
        exact hv
    · subst hkey
      obtain ⟨v, hv, hk'⟩ := upstream_keyAt hsent hat hk
      exact h n hn v hv hk'
  · intro hc n hn v hv hk
    by_cases hrep : g.Replaces fam caller req n
    · obtain ⟨hat, hmat⟩ := key_of_replaces hsent htoken htags hrep hv hk
      obtain ⟨key, rfl⟩ := hraw hmat
      exact hc.raw key rfl hmat n hn hat
    · refine hc.survivors n hn v ⟨hrep, ?_⟩ hk
      by_cases hup : n = upgradeHeader
      · subst hup
        rw [upstream_upgrade hsent] at hv
        split at hv
        · rename_i hcond
          rw [if_pos rfl]
          exact ⟨hcond.1, List.mem_singleton.mp hv⟩
        · cases hv
      · rw [if_neg hup]
        rw [upstream_of_not_replaces hsent hrep hup] at hv
        exact hv

end Reach

end AchProofs.Forwarder
