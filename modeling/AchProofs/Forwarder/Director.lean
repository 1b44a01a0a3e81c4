import AchProofs.Forwarder.Header

namespace AchProofs.Forwarder

open Foundation.Percent Foundation.Search Foundation.Text

inductive KeyType where
  | pk
  | ek
deriving DecidableEq

/-- What authentication says about the key of a request. -/
structure KeyContext where
  ownerEmail : Bytes
  keyType : KeyType
  environment : Bytes
  keyID : Bytes
  /-- The LiteLLM key of the caller, sealed. -/
  material : Option Bytes
deriving DecidableEq

/-- Who sends a request: nobody ACH knows, the holder of a LiteLLM key, or the owner of an ACH
key. -/
inductive Caller where
  | foreign
  | raw (key : Bytes)
  | identity (kc : KeyContext)
deriving DecidableEq

def Caller.keyContext : Caller → Option KeyContext
  | .identity kc => some kc
  | _ => none

section Tags

variable (toLower : Bytes → Bytes)

def normalizeEmail (email : Bytes) : Bytes := toLower (trimSpace email)

def userBudgetTag (email : Bytes) : Bytes := bytes "user:" ++ normalizeEmail toLower email

def environmentBudgetTag (env : Bytes) : Bytes := bytes "environment:" ++ env

def keyBudgetTag (keyID : Bytes) : Bytes := bytes "key:" ++ keyID

def tagsForContext (caller : Caller) : List Bytes :=
  match caller.keyContext with
  | none => []
  | some kc =>
    (if kc.ownerEmail ≠ [] then [userBudgetTag toLower kc.ownerEmail] else []) ++
    (if kc.keyType = .ek then
      (if kc.environment ≠ [] then [environmentBudgetTag kc.environment] else []) ++
      (if kc.keyID ≠ [] then [keyBudgetTag kc.keyID] else [])
    else [])

def stampTags (caller : Caller) (h : Header) : Header :=
  let h := ((h.del tagsHeader).del headerTags).del plainTagsHeader
  let tags := tagsForContext toLower caller
  if tags = [] then h
  else
    let joined := [comma].intercalate tags
    (h.set tagsHeader joined).set headerTags joined

end Tags

def stripAndRewrite (h : Header) (litellmAPIKey : Bytes) : Header :=
  Header.set (fun n => if bytes "x-ach-" <+: n then [] else h n) apiKeyHeader litellmAPIKey

/-- The LiteLLM key that a request goes upstream with. A sealed one that does not open counts as
none. -/
def material (openKey : Bytes → Option Bytes) : Caller → Bytes
  | .foreign => []
  | .raw key => key
  | .identity kc => (kc.material.bind openKey).getD []

def bearer (key : Bytes) : Bytes := bytes "Bearer " ++ key

def rewriteKeys (openKey : Bytes → Option Bytes) (caller : Caller) (path : Bytes) (h : Header) :
    Header :=
  let upgrade := hasUpgradeToken (h connectionHeader)
  let key := material openKey caller
  let h := if upgrade then h.set connectionHeader (bytes "Upgrade") else h.del connectionHeader
  let h := stripAndRewrite h key
  let h := if upgrade ∧ path = bytes "/v1/realtime" ∧ key ≠ [] then h.set authzHeader (bearer key)
    else h
  let h := if routeFor path = .mcp then h.set apiKeyHeader (bearer key) else h
  if routeFor path = .gemini then (h.del apiKeyHeader).set googKeyHeader key else h

/-- What the director makes of the headers of a request to a path, with the token it was given. -/
def direct (toLower : Bytes → Bytes) (openKey : Bytes → Option Bytes) (caller : Caller)
    (jwt : Option Bytes) (path : Bytes) (h : Header) : Header :=
  let h := stampTags toLower caller (rewriteKeys openKey caller path h)
  match jwt with
  | some token => h.set authzHeader (bearer token)
  | none => h

/-! What reaches each header. -/

section Direct

variable (toLower : Bytes → Bytes) (openKey : Bytes → Option Bytes) (caller : Caller)
  (jwt : Option Bytes) (path : Bytes) (h : Header)

def ownHeaders : List Bytes :=
  [connectionHeader, authzHeader, apiKeyHeader, googKeyHeader, tagsHeader, headerTags,
    plainTagsHeader]

theorem stampTags_tags : stampTags toLower caller h tagsHeader =
    if tagsForContext toLower caller = [] then []
    else [[comma].intercalate (tagsForContext toLower caller)] := by
  unfold stampTags
  dsimp only
  split
  · rw [Header.del_ne _ (by decide), Header.del_ne _ (by decide), Header.del_self]
  · rw [Header.set_ne _ _ (by decide), Header.set_self]

theorem stampTags_mirror : stampTags toLower caller h headerTags =
    if tagsForContext toLower caller = [] then []
    else [[comma].intercalate (tagsForContext toLower caller)] := by
  unfold stampTags
  dsimp only
  split
  · rw [Header.del_ne _ (by decide), Header.del_self]
  · rw [Header.set_self]

theorem stampTags_plain : stampTags toLower caller h plainTagsHeader = [] := by
  unfold stampTags
  dsimp only
  split
  · rw [Header.del_self]
  · rw [Header.set_ne _ _ (by decide), Header.set_ne _ _ (by decide), Header.del_self]

variable {n : Bytes}

theorem stampTags_other (h₁ : n ≠ tagsHeader) (h₂ : n ≠ headerTags) (h₃ : n ≠ plainTagsHeader) :
    stampTags toLower caller h n = h n := by
  have hdel : ((h.del tagsHeader).del headerTags).del plainTagsHeader n = h n := by
    rw [Header.del_ne _ h₃, Header.del_ne _ h₂, Header.del_ne _ h₁]
  unfold stampTags
  dsimp only
  split
  · exact hdel
  · rw [Header.set_ne _ _ h₂, Header.set_ne _ _ h₁, hdel]

theorem stripAndRewrite_other (key : Bytes) (hn : n ≠ apiKeyHeader) (hx : ¬ bytes "x-ach-" <+: n) :
    stripAndRewrite h key n = h n := by
  rw [stripAndRewrite, Header.set_ne _ _ hn, if_neg hx]

theorem rewriteKeys_connection : rewriteKeys openKey caller path h connectionHeader =
    if hasUpgradeToken (h connectionHeader) then [bytes "Upgrade"] else [] := by
  unfold rewriteKeys
  split_ifs <;> simp +decide [Header.set_ne, Header.del_ne, stripAndRewrite_other]

theorem rewriteKeys_authz : rewriteKeys openKey caller path h authzHeader =
    if hasUpgradeToken (h connectionHeader) ∧ path = bytes "/v1/realtime" ∧
      material openKey caller ≠ [] then [bearer (material openKey caller)] else h authzHeader := by
  unfold rewriteKeys
  split_ifs <;> simp +decide [Header.set_ne, Header.del_ne, stripAndRewrite_other]

theorem rewriteKeys_apiKey : rewriteKeys openKey caller path h apiKeyHeader =
    if routeFor path = .gemini then []
    else if routeFor path = .mcp then [bearer (material openKey caller)]
    else [material openKey caller] := by
  unfold rewriteKeys
  split_ifs <;> simp +decide [Header.set_ne, stripAndRewrite]

theorem rewriteKeys_goog : rewriteKeys openKey caller path h googKeyHeader =
    if routeFor path = .gemini then [material openKey caller] else h googKeyHeader := by
  unfold rewriteKeys
  split_ifs <;> simp +decide [Header.set_ne, Header.del_ne, stripAndRewrite_other]

theorem rewriteKeys_ach (hx : bytes "x-ach-" <+: n) : rewriteKeys openKey caller path h n = [] := by
  have hne : ∀ m, ¬ bytes "x-ach-" <+: m → n ≠ m := fun m hm he => hm (he ▸ hx)
  have h₁ := hne authzHeader (by decide)
  have h₂ := hne apiKeyHeader (by decide)
  have h₃ := hne googKeyHeader (by decide)
  unfold rewriteKeys
  split_ifs <;> simp [Header.set_ne, Header.del_ne, stripAndRewrite, h₁, h₂, h₃, hx]

theorem rewriteKeys_other (hn : n ∉ ownHeaders) (hx : ¬ bytes "x-ach-" <+: n) :
    rewriteKeys openKey caller path h n = h n := by
  simp only [ownHeaders, List.mem_cons, List.not_mem_nil, or_false, not_or] at hn
  obtain ⟨h₁, h₂, h₃, h₄, -⟩ := hn
  unfold rewriteKeys
  split_ifs <;> simp [Header.set_ne, Header.del_ne, stripAndRewrite_other, h₁, h₂, h₃, h₄, hx]

theorem direct_of_ne (hn : n ≠ authzHeader) :
    direct toLower openKey caller jwt path h n =
      stampTags toLower caller (rewriteKeys openKey caller path h) n := by
  cases jwt with
  | none => rfl
  | some token => exact Header.set_ne _ _ hn

theorem direct_authz : direct toLower openKey caller jwt path h authzHeader =
    match jwt with
    | some token => [bearer token]
    | none => rewriteKeys openKey caller path h authzHeader := by
  cases jwt with
  | none => exact stampTags_other _ _ _ (by decide) (by decide) (by decide)
  | some token => exact Header.set_self ..

theorem direct_connection : direct toLower openKey caller jwt path h connectionHeader =
    if hasUpgradeToken (h connectionHeader) then [bytes "Upgrade"] else [] := by
  rw [direct_of_ne _ _ _ _ _ _ (by decide),
    stampTags_other _ _ _ (by decide) (by decide) (by decide), rewriteKeys_connection]

theorem direct_other (hn : n ∉ ownHeaders) (hx : ¬ bytes "x-ach-" <+: n) :
    direct toLower openKey caller jwt path h n = h n := by
  have hne : ∀ m ∈ ownHeaders, n ≠ m := fun m hm he => hn (he ▸ hm)
  rw [direct_of_ne _ _ _ _ _ _ (hne _ (by decide)),
    stampTags_other _ _ _ (hne _ (by decide)) (hne _ (by decide)) (hne _ (by decide)),
    rewriteKeys_other _ _ _ _ hn hx]

theorem outgoing_direct (original : Header) (hn : n ∉ hopHeaders) (hlen : n ≠ contentLengthHeader) :
    outgoing original (direct toLower openKey caller jwt path h) n =
      direct toLower openKey caller jwt path h n := by
  have hne : ∀ m ∈ hopHeaders, n ≠ m := fun m hm he => hn (he ▸ hm)
  have hremove : removeHopByHop (direct toLower openKey caller jwt path h) n =
      direct toLower openKey caller jwt path h n := by
    rw [removeHopByHop, if_neg]
    rintro (htok | hhop)
    · rw [direct_connection] at htok
      split at htok
      · have hup : tokens [bytes "Upgrade"] = [upgradeHeader] := by decide
        rw [hup, List.mem_singleton] at htok
        exact hne _ (by decide) htok
      · cases htok
    · exact hn hhop
  unfold outgoing
  split_ifs <;> simp [Header.set_ne, Header.del_ne, hlen, hne connectionHeader (by decide),
    hne upgradeHeader (by decide), hne teHeader (by decide), hremove]

end Direct

end AchProofs.Forwarder
