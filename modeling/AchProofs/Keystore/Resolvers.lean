import AchProofs.Keystore.Jws

namespace AchProofs.Keystore.Jws

open Foundation Foundation.Percent

inductive BearerPrefix
  | pk
  | ek
  deriving DecidableEq, Repr

def isBase64URL (c : UInt8) : Bool :=
  (0x41 ≤ c && c ≤ 0x5a) || (0x61 ≤ c && c ≤ 0x7a) || (0x30 ≤ c && c ≤ 0x39) || c = 0x2d || c = 0x5f

def classifyBearer (s : Bytes) : Option BearerPrefix :=
  if s.length ≠ 67 then none
  else if s.take 3 = ascii "pk-" then (if (s.drop 3).all isBase64URL then some .pk else none)
  else if s.take 3 = ascii "ek-" then (if (s.drop 3).all isBase64URL then some .ek else none)
  else none

inductive Purpose
  | cli
  | oauth
  deriving DecidableEq, Repr

inductive IssuedVia
  | manual
  | exchange
  deriving DecidableEq, Repr

inductive RowStatus
  | active
  | suspended
  | revoked
  | expired
  deriving DecidableEq, Repr

structure PkRow where
  keyID : Bytes
  ownerEmail : Bytes
  purpose : Purpose
  status : RowStatus
  expiresAt : ℕ
  litellmUserID : Option Bytes
  litellmToken : Option Bytes
  litellmKeyMaterial : Option Bytes
  deriving DecidableEq, Repr

structure EkRow where
  keyID : Bytes
  ownerEmail : Bytes
  environment : Bytes
  requester : Bytes
  issuedVia : IssuedVia
  status : RowStatus
  expiresAt : Option ℕ
  litellmUserID : Option Bytes
  litellmToken : Option Bytes
  litellmKeyMaterial : Option Bytes
  deriving DecidableEq, Repr

structure KeyGrantRow where
  ns : Bytes
  identity : Bytes
  environments : List Bytes
  serviceAccounts : List Bytes
  deriving DecidableEq, Repr

structure KeyInfo where
  keyID : Bytes
  keyType : BearerPrefix
  ownerEmail : Bytes
  expiresAt : Option ℕ
  environment : Bytes
  litellmUserID : Option Bytes
  litellmToken : Option Bytes
  litellmKeyMaterial : Option Bytes
  deriving DecidableEq, Repr

def keyInfoFromPK (row : PkRow) : KeyInfo :=
  ⟨row.keyID, .pk, row.ownerEmail, some row.expiresAt, [], row.litellmUserID, row.litellmToken,
    row.litellmKeyMaterial⟩

def keyInfoFromEK (row : EkRow) : KeyInfo :=
  ⟨row.keyID, .ek, row.ownerEmail, row.expiresAt, row.environment, row.litellmUserID,
    row.litellmToken, row.litellmKeyMaterial⟩

/-- What the services are configured with. -/
structure Config where
  issuer : Bytes
  exchangeIssuer : Bytes
  baseURL : Bytes
  audience : Bytes
  accessTTL : ℕ
  exchangeTTL : ℕ
  deriving DecidableEq, Repr

/-- What a resolution reads. A table that cannot be read is an error. -/
structure Deps where
  cfg : Config
  codec : Codec
  scheme : Scheme
  parse : Parse
  signer : Signer
  now : ℕ
  hash : Bytes → Bytes
  pkFn : Bytes → Except Unit (Option KeyInfo)
  ekFn : Bytes → Except Unit (Option KeyInfo)
  personalKeys : Except Unit (List PkRow)
  environmentKeys : Except Unit (List EkRow)
  keyGrants : Except Unit (List KeyGrantRow)
  ns : Bytes

abbrev Resolver := Bytes → Except Unit (Option KeyInfo)

def exchangeAudience : Bytes := ascii "ach-ek"

def PkRow.resolves (row : PkRow) (now : ℕ) (email : Bytes) : Bool :=
  row.ownerEmail = email && row.purpose = .oauth && row.status = .active && now < row.expiresAt

def EkRow.resolves (row : EkRow) (now : ℕ) (keyID : Bytes) : Bool :=
  row.keyID = keyID && row.issuedVia = .exchange && row.status = .active &&
    row.expiresAt.all (fun x => now < x)

def KeyGrantRow.covers (g : KeyGrantRow) (identity env requester : Bytes) : Bool :=
  g.identity = identity && g.environments.contains env && g.serviceAccounts.contains requester

def covering (grants : List KeyGrantRow) (identity env requester : Bytes) : List KeyGrantRow :=
  grants.filter (fun g => g.covers identity env requester)

variable (d : Deps)

def trimRightSlash (iss : Bytes) : Bytes := iss.rdropWhile (fun b => b = 0x2f)

def activeOAuthPK (email : Bytes) : Except Unit (Option PkRow) :=
  d.personalKeys.map (fun rows => rows.find? (fun row => row.resolves d.now email))

def exchangeKeyResolve (keyID : Bytes) : Except Unit (Option EkRow) :=
  d.environmentKeys.map (fun rows => rows.find? (fun row => row.resolves d.now keyID))

def listKeyGrantsForIdentity (identity : Bytes) : Except Unit (List KeyGrantRow) :=
  d.keyGrants.map (fun grants => grants.filter (fun g => g.ns = d.ns && g.identity = identity))

def grantedExchangeKey (keyID : Bytes) : Except Unit (Option EkRow) :=
  match exchangeKeyResolve d keyID with
  | .error e => .error e
  | .ok none => .ok none
  | .ok (some row) =>
    match listKeyGrantsForIdentity d row.ownerEmail with
    | .error e => .error e
    | .ok grants =>
      if (covering grants row.ownerEmail row.environment row.requester).length = 0 then .ok none
      else .ok (some row)

def dbResolve : Resolver := fun plaintext =>
  match classifyBearer plaintext with
  | none => .ok none
  | some .pk => d.pkFn (d.hash plaintext)
  | some .ek => d.ekFn (d.hash plaintext)

def oauthResolve (inner : Resolver) : Resolver := fun plaintext =>
  if ¬ looksLikeJWS plaintext then inner plaintext
  else
    match verifyExp d.parse d.signer d.now plaintext (trimRightSlash d.cfg.issuer)
        d.cfg.audience with
    | .error .notAJWT => inner plaintext
    | .error _ => .ok none
    | .ok (sub, _) => (activeOAuthPK d sub).map (fun row => row.map keyInfoFromPK)

def KeyInfo.until_ (info : KeyInfo) (exp : ℕ) : KeyInfo :=
  if info.expiresAt.all (fun x => exp < x) then { info with expiresAt := some exp } else info

def exchangeResolve (inner : Resolver) : Resolver := fun plaintext =>
  if ¬ looksLikeJWS plaintext ∨ exchangeAudience ∉ peekAudience d.codec plaintext then
    inner plaintext
  else
    match verifyExp d.parse d.signer d.now plaintext (trimRightSlash d.cfg.issuer)
        exchangeAudience with
    | .error _ => .ok none
    | .ok (keyID, exp) =>
      (grantedExchangeKey d keyID).map (fun row => row.map (fun r => (keyInfoFromEK r).until_ exp))

def resolve : Resolver := exchangeResolve d (oauthResolve d (dbResolve d))

inductive Backend
  | mcp
  | a2a
  deriving DecidableEq, Repr

def mcpNamespace : Bytes := ascii "mcp:"

def a2aNamespace : Bytes := ascii "a2a:"

def Backend.audNamespace : Backend → Bytes
  | .mcp => mcpNamespace
  | .a2a => a2aNamespace

def reservedConsentAudience (aud oauthAudience : Bytes) : Bool :=
  aud = oauthAudience || aud = ascii "ach" || aud = exchangeAudience ||
    mcpNamespace.isPrefixOf aud || a2aNamespace.isPrefixOf aud

/-- The places that sign, with what each of them puts into its token. -/
inductive Site
  | access (sub : Bytes)
  | probe (email : Bytes)
  | exchange (keyID jti : Bytes)
  | hint (sub audience : Bytes)
  | backend (kind : Backend) (name ownerEmail : Bytes) (groups : List Bytes) (azp : Bytes)
  deriving DecidableEq, Repr

def second : ℕ := 1000000000

/-- The lifetime in seconds that `Sign` gives a token. -/
def lifetime (ttl : ℕ) : ℕ := if ttl ≠ 0 then ttl / second else 120

/-- The claims a site has signed at a time, unless it signs nothing. -/
def Site.claims (cfg : Config) (iat : ℕ) : Site → Option Claims
  | .access sub =>
    some ⟨cfg.issuer, sub, cfg.audience, iat, iat + lifetime cfg.accessTTL, sub, [], [], []⟩
  | .probe email =>
    some ⟨cfg.issuer, email, cfg.audience, iat, iat + lifetime (60 * second), email, [], [], []⟩
  | .exchange keyID jti =>
    some ⟨cfg.exchangeIssuer, keyID, exchangeAudience, iat, iat + lifetime cfg.exchangeTTL, [], [],
      [], jti⟩
  | .hint sub audience =>
    if reservedConsentAudience audience cfg.audience then none
    else some ⟨cfg.issuer, sub, audience, iat, iat + lifetime (600 * second), [], [], [], []⟩
  | .backend kind name ownerEmail groups azp =>
    some ⟨cfg.baseURL, ownerEmail, kind.audNamespace ++ name, iat, iat + lifetime 0, ownerEmail,
      groups, azp, []⟩

/-- One call of `Sign`. -/
structure Issue where
  site : Site
  slot : SignerSlot
  iat : ℕ
  deriving DecidableEq, Repr

def Issue.claims (i : Issue) : Option Claims := i.site.claims d.cfg i.iat

def Issue.token (i : Issue) : Option Bytes :=
  (i.claims d).map (signedString d.codec d.scheme i.slot)

/-- A signature that verifies is one that was issued. -/
def Unforgeable (issued : List Issue) : Prop :=
  ∀ slot ∈ d.signer.slots, ∀ input sig, d.scheme.verify slot.key input sig = true →
    ∃ i ∈ issued, ∃ claims, i.claims d = some claims ∧ input = signingInput d.codec i.slot claims ∧
      sig = d.scheme.sign i.slot.key input

def Site.Grants (exp : ℕ) (info : KeyInfo) : Site → Prop
  | .access sub | .probe sub =>
    ∃ rows, d.personalKeys = .ok rows ∧ ∃ row ∈ rows, row.resolves d.now sub = true ∧
      info = keyInfoFromPK row
  | .exchange keyID _ =>
    ∃ rows, d.environmentKeys = .ok rows ∧ ∃ row ∈ rows, row.resolves d.now keyID = true ∧
      info = (keyInfoFromEK row).until_ exp ∧
      ∃ grants, d.keyGrants = .ok grants ∧ ∃ g ∈ grants, g.ns = d.ns ∧
        g.covers row.ownerEmail row.environment row.requester = true
  | .hint .. | .backend .. => False

/-- The same signed text, with the same signature in another spelling. -/
def Respelled (raw token : Bytes) : Prop :=
  ∃ input s s' sig, raw = input ++ dot :: s ∧ token = input ++ dot :: s' ∧
    Base64.decode s = some sig ∧ Base64.decode s' = some sig

end AchProofs.Keystore.Jws
