import AchProofs.Foundation.Base64
import AchProofs.Foundation.Text

namespace AchProofs.Keystore.Jws

open Foundation Foundation.Percent

def dot : UInt8 := 0x2e

def ascii (s : String) : Bytes := s.toList.map (fun c => UInt8.ofNat c.toNat)

def litellmKeyStart : Bytes := ascii "sk-"

/-- The claims a call of `Sign` sets. Empty ones of the last four are left out of the payload. -/
structure Claims where
  iss : Bytes
  sub : Bytes
  aud : Bytes
  iat : ℕ
  exp : ℕ
  email : Bytes
  groups : List Bytes
  azp : Bytes
  jti : Bytes
  deriving DecidableEq, Repr

structure Header where
  alg : Bytes
  kid : Bytes
  deriving DecidableEq, Repr

/-- The registered claims as they are read from any payload. -/
structure Registered where
  iss : Option Bytes
  sub : Option Bytes
  aud : List Bytes
  exp : Option ℕ
  deriving DecidableEq, Repr

/-- The JSON encoding, as far as tokens need it: `peekAud` is the reading of `PeekAudience`, which
is not the one of the JWT library. -/
structure Codec where
  marshalHeader : Header → Bytes
  marshalClaims : Claims → Bytes
  unmarshalHeader : Bytes → Option Header
  unmarshalClaims : Bytes → Option Registered
  peekAud : Bytes → List Bytes

/-- A payload is read back with the claims it was made of. -/
structure Codec.Reads (codec : Codec) (claims : Claims) : Prop where
  claims_eq : codec.unmarshalClaims (codec.marshalClaims claims) =
    some ⟨some claims.iss, some claims.sub, [claims.aud], some claims.exp⟩
  peek_eq : codec.peekAud (codec.marshalClaims claims) = [claims.aud]

/-- A signature scheme. A key stands for the private and the public half. -/
structure Scheme where
  sign : ℕ → Bytes → Bytes
  verify : ℕ → Bytes → Bytes → Bool

structure SignerSlot where
  kid : Bytes
  key : ℕ
  deriving DecidableEq, Repr

structure Signer where
  current : Option SignerSlot
  next : Option SignerSlot
  deriving DecidableEq, Repr

def Signer.slots (s : Signer) : List SignerSlot := s.current.toList ++ s.next.toList

def eddsa : Bytes := ascii "EdDSA"

def signingInput (codec : Codec) (slot : SignerSlot) (claims : Claims) : Bytes :=
  Base64.encode (codec.marshalHeader ⟨eddsa, slot.kid⟩) ++ dot ::
    Base64.encode (codec.marshalClaims claims)

def signedString (codec : Codec) (scheme : Scheme) (slot : SignerSlot) (claims : Claims) : Bytes :=
  signingInput codec slot claims ++ dot ::
    Base64.encode (scheme.sign slot.key (signingInput codec slot claims))

def looksLikeJWS (s : Bytes) : Bool := s.count dot = 2 && !litellmKeyStart.isPrefixOf s

def peekAudience (codec : Codec) (raw : Bytes) : List Bytes :=
  match raw.splitOn dot with
  | [_, payload, _] =>
    match Base64.decode payload with
    | some b => codec.peekAud b
    | none => []
  | _ => []

/-- Why `VerifyExp` refuses a token. What the JWT library refuses it for is read by no caller. -/
inductive VerifyErr
  | notAJWT
  | invalid
  | noSubject
  | noExp
  deriving DecidableEq, Repr

/-- `jwt.Parse` of the JWT library, as `VerifyExp` calls it: with the key for each `kid`, EdDSA as
the only method and an expiry required, at a time, for an issuer, an audience and a token. -/
abbrev Parse := (Bytes → Option ℕ) → ℕ → Bytes → Bytes → Bytes → Option Registered

/-- What the callers need of the library: the claims it returns are those of the payload, its
signature verifies under a key it was given, and the audience is listed. -/
structure Parse.Sound (parse : Parse) (codec : Codec) (scheme : Scheme) : Prop where
  verified : ∀ {keyfunc now iss aud raw claims}, parse keyfunc now iss aud raw = some claims →
    ∃ hd p s kid key sig, raw.splitOn dot = [hd, p, s] ∧
      (Base64.decode p).bind codec.unmarshalClaims = some claims ∧ keyfunc kid = some key ∧
      Base64.decode s = some sig ∧ scheme.verify key (hd ++ dot :: p) sig = true
  listed : ∀ {keyfunc now iss aud raw claims}, parse keyfunc now iss aud raw = some claims →
    aud ∈ claims.aud

def Signer.keyfunc (s : Signer) (kid : Bytes) : Option ℕ :=
  (s.slots.find? (fun slot => slot.kid = kid)).map SignerSlot.key

/-- `VerifyExp`: the subject and the expiry of a token this signer, or its next slot, produced. -/
def verifyExp (parse : Parse) (signer : Signer) (now : ℕ) (raw iss aud : Bytes) :
    Except VerifyErr (Bytes × ℕ) :=
  if raw.count dot ≠ 2 then .error .notAJWT
  else
    match parse signer.keyfunc now iss aud raw with
    | none => .error .invalid
    | some claims =>
      match claims.sub with
      | none | some [] => .error .noSubject
      | some sub =>
        match claims.exp with
        | none => .error .noExp
        | some exp => .ok (sub, exp)

theorem keyfunc_some {signer : Signer} {kid : Bytes} {key : ℕ} (h : signer.keyfunc kid = some key) :
    ∃ slot ∈ signer.slots, slot.key = key := by
  obtain ⟨slot, hslot, hkey⟩ := Option.map_eq_some_iff.mp h
  exact ⟨slot, List.mem_of_find?_eq_some hslot, hkey⟩

theorem verifyExp_ok {parse : Parse} {codec : Codec} {scheme : Scheme} {signer : Signer} {now : ℕ}
    {raw iss aud sub : Bytes} {exp : ℕ} (hparse : parse.Sound codec scheme)
    (h : verifyExp parse signer now raw iss aud = .ok (sub, exp)) :
    ∃ hd p s sig, ∃ claims : Registered, ∃ slot ∈ signer.slots, raw.splitOn dot = [hd, p, s] ∧
      (Base64.decode p).bind codec.unmarshalClaims = some claims ∧ Base64.decode s = some sig ∧
      scheme.verify slot.key (hd ++ dot :: p) sig = true ∧
      claims.exp = some exp ∧ claims.sub = some sub ∧ aud ∈ claims.aud := by
  unfold verifyExp at h
  split_ifs at h
  split at h
  · cases h
  rename_i claims hclaims
  split at h
  · cases h
  · cases h
  rename_i hsub
  split at h
  · cases h
  rename_i hexp
  cases h
  obtain ⟨hd, p, s, kid, key, sig, hsplit, hread, hkey, hsig, hver⟩ := hparse.verified hclaims
  obtain ⟨slot, hslot, rfl⟩ := keyfunc_some hkey
  exact ⟨hd, p, s, sig, claims, slot, hslot, hsplit, hread, hsig, hver, hexp, hsub,
    hparse.listed hclaims⟩

/-- An audience that is missing or only made of empty strings matches nothing. -/
def audienceListed (claimed : List Bytes) (aud : Bytes) : Bool :=
  claimed.any (fun a => a = aud) && claimed.any (fun a => a ≠ [])

/-- The parser of the library, over an encoding and a signature scheme. -/
def libraryParse (codec : Codec) (scheme : Scheme) : Parse := fun keyfunc now iss aud raw =>
  match raw.splitOn dot with
  | [hd, p, s] => do
    let header ← (Base64.decode hd).bind codec.unmarshalHeader
    let claims ← (Base64.decode p).bind codec.unmarshalClaims
    let key ← keyfunc header.kid
    let sig ← Base64.decode s
    let exp ← claims.exp
    if header.alg = eddsa ∧ scheme.verify key (hd ++ dot :: p) sig = true ∧ now < exp ∧
        audienceListed claims.aud aud = true ∧ claims.iss = some iss then some claims
    else none
  | _ => none

theorem mem_of_audienceListed {claimed : List Bytes} {aud : Bytes}
    (h : audienceListed claimed aud = true) : aud ∈ claimed := by
  obtain ⟨a, ha, rfl⟩ : ∃ a ∈ claimed, a = aud := by
    simpa using (Bool.and_eq_true_iff.mp h).1
  exact ha

theorem libraryParse_some {codec : Codec} {scheme : Scheme} {keyfunc : Bytes → Option ℕ} {now : ℕ}
    {iss aud raw : Bytes} {claims : Registered}
    (h : libraryParse codec scheme keyfunc now iss aud raw = some claims) :
    (∃ hd p s kid key sig, raw.splitOn dot = [hd, p, s] ∧
      (Base64.decode p).bind codec.unmarshalClaims = some claims ∧ keyfunc kid = some key ∧
      Base64.decode s = some sig ∧ scheme.verify key (hd ++ dot :: p) sig = true) ∧
    aud ∈ claims.aud := by
  unfold libraryParse at h
  split at h
  · rename_i hd p s hsplit
    simp only [Option.bind_eq_bind, Option.bind_eq_some_iff] at h
    obtain ⟨header, -, claims', ⟨b, hb, hclaims⟩, key, hkey, sig, hsig, exp, -, h⟩ := h
    split_ifs at h with hvalid
    obtain rfl := Option.some.inj h
    have hread : (Base64.decode p).bind codec.unmarshalClaims = some claims' := by
      rw [hb, Option.bind_some, hclaims]
    exact ⟨⟨hd, p, s, header.kid, key, sig, hsplit, hread, hkey, hsig, hvalid.2.1⟩,
      mem_of_audienceListed hvalid.2.2.2.1⟩
  · cases h

theorem libraryParse_sound (codec : Codec) (scheme : Scheme) :
    (libraryParse codec scheme).Sound codec scheme :=
  ⟨fun h => (libraryParse_some h).1, fun h => (libraryParse_some h).2⟩

end AchProofs.Keystore.Jws
