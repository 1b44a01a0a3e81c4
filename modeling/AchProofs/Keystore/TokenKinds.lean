import AchProofs.Keystore.Resolvers

namespace AchProofs.Keystore.Jws

open Foundation Foundation.Percent

theorem dot_not_mem_encode (bs : Bytes) : dot ∉ Base64.encode bs :=
  Base64.not_mem_encode (by decide +kernel) bs

variable {hd p raw s : Bytes} {claims : Claims} {info : KeyInfo} {i : Issue}

theorem eq_of_splitOn_dot (h : raw.splitOn dot = [hd, p, s]) :
    raw = (hd ++ dot :: p) ++ dot :: s := by
  have hraw : [dot].intercalate (raw.splitOn dot) = raw := List.intercalate_splitOn dot
  rw [h] at hraw
  simpa [List.intercalate_cons_cons, List.intercalate_singleton] using hraw.symm

theorem splitOn_dot_two (hh : dot ∉ hd) (hp : dot ∉ p) :
    (hd ++ dot :: p).splitOn dot = [hd, p] := by
  have h : ([dot].intercalate [hd, p]).splitOn dot = [hd, p] :=
    List.splitOn_intercalate dot (by simp [hh, hp]) (by simp)
  simpa [List.intercalate_cons_cons, List.intercalate_singleton] using h

theorem segments_of_signingInput {codec : Codec} {slot : SignerSlot}
    (h : raw.splitOn dot = [hd, p, s]) (hin : hd ++ dot :: p = signingInput codec slot claims) :
    p = Base64.encode (codec.marshalClaims claims) := by
  have hmem : ∀ part ∈ [hd, p, s], dot ∉ part := fun part hpart =>
    Text.not_mem_of_mem_splitOn (h ▸ hpart)
  have hleft := splitOn_dot_two (hmem hd (by simp)) (hmem p (by simp))
  rw [hin, signingInput, splitOn_dot_two (dot_not_mem_encode _) (dot_not_mem_encode _)] at hleft
  exact (List.cons_eq_cons.mp (List.cons_eq_cons.mp hleft).2).1.symm

theorem splitOn_signedString (codec : Codec) (scheme : Scheme) (slot : SignerSlot)
    (claims : Claims) :
    (signedString codec scheme slot claims).splitOn dot =
      [Base64.encode (codec.marshalHeader ⟨eddsa, slot.kid⟩),
        Base64.encode (codec.marshalClaims claims),
        Base64.encode (scheme.sign slot.key (signingInput codec slot claims))] := by
  rw [← List.splitOn_intercalate dot (by simp [dot_not_mem_encode]) (List.cons_ne_nil _ _)]
  simp [List.intercalate_cons_cons, List.intercalate_singleton, signedString, signingInput]

theorem not_isBase64URL_dot : isBase64URL dot = false := by decide

theorem dot_not_mem_of_classifyBearer {k : BearerPrefix} (h : classifyBearer s = some k) :
    dot ∉ s := by
  have hrest : (s.drop 3).all isBase64URL = true → dot ∉ s.drop 3 := fun hall hm => by
    have := List.all_eq_true.mp hall dot hm
    rw [not_isBase64URL_dot] at this
    cases this
  unfold classifyBearer at h
  rw [← List.take_append_drop 3 s, List.mem_append, not_or]
  split_ifs at h with _ hpk hall hek hall
  · exact ⟨by rw [hpk]; decide, hrest hall⟩
  · exact ⟨by rw [hek]; decide, hrest hall⟩

variable {d : Deps}

theorem dbResolve_of_dot (h : dot ∈ raw) : dbResolve d raw = .ok none := by
  unfold dbResolve
  split
  · rfl
  · rename_i hk
    exact absurd h (dot_not_mem_of_classifyBearer hk)
  · rename_i hk
    exact absurd h (dot_not_mem_of_classifyBearer hk)

theorem activeOAuthPK_some {sub : Bytes}
    (h : (activeOAuthPK d sub).map (fun row => row.map keyInfoFromPK) = .ok (some info)) :
    ∃ rows, d.personalKeys = .ok rows ∧ ∃ row ∈ rows, row.resolves d.now sub = true ∧
      info = keyInfoFromPK row := by
  unfold activeOAuthPK at h
  cases hrows : d.personalKeys with
  | error e =>
    rw [hrows] at h
    cases h
  | ok rows =>
    rw [hrows] at h
    obtain ⟨row, hrow, rfl⟩ := Option.map_eq_some_iff.mp (Except.ok.inj h)
    have hres := List.find?_some (p := fun row => PkRow.resolves row d.now sub) hrow
    exact ⟨rows, rfl, row, List.mem_of_find?_eq_some hrow, hres, rfl⟩

theorem grantedExchangeKey_some {keyID : Bytes} {row : EkRow}
    (h : grantedExchangeKey d keyID = .ok (some row)) :
    ∃ rows, d.environmentKeys = .ok rows ∧ row ∈ rows ∧ row.resolves d.now keyID = true ∧
      ∃ grants, d.keyGrants = .ok grants ∧ ∃ g ∈ grants, g.ns = d.ns ∧
        g.covers row.ownerEmail row.environment row.requester = true := by
  unfold grantedExchangeKey exchangeKeyResolve listKeyGrantsForIdentity at h
  cases hrows : d.environmentKeys with
  | error e =>
    rw [hrows] at h
    cases h
  | ok rows =>
    rw [hrows] at h
    simp only [Except.map] at h
    cases hfind : rows.find? (fun row => row.resolves d.now keyID) with
    | none =>
      rw [hfind] at h
      cases h
    | some row' =>
      rw [hfind] at h
      cases hgrants : d.keyGrants with
      | error e =>
        rw [hgrants] at h
        cases h
      | ok grants =>
        rw [hgrants] at h
        simp only at h
        split_ifs at h with hlen
        · cases h
        obtain rfl : row' = row := by simpa using h
        have hres := List.find?_some (p := fun row => EkRow.resolves row d.now keyID) hfind
        obtain ⟨g, hg⟩ := List.exists_mem_of_length_pos (Nat.pos_of_ne_zero hlen)
        obtain ⟨hlisted, hcov⟩ := List.mem_filter.mp hg
        obtain ⟨hg, hns⟩ := List.mem_filter.mp hlisted
        exact ⟨rows, rfl, List.mem_of_find?_eq_some hfind, hres, grants, rfl, g, hg,
          of_decide_eq_true (Bool.and_eq_true_iff.mp hns).1, hcov⟩

theorem resolve_some (h : resolve d raw = .ok (some info)) :
    (dot ∉ raw ∧ dbResolve d raw = .ok (some info)) ∨
    ∃ sub exp iss aud, verifyExp d.parse d.signer d.now raw iss aud = .ok (sub, exp) ∧
      ((aud = exchangeAudience ∧ ∃ row, grantedExchangeKey d sub = .ok (some row) ∧
          info = (keyInfoFromEK row).until_ exp) ∨
        (aud = d.cfg.audience ∧
          (activeOAuthPK d sub).map (fun row => row.map keyInfoFromPK) = .ok (some info))) := by
  have hinner : dbResolve d raw = .ok (some info) → dot ∉ raw := by
    intro hdb hdot
    rw [dbResolve_of_dot hdot] at hdb
    cases hdb
  unfold resolve exchangeResolve at h
  split_ifs at h with hother
  · unfold oauthResolve at h
    split_ifs at h
    · split at h
      · exact .inl ⟨hinner h, h⟩
      · cases h
      · rename_i sub exp hver
        exact .inr ⟨sub, exp, _, _, hver, .inr ⟨rfl, h⟩⟩
    · exact .inl ⟨hinner h, h⟩
  · split at h
    · cases h
    · rename_i keyID exp hver
      cases hkey : grantedExchangeKey d keyID with
      | error e =>
        rw [hkey] at h
        cases h
      | ok row =>
        rw [hkey] at h
        obtain ⟨row, rfl, rfl⟩ := Option.map_eq_some_iff.mp (Except.ok.inj h)
        exact .inr ⟨keyID, exp, _, _, hver, .inl ⟨rfl, row, hkey, rfl⟩⟩

theorem hint_claims {cfg : Config} {iat : ℕ} {sub audience : Bytes}
    (h : (Site.hint sub audience).claims cfg iat = some claims) :
    claims.aud ≠ cfg.audience ∧ claims.aud ≠ exchangeAudience := by
  unfold Site.claims at h
  simp only at h
  split_ifs at h with hres
  obtain rfl := Option.some.inj h
  simp only [reservedConsentAudience, Bool.or_eq_true, decide_eq_true_eq, not_or] at hres
  exact ⟨hres.1.1.1.1, hres.1.1.2⟩

theorem exchange_of_claims (hne : d.cfg.audience ≠ exchangeAudience) (hc : i.claims d = some claims)
    (haud : claims.aud = exchangeAudience) : ∃ jti, i.site = .exchange claims.sub jti := by
  obtain ⟨site, slot, iat⟩ := i
  unfold Issue.claims at hc
  cases site with
  | access sub =>
    cases hc
    exact absurd haud hne
  | probe email =>
    cases hc
    exact absurd haud hne
  | exchange keyID jti =>
    cases hc
    exact ⟨jti, rfl⟩
  | hint sub audience => exact absurd haud (hint_claims hc).2
  | backend kind name ownerEmail groups azp =>
    cases hc
    cases kind <;> cases haud

theorem oauth_of_claims (hne : d.cfg.audience ≠ exchangeAudience)
    (hmcp : ¬ mcpNamespace <+: d.cfg.audience) (ha2a : ¬ a2aNamespace <+: d.cfg.audience)
    (hc : i.claims d = some claims) (haud : claims.aud = d.cfg.audience) :
    i.site = .access claims.sub ∨ i.site = .probe claims.sub := by
  obtain ⟨site, slot, iat⟩ := i
  unfold Issue.claims at hc
  cases site with
  | access sub =>
    cases hc
    exact .inl rfl
  | probe email =>
    cases hc
    exact .inr rfl
  | exchange keyID jti =>
    cases hc
    exact absurd haud.symm hne
  | hint sub audience => exact absurd haud (hint_claims hc).1
  | backend kind name ownerEmail groups azp =>
    cases hc
    cases kind with
    | mcp => exact absurd ⟨name, haud⟩ hmcp
    | a2a => exact absurd ⟨name, haud⟩ ha2a

theorem resolve_signed (hparse : d.parse.Sound d.codec d.scheme)
    (hne : d.cfg.audience ≠ exchangeAudience)
    (hmcp : ¬ mcpNamespace <+: d.cfg.audience) (ha2a : ¬ a2aNamespace <+: d.cfg.audience)
    (hc : i.claims d = some claims) (hreads : d.codec.Reads claims)
    (hsplit : raw.splitOn dot = [hd, p, s])
    (hin : hd ++ dot :: p = signingInput d.codec i.slot claims)
    (h : resolve d raw = .ok (some info)) : i.site.Grants d claims.exp info := by
  have hdot : dot ∈ raw := by
    rw [eq_of_splitOn_dot hsplit]
    simp
  obtain ⟨hno, -⟩ | ⟨sub, exp, iss, aud, hver, hcase⟩ := resolve_some h
  · exact absurd hdot hno
  -- the claims that were verified are the ones of the call
  obtain ⟨hd', p', s', sig, claims', slot, -, hsplit', hclaims, -, -, hexp, hsub, haud⟩ :=
    verifyExp_ok hparse hver
  obtain ⟨rfl, rfl, rfl⟩ : hd = hd' ∧ p = p' ∧ s = s' := by
    simpa using hsplit.symm.trans hsplit'
  rw [segments_of_signingInput hsplit hin, Base64.decode_encode, Option.bind_some,
    hreads.claims_eq] at hclaims
  cases hclaims
  obtain rfl : claims.sub = sub := Option.some.inj hsub
  obtain rfl : claims.exp = exp := Option.some.inj hexp
  have haud : aud = claims.aud := List.mem_singleton.mp haud
  rcases hcase with ⟨rfl, row, hkey, rfl⟩ | ⟨rfl, hpk⟩
  · obtain ⟨jti, hsite⟩ := exchange_of_claims hne hc haud.symm
    obtain ⟨rows, hrows, hmem, hres, hgrants⟩ := grantedExchangeKey_some hkey
    rw [hsite]
    exact ⟨rows, hrows, row, hmem, hres, rfl, hgrants⟩
  · have hrow := activeOAuthPK_some hpk
    obtain hsite | hsite := oauth_of_claims hne hmcp ha2a hc haud.symm
    · rw [hsite]
      exact hrow
    · rw [hsite]
      exact hrow

/-- Every signed token resolves, if at all, as what it was minted as: an access or probe token as
its subject's own OAuth row, an exchange token as the key it names while a grant covers it, a hint
or a backend token never. Whatever else resolves is a key, or such a token with its signature
spelled in another way. -/
theorem signed_token_resolves_as_minted (d : Deps) (issued : List Issue)
    (hparse : d.parse.Sound d.codec d.scheme) (hunf : Unforgeable d issued)
    (hreads : ∀ i ∈ issued, ∀ claims, i.claims d = some claims → d.codec.Reads claims)
    (hne : d.cfg.audience ≠ exchangeAudience)
    (hmcp : ¬ mcpNamespace <+: d.cfg.audience) (ha2a : ¬ a2aNamespace <+: d.cfg.audience) :
    (∀ i ∈ issued, ∀ claims, i.claims d = some claims → ∀ token, i.token d = some token →
      ∀ info, resolve d token = .ok (some info) → i.site.Grants d claims.exp info) ∧
    ∀ raw info, resolve d raw = .ok (some info) →
      (dot ∉ raw ∧ dbResolve d raw = .ok (some info)) ∨
      ∃ i ∈ issued, ∃ claims token, i.claims d = some claims ∧ i.token d = some token ∧
        Respelled raw token ∧ i.site.Grants d claims.exp info := by
  constructor
  · intro i hi claims hc token htoken info h
    unfold Issue.token at htoken
    rw [hc, Option.map_some, Option.some.injEq] at htoken
    subst htoken
    exact resolve_signed hparse hne hmcp ha2a hc (hreads i hi claims hc) (splitOn_signedString ..)
      rfl h
  · intro raw info h
    obtain hkey | ⟨sub, exp, iss, aud, hver, -⟩ := resolve_some h
    · exact .inl hkey
    obtain ⟨hd, p, s, sig, -, slot, hslot, hsplit, -, hsig, hsigned, -⟩ :=
      verifyExp_ok hparse hver
    obtain ⟨i, hi, claims, hc, hin, rfl⟩ := hunf slot hslot _ sig hsigned
    have htoken : i.token d = some (signedString d.codec d.scheme i.slot claims) := by
      rw [Issue.token, hc, Option.map_some]
    have hspelled : Respelled raw (signedString d.codec d.scheme i.slot claims) :=
      ⟨hd ++ dot :: p, s, Base64.encode (d.scheme.sign i.slot.key (hd ++ dot :: p)), _,
        eq_of_splitOn_dot hsplit, by rw [signedString, hin], hsig, Base64.decode_encode _⟩
    refine .inr ⟨i, hi, claims, _, hc, htoken, hspelled, ?_⟩
    exact resolve_signed hparse hne hmcp ha2a hc (hreads i hi claims hc) hsplit hin h

/-- A payload of length-prefixed claims, which is the encoding of the claims that are read back. -/
def plainCodec : Codec where
  marshalHeader h := h.kid
  marshalClaims c := UInt8.ofNat c.sub.length :: UInt8.ofNat c.aud.length :: UInt8.ofNat c.exp ::
    (c.sub ++ c.aud ++ c.iss)
  unmarshalHeader b := some ⟨eddsa, b⟩
  unmarshalClaims
    | n :: m :: exp :: rest =>
      some ⟨some (rest.drop (n.toNat + m.toNat)), some (rest.take n.toNat),
        [(rest.drop n.toNat).take m.toNat], some exp.toNat⟩
    | _ => none
  peekAud
    | n :: m :: _ :: rest => [(rest.drop n.toNat).take m.toNat]
    | _ => []

def accessIssue : Issue := ⟨.access (ascii "u@x"), ⟨ascii "k", 0⟩, 0⟩

def accessClaims : Claims :=
  ⟨ascii "https://ach", ascii "u@x", ascii "ach", 0, 120, ascii "u@x", [], [], []⟩

def accessInput : Bytes := signingInput plainCodec accessIssue.slot accessClaims

/-- The one signature that verifies is that of the access token. -/
def accessScheme : Scheme where
  sign _ _ := List.replicate 64 0
  verify _ input sig := input = accessInput && sig = List.replicate 64 0

def oneUser : Deps where
  cfg := ⟨ascii "https://ach", ascii "https://ach", ascii "https://ach", ascii "ach", 0, 0⟩
  codec := plainCodec
  scheme := accessScheme
  parse := libraryParse plainCodec accessScheme
  signer := ⟨some ⟨ascii "k", 0⟩, none⟩
  now := 1
  hash := id
  pkFn := fun _ => .ok none
  ekFn := fun _ => .ok none
  personalKeys := .ok [⟨ascii "pkid_1", ascii "u@x", .oauth, .active, 100, none, none, none⟩]
  environmentKeys := .ok []
  keyGrants := .ok []
  ns := ascii "ach"

def accessToken : Bytes := accessInput ++ dot :: List.replicate 86 0x41

/-- The access token with its last character, of which two bits count, changed from `A` to `B`. -/
def respelledToken : Bytes := accessInput ++ dot :: List.replicate 85 0x41 ++ [0x42]

def userInfo : KeyInfo := ⟨ascii "pkid_1", .pk, ascii "u@x", some 100, [], none, none, none⟩

theorem oneUser_unforgeable : Unforgeable oneUser [accessIssue] := by
  intro slot _ input sig h
  obtain ⟨hin, hsig⟩ := Bool.and_eq_true_iff.mp h
  exact ⟨accessIssue, List.mem_singleton_self _, accessClaims, by decide +kernel,
    of_decide_eq_true hin, of_decide_eq_true hsig⟩

theorem oneUser_reads : ∀ i ∈ [accessIssue], ∀ claims, i.claims oneUser = some claims →
    oneUser.codec.Reads claims := by
  intro i hi claims hc
  obtain rfl := List.mem_singleton.mp hi
  obtain rfl : accessClaims = claims :=
    Option.some.inj ((by decide +kernel : some accessClaims = accessIssue.claims oneUser).trans hc)
  exact ⟨by decide +kernel, by decide +kernel⟩

theorem signed_token_resolves_as_minted_respelled :
    ∃ i ∈ [accessIssue], ∃ claims token, i.claims oneUser = some claims ∧
      i.token oneUser = some token ∧ Respelled respelledToken token ∧
      i.site.Grants oneUser claims.exp userInfo := by
  have hres : resolve oneUser respelledToken = .ok (some userInfo) := by decide +kernel
  obtain hkey | hissue := (signed_token_resolves_as_minted oneUser [accessIssue]
    (libraryParse_sound ..) oneUser_unforgeable oneUser_reads (by decide +kernel)
    (by decide +kernel)
    (by decide +kernel)).2 _ _ hres
  · exact absurd (by decide +kernel) hkey.1
  · exact hissue

theorem altered_copy_resolves :
    Unforgeable oneUser [accessIssue] ∧
      (∀ claims, accessIssue.claims oneUser = some claims → oneUser.codec.Reads claims) ∧
      accessIssue.token oneUser = some accessToken ∧ respelledToken ≠ accessToken ∧
      resolve oneUser respelledToken = .ok (some userInfo) :=
  ⟨oneUser_unforgeable, oneUser_reads accessIssue (List.mem_singleton_self _), by decide +kernel,
    by decide +kernel, by decide +kernel⟩

end AchProofs.Keystore.Jws
