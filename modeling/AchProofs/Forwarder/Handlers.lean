import AchProofs.Forwarder.BodyScan
import AchProofs.Forwarder.Director
import AchProofs.Forwarder.Gemini
import AchProofs.Forwarder.Named

namespace AchProofs.Forwarder

open Foundation Foundation.Percent Foundation.Search
  Foundation.Text Foundation.Json

/-- A request. Of its query only what two handlers read is kept: whether it asks for the models of
every mode, and whether it names an alias that can be described. -/
structure Request (β : Type) where
  method : Method
  url : URL
  allModels : Bool
  namesAlias : Bool
  header : Header
  body : Option β

/-- The forwarder's configuration and the services it asks. -/
structure Gateway (β : Type) where
  uni : Unicode
  wire : Wire β
  /-- Opens the sealed key material. -/
  openKey : Bytes → Option Bytes
  router : Router
  prefixes : List Bytes
  /-- The precheck of a caller for a resource. -/
  check : Kind → KeyContext → Bytes → Bool
  /-- Whether a policy forwards the caller's identity to a resource. -/
  policy : Kind → Bytes → Bool
  sign : Kind → KeyContext → Bytes → Option Bytes

variable {β : Type}

def Gateway.proxy (g : Gateway β) (caller : Caller) (jwt : Option Bytes) (req : Request β) :
    Request β :=
  { req with
    url := directPath g.prefixes req.url
    header :=
      outgoing req.header (direct g.uni.toLower g.openKey caller jwt req.url.path req.header) }

theorem Gateway.proxy_header (g : Gateway β) (caller : Caller) (jwt : Option Bytes)
    (req : Request β) : (g.proxy caller jwt req).header =
      outgoing req.header
        (direct g.uni.toLower g.openKey caller jwt req.url.path req.header) := rfl

def prepareModelList (req : Request β) : Request β :=
  if req.method = .get ∧ req.url.path ∈ [bytes "/v1/models", bytes "/v1/models/"] ∧ ¬ req.allModels
  then { req with header := req.header.del acceptEncodingHeader }
  else req

def prepareModelInfo (req : Request β) : Request β :=
  if req.method = .get ∧ req.namesAlias then
    { req with header := req.header.del acceptEncodingHeader }
  else req

def Gateway.scan (g : Gateway β) (req : Request β) : Option (Request β) :=
  match stripBodyTags g.uni g.wire req.header req.body with
  | .ok (h, body) => some { req with header := h, body := body }
  | .error _ => none

def Gateway.taggedPassthroughChecked (g : Gateway β) (accepts : Request β → Bool) (caller : Caller)
    (req : Request β) : Option (Request β) :=
  (g.scan req).bind (fun req =>
    if accepts req then some (g.proxy caller none (prepareModelList req)) else none)

def Gateway.handlerV1 (g : Gateway β) : Caller → Request β → Option (Request β) :=
  g.taggedPassthroughChecked (fun _ => true)

def Gateway.handlerModelInfo (g : Gateway β) (caller : Caller) (req : Request β) :
    Option (Request β) :=
  g.taggedPassthroughChecked (fun _ => true) caller (prepareModelInfo req)

def Gateway.admitGemini (g : Gateway β) (model : Bytes) (req : Request β) : Bool :=
  match req.method, req.body with
  | .post, some b =>
    bodyModelMatches g.wire (req.header.get contentTypeHeader) req.url.path b model g.prefixes
  | _, _ => true

def Gateway.handlerGemini (g : Gateway β) (caller : Caller) (req : Request β) :
    Option (Request β) :=
  (geminiPathModel req.method req.url g.prefixes).bind (fun model =>
    g.taggedPassthroughChecked (g.admitGemini model) caller req)

/-- The handler of the two named routes. Without an ACH identity LiteLLM decides. -/
def Gateway.handlerNamed (g : Gateway β) (kind : Kind) (caller : Caller) (req : Request β) :
    Option (Request β) :=
  (if kind = .a2a then g.scan req else some req).bind (fun req =>
    match caller.keyContext with
    | none => some (g.proxy caller none req)
    | some kc =>
      (Forwarder.handlerNamed g.router g.prefixes kind (g.check kind kc) req.url).bind (fun r =>
        if g.policy kind r.1 then
          (g.sign kind kc r.1).map (fun token => g.proxy caller (some token) req)
        else if kc.keyType = .ek then
          -- A client's own authorization never travels with an agent key.
          some (g.proxy caller none { req with header := req.header.del authzHeader })
        else some (g.proxy caller none req)))

inductive Family where
  | v1
  | gemini
  | modelInfo
  | mcp
  | a2a
deriving DecidableEq

/-- What a request with an authenticated caller becomes upstream, if it is forwarded. -/
def Gateway.forward (g : Gateway β) : Family → Caller → Request β → Option (Request β)
  | .v1 => g.handlerV1
  | .gemini => g.handlerGemini
  | .modelInfo => g.handlerModelInfo
  | .mcp => g.handlerNamed .mcp
  | .a2a => g.handlerNamed .a2a

/-- A scanned request has gone through the proxy, with no change to its headers but for two that
the handlers may drop. -/
def Gateway.Sends (g : Gateway β) (caller : Caller) (scanned up : Request β) : Prop :=
  ∃ sent jwt, up = g.proxy caller jwt sent ∧ sent.url = scanned.url ∧ sent.body = scanned.body ∧
    (sent.header = scanned.header ∨ sent.header = scanned.header.del acceptEncodingHeader ∨
      sent.header = scanned.header.del authzHeader)

theorem Gateway.taggedPassthroughChecked_cases {g : Gateway β} {accepts : Request β → Bool}
    {caller : Caller} {req up : Request β}
    (h : g.taggedPassthroughChecked accepts caller req = some up) :
    ∃ scanned, g.scan req = some scanned ∧ accepts scanned = true ∧ g.Sends caller scanned up := by
  obtain ⟨scanned, hscan, hup⟩ := Option.bind_eq_some_iff.mp h
  split at hup
  · rename_i hadmits
    cases hup
    refine ⟨scanned, hscan, hadmits, prepareModelList scanned, none, rfl, ?_⟩
    unfold prepareModelList
    split
    · exact ⟨rfl, rfl, .inr (.inl rfl)⟩
    · exact ⟨rfl, rfl, .inl rfl⟩
  · cases hup

theorem Gateway.handlerNamed_cases {g : Gateway β} {kind : Kind} {caller : Caller}
    {req up : Request β} (h : g.handlerNamed kind caller req = some up) :
    ∃ scanned, (if kind = Kind.a2a then g.scan req else some req) = some scanned ∧
      g.Sends caller scanned up := by
  obtain ⟨scanned, hscan, hup⟩ := Option.bind_eq_some_iff.mp h
  refine ⟨scanned, hscan, ?_⟩
  split at hup
  · cases hup
    exact ⟨scanned, none, rfl, rfl, rfl, .inl rfl⟩
  · obtain ⟨r, -, hup⟩ := Option.bind_eq_some_iff.mp hup
    split at hup
    · obtain ⟨token, -, rfl⟩ := Option.map_eq_some_iff.mp hup
      exact ⟨scanned, some token, rfl, rfl, rfl, .inl rfl⟩
    · split at hup
      · cases hup
        exact ⟨_, none, rfl, rfl, rfl, .inr (.inr rfl)⟩
      · cases hup
        exact ⟨scanned, none, rfl, rfl, rfl, .inl rfl⟩

theorem Gateway.forward_cases {g : Gateway β} {fam : Family} {caller : Caller} {req up : Request β}
    (h : g.forward fam caller req = some up) (hfam : fam ∈ [Family.v1, .gemini, .a2a]) :
    ∃ scanned, g.scan req = some scanned ∧ g.Sends caller scanned up := by
  cases fam with
  | v1 =>
    obtain ⟨scanned, hscan, -, hsends⟩ := taggedPassthroughChecked_cases h
    exact ⟨scanned, hscan, hsends⟩
  | gemini =>
    obtain ⟨model, -, h⟩ := Option.bind_eq_some_iff.mp h
    obtain ⟨scanned, hscan, -, hsends⟩ := taggedPassthroughChecked_cases h
    exact ⟨scanned, hscan, hsends⟩
  | modelInfo | mcp => exact absurd hfam (by decide)
  | a2a => exact handlerNamed_cases h

theorem Gateway.Sends.body_eq {g : Gateway β} {caller : Caller} {scanned up : Request β}
    (h : g.Sends caller scanned up) : up.body = scanned.body := by
  obtain ⟨sent, jwt, rfl, -, hbody, -⟩ := h
  exact hbody

theorem Gateway.Sends.path_eq {g : Gateway β} {caller : Caller} {scanned up : Request β}
    (h : g.Sends caller scanned up) : up.url = directPath g.prefixes scanned.url := by
  obtain ⟨sent, jwt, rfl, hurl, -⟩ := h
  rw [← hurl]
  rfl

theorem Gateway.Sends.contentType_eq {g : Gateway β} {caller : Caller} {scanned up : Request β}
    (h : g.Sends caller scanned up) :
    up.header contentTypeHeader = scanned.header contentTypeHeader := by
  obtain ⟨sent, jwt, rfl, -, -, hheader⟩ := h
  rw [proxy_header, outgoing_direct _ _ _ _ _ _ _ (by decide) (by decide),
    direct_other _ _ _ _ _ _ (by decide) (by decide)]
  obtain hheader | hheader | hheader := hheader <;> rw [hheader]
  · exact Header.del_ne _ (by decide)
  · exact Header.del_ne _ (by decide)

theorem Gateway.Sends.tags_eq {g : Gateway β} {caller : Caller} {scanned up : Request β}
    (h : g.Sends caller scanned up) :
    up.header plainTagsHeader = [] ∧ up.header tagsHeader =
      if tagsForContext g.uni.toLower caller = [] then []
      else [[comma].intercalate (tagsForContext g.uni.toLower caller)] := by
  obtain ⟨sent, jwt, rfl, -⟩ := h
  constructor
  · rw [proxy_header, outgoing_direct _ _ _ _ _ _ _ (by decide) (by decide),
      direct_of_ne _ _ _ _ _ _ (by decide), stampTags_plain]
  · rw [proxy_header, outgoing_direct _ _ _ _ _ _ _ (by decide) (by decide),
      direct_of_ne _ _ _ _ _ _ (by decide), stampTags_tags]

theorem Gateway.scan_eq_some {g : Gateway β} {req scanned : Request β}
    (h : g.scan req = some scanned) : scanned.url = req.url ∧ scanned.method = req.method ∧
      stripBodyTags g.uni g.wire req.header req.body = .ok (scanned.header, scanned.body) := by
  unfold scan at h
  split at h
  · rename_i hstrip
    cases h
    exact ⟨rfl, rfl, hstrip⟩
  · cases h

theorem Gateway.Sends.scanned {g : Gateway β} {caller : Caller} {req scanned up : Request β}
    (hscan : g.scan req = some scanned) (hsends : g.Sends caller scanned up) :
    Scanned g.uni g.wire up.header req.body up.body := by
  obtain ⟨-, -, hstrip⟩ := Gateway.scan_eq_some hscan
  obtain ⟨hbody, hsame, -⟩ := stripBodyTags_ok hstrip
  rw [hsends.body_eq]
  exact hbody.congr (hsends.contentType_eq.trans (hsame _ (by decide) (by decide)))

/-! A gateway whose bodies are JSON values, and which admits everybody. -/

def jsonWire : Wire Json where
  size := fun _ => 0
  blank := fun _ => false
  parse := some
  encode := .obj
  parse_encode := fun ms => ⟨ms, rfl, fun _ => rfl⟩
  parse_blank := by simp
  parseText := fun _ => none
  parseText_blank := fun _ _ => rfl
  parts := fun _ _ => []

def jsonGateway (prefixes : List Bytes) : Gateway Json where
  uni := ⟨id, fun a b => a = b⟩
  wire := jsonWire
  openKey := some
  router := chi
  prefixes := prefixes
  check := fun _ _ _ => true
  policy := fun _ _ => false
  sign := fun _ _ _ => none

end AchProofs.Forwarder
