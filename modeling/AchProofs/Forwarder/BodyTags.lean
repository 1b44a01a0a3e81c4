import AchProofs.Foundation.Json
import AchProofs.Forwarder.Header

namespace AchProofs.Forwarder

open Foundation Foundation.Percent Foundation.Search
  Foundation.Text Foundation.Json

/-- The two operations on texts that go beyond ASCII. -/
structure Unicode where
  toLower : Bytes → Bytes
  equalFold : Bytes → Bytes → Bool

/-- The bodies of requests: what JSON is read from one, and how a map is written into one. The
members of a map come out in an order of the encoder's own. -/
structure Wire (β : Type) where
  size : β → ℕ
  blank : β → Bool
  parse : β → Option Json
  encode : Members → β
  parse_encode : ∀ ms, ∃ ns, parse (encode ms) = some (.obj ns) ∧ ∀ k, lookup k ns = lookup k ms
  parse_blank : ∀ b, blank b = true → parse b = none
  /-- The JSON text inside a string. -/
  parseText : Bytes → Option Json
  parseText_blank : ∀ s, trimSpace s = [] → parseText s = none
  /-- The names of the parts of a form of a content type. A part or an end that cannot be read
  without doubt has none. -/
  parts : Bytes → β → List (Option Bytes)

def maxTagScanBody : ℕ := 32 * 2 ^ 20

inductive ScanError where
  | bodyTooLarge
  | invalidBody
  | clientTags
  | clientParam
deriving DecidableEq

def tagsKey : Bytes := bytes "tags"

def paramsKey : Bytes := bytes "params"

def toolsKey : Bytes := bytes "tools"

def refusedParams : List Bytes :=
  [bytes "api_key", bytes "deployment_id", bytes "guardrails", bytes "guardrail_config"]

def refusedMetaParams : List Bytes := [bytes "guardrails", bytes "guardrail_config"]

def metaKeys : List Bytes := [bytes "metadata", bytes "litellm_metadata"]

def tagBearing : List Bytes := tagsKey :: metaKeys

def mediaType (contentType : Bytes) : Bytes :=
  lowerAscii (trimSpace (contentType.takeWhile (· ≠ 0x3b)))

def ambiguousHeader (v : Bytes) : Bool :=
  v.any (fun c => 0x80 ≤ c || (c < 0x20 && c ≠ 0x09) || c = 0x7f)

/-! ### Forms -/

def formFieldName (name : Bytes) : Bytes :=
  if bytes "[]" <:+ name then name.take (name.length - 2) else name

def isRefusedParam (uni : Unicode) (name : Bytes) : Bool :=
  refusedParams.any (uni.equalFold (formFieldName name))

def hasTagField (uni : Unicode) (name : Bytes) : Bool :=
  bytes "litellm_metadata[" <+: uni.toLower name || tagBearing.any
    (uni.equalFold (formFieldName name))

def checkParts (uni : Unicode) : List (Option Bytes) → Except ScanError Unit
  | [] => .ok ()
  | none :: _ => .error .invalidBody
  | some name :: rest =>
    if hasTagField uni name then .error .clientTags
    else if isRefusedParam uni name then .error .clientParam
    else checkParts uni rest

/-! ### JSON -/

def isMcpTool (tool : Json) : Bool :=
  ((tool.asMap.bind (lookup (bytes "type"))).bind Json.asString) = some (bytes "mcp")

def refuseParams (m : Members) : Bool :=
  refusedParams.any (fun k => (lookup k m).isSome) ||
    (((lookup toolsKey m).bind Json.asList).getD []).any isMcpTool

variable {β : Type}

/-- The map in a metadata value, which may be sent as a string. -/
def metaRead (w : Wire β) (v : Json) : Option Members :=
  match v.asString with
  | some s => (w.parseText s).bind Json.asMap
  | none => v.asMap

/-- One round of the loop over the metadata keys: the map after it, and whether it changed. -/
def stripMeta (w : Wire β) (m : Members) (k : Bytes) : Except ScanError (Members × Bool) :=
  match lookup k m with
  | none => .ok (m, false)
  | some v =>
    match metaRead w v with
    | none =>
      if v.asString.any (fun s => trimSpace s ≠ []) then .error .invalidBody else .ok (m, false)
    | some sub =>
      if refusedMetaParams.any (fun p => (lookup p sub).isSome) then .error .clientParam
      else if (lookup tagsKey sub).isNone then .ok (m, false)
      else .ok (assign k (.obj (erase tagsKey sub)) m, true)

def stripObjTags (w : Wire β) (m : Members) : Except ScanError (Members × Bool) :=
  if refuseParams m then .error .clientParam
  else do
    let m₁ := if (lookup tagsKey m).isSome then erase tagsKey m else m
    let (m₂, c₂) ← stripMeta w m₁ (bytes "metadata")
    let (m₃, c₃) ← stripMeta w m₂ (bytes "litellm_metadata")
    return (m₃, (lookup tagsKey m).isSome || c₂ || c₃)

def stripJSONTags (w : Wire β) (b : β) : Except ScanError (Option β) :=
  match w.parse b with
  | some (.obj ms) => do
    let (top, changed) ← stripObjTags w (lastOnly ms)
    match (lookup paramsKey top).bind Json.asMap with
    | none => return if changed then some (w.encode top) else none
    | some ps =>
      let (ps', pch) ← stripObjTags w ps
      if pch then return some (w.encode (assign paramsKey (.obj ps') top))
      else return if changed then some (w.encode top) else none
  | _ => .error .invalidBody

def isForm (contentType : Bytes) : Bool :=
  mediaType contentType ∈ [bytes "multipart/form-data", bytes "application/x-www-form-urlencoded"]

def stripBodyTags (uni : Unicode) (w : Wire β) (h : Header) :
    Option β → Except ScanError (Header × Option β)
  | none => .ok (h, none)
  | some b =>
    if maxTagScanBody < w.size b then .error .bodyTooLarge
    else if w.blank b then .ok (h, some b)
    else if 1 < (h contentTypeHeader).length ∨ (h contentTypeHeader).any ambiguousHeader then
      .error .invalidBody
    else if isForm (h.get contentTypeHeader) then do
      checkParts uni (w.parts (h.get contentTypeHeader) b)
      return (h, some b)
    else do
      match ← stripJSONTags w b with
      | none => return (h, some b)
      | some out =>
        return ((h.set contentLengthHeader (bytes (toString (w.size out)))).del
          transferEncodingHeader, some out)

end AchProofs.Forwarder
