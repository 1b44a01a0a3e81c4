import AchProofs.Forwarder.BodyTags

namespace AchProofs.Forwarder

open Foundation Foundation.Percent Foundation.Search
  Foundation.Text Foundation.Json

/-- The list of strip prefixes in its configuration value. -/
def parseGeminiStripModelPrefixes (value : Json) : Option (List Bytes) := do
  let items ← value.asList
  let names ← items.mapM Json.asString
  let prefixes := names.map trimSpace
  if [] ∈ prefixes ∨ ¬ prefixes.Nodup then none else some prefixes

inductive Method where
  | get
  | post
  | other
deriving DecidableEq

def geminiMethods : List Bytes :=
  [bytes "generateContent", bytes "streamGenerateContent", bytes "countTokens",
    bytes "embedContent", bytes "batchEmbedContents"]

def geminiModels : Bytes := bytes "/gemini/v1beta/models"

/-- The model in the tail of a path, without the action of a `POST`. -/
def tailModel (method : Method) (tail : Bytes) : Option Bytes :=
  match method with
  | .get => some tail
  | .post => (cut [colon] tail).bind (fun r => if r.2 ∈ geminiMethods then some r.1 else none)
  | .other => none

def stripModel (prefixes : List Bytes) (model : Bytes) : Bytes :=
  trimPrefix modelsSegment (stripGeminiModelPrefix (modelsSegment ++ model) prefixes)

def IsModel (seg : Bytes) : Prop :=
  seg ≠ [] ∧ seg ≠ bytes "." ∧ seg ≠ bytes ".." ∧ ∀ b ∈ seg, b ∉ bytes "/:%?#"

instance (seg : Bytes) : Decidable (IsModel seg) := by
  unfold IsModel
  infer_instance

/-- The model a request addresses, if its route is allowed. The list route has the empty one. -/
def geminiPathModel (method : Method) (u : URL) (prefixes : List Bytes) : Option Bytes := do
  let rest ← cutPrefix geminiModels u.path
  if bytes "%2f" <:+: lowerAscii u.rawPath then none
  else if rest = [] then if method = .get then some [] else none
  else
    let tail ← cutPrefix [slash] rest
    let model ← tailModel method tail
    if IsModel (stripModel prefixes model) then some model else none

def normGeminiModel (name : Bytes) (prefixes : List Bytes) : Bytes :=
  stripModel prefixes (trimPrefix (bytes "models/") name)

def namesPath (prefixes : List Bytes) (pathModel : Bytes) (v : Json) : Bool :=
  v.asString.any (fun name => normGeminiModel name prefixes = normGeminiModel pathModel prefixes)

def modelKey : Bytes := bytes "model"

def isBatch (path : Bytes) : Bool := bytes ":batchEmbedContents" <:+ path

/-- An entry of a batch: an object, whose model is the one of the path if it has one. -/
def entryMatches (prefixes : List Bytes) (pathModel : Bytes) : Json → Bool
  | .obj ms => (lookup modelKey ms).all (namesPath prefixes pathModel)
  | _ => false

variable {β : Type}

def bodyModelMatches (w : Wire β) (contentType path : Bytes) (b : β) (pathModel : Bytes)
    (prefixes : List Bytes) : Bool :=
  if w.blank b then true
  else if mediaType contentType ≠ [] ∧ mediaType contentType ≠ bytes "application/json" then false
  else
    match (w.parse b).bind Json.asMap with
    | none => false
    | some m =>
      (lookup (bytes "target_model_names") m).isNone &&
      (lookup modelKey m).all (namesPath prefixes pathModel) &&
      (!isBatch path || (lookup (bytes "requests") m).all (fun raw =>
        raw.asList.any (fun entries => entries.all (entryMatches prefixes pathModel))))

def bodyModels (w : Wire β) (path : Bytes) (b : β) : List Json :=
  match (w.parse b).bind Json.asMap with
  | none => []
  | some m => (lookup modelKey m).toList ++
    if isBatch path then
      (((lookup (bytes "requests") m).bind Json.asList).getD []).filterMap
        (fun e => e.asMap.bind (lookup modelKey))
    else []

theorem stripGeminiModelPrefix_append (head : Bytes) (prefixes : List Bytes) (tail : Bytes)
    (h : ¬ modelsSegment <:+: head ++ modelsSegment.dropLast) :
    stripGeminiModelPrefix (head ++ modelsSegment ++ tail) prefixes =
      head ++ modelsSegment ++ stripTail prefixes tail := by
  rw [stripGeminiModelPrefix, cut_append (by decide) h]

theorem stripModel_eq (prefixes : List Bytes) (model : Bytes) :
    stripModel prefixes model = stripTail prefixes model := by
  have h := stripGeminiModelPrefix_append [] prefixes model (by decide)
  rw [List.nil_append] at h
  rw [stripModel, h, trimPrefix_append]

theorem directPath_gemini (prefixes : List Bytes) (tail raw : Bytes) :
    (directPath prefixes ⟨geminiModels ++ slash :: tail, raw⟩).path =
      geminiModels ++ slash :: stripTail prefixes tail := by
  have hroute : routeFor (geminiModels ++ slash :: tail) = .gemini := by
    simp [routeFor, bytes, geminiModels]
  have hsplit : ∀ t, geminiModels ++ slash :: t = bytes "/gemini/v1beta" ++ modelsSegment ++ t :=
    fun t => rfl
  have hstrip : stripGeminiModelPrefix (geminiModels ++ slash :: tail) prefixes =
      geminiModels ++ slash :: stripTail prefixes tail := by
    rw [hsplit, hsplit, stripGeminiModelPrefix_append _ prefixes tail (by decide)]
  simp only [directPath, hroute, reduceCtorEq, if_false, if_true, hstrip]
  split
  · rfl
  · rename_i h
    exact (not_not.mp h).symm

theorem directPath_gemini_list (prefixes : List Bytes) (raw : Bytes) :
    (directPath prefixes ⟨geminiModels, raw⟩).path = geminiModels := by
  have hroute : routeFor geminiModels = .gemini := by decide
  have hstrip : stripGeminiModelPrefix geminiModels prefixes = geminiModels := by
    have hcut : cut modelsSegment geminiModels = none := cut_eq_none (by decide)
    rw [stripGeminiModelPrefix, hcut]
  simp only [directPath, hroute, reduceCtorEq, if_false, if_true, hstrip, ne_eq, not_true]

end AchProofs.Forwarder
