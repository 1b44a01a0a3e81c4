import AchProofs.Foundation.Percent
import AchProofs.Foundation.Search

namespace AchProofs.Forwarder

open Foundation.Percent Foundation.Search

def bytes (s : String) : Bytes := s.toList.map (fun c => UInt8.ofNat c.toNat)

def slash : UInt8 := 0x2f

inductive Encoding where
  | path
  | pathSegment
deriving DecidableEq

def isAlnum (b : UInt8) : Bool :=
  (0x61 ≤ b && b ≤ 0x7a) || (0x41 ≤ b && b ≤ 0x5a) || (0x30 ≤ b && b ≤ 0x39)

def shouldEscape (b : UInt8) (mode : Encoding) : Bool :=
  if isAlnum b then false
  else if b ∈ bytes "-_.~" then false
  else if b ∈ bytes "$&+,/:;=?@" then
    match mode with
    | .path => b ∈ bytes "?"
    | .pathSegment => b ∈ bytes "/;,?"
  else true

def keepPath (b : UInt8) : Bool := !shouldEscape b .path

def keepSegment (b : UInt8) : Bool := !shouldEscape b .pathSegment

def pathEscape (s : Bytes) : Bytes := escape keepSegment s

/-- The path of a request, and as it was written when that is not the default encoding of it. -/
structure URL where
  path : Bytes
  rawPath : Bytes
deriving DecidableEq

def setPath (p : Bytes) : Option URL :=
  (unescape p).map (fun path => ⟨path, if escape keepPath path = p then [] else p⟩)

/-- The path a request is routed by: as it was written, when that was kept. -/
def routePath (u : URL) : Bytes := if u.rawPath = [] then u.path else u.rawPath

def segment (s : Bytes) : Bytes := s.takeWhile (· ≠ slash)

/-- The router, with what is relied on of it: for the routes `prefix{name}` and `prefix{name}/*` the
parameter is the segment after the prefix as it stands in the path routed by, and is never matched
against nothing. -/
structure Router where
  urlParam : Bytes → URL → Option Bytes
  urlParam_eq_some_iff : ∀ pre u name, urlParam pre u = some name ↔
    ∃ rest, rest ≠ [] ∧ routePath u = pre ++ rest ∧ segment rest = name

inductive Route where
  | v1
  | gemini
  | mcp
  | a2a
  | unknown
deriving DecidableEq

def routeFor (path : Bytes) : Route :=
  if bytes "/v1" <+: path then .v1
  else if bytes "/gemini" <+: path then .gemini
  else if bytes "/mcp" <+: path then .mcp
  else if bytes "/a2a" <+: path then .a2a
  else .unknown

def mcpServerPath (path : Bytes) : Bytes :=
  let rest := segment (trimPrefix (bytes "/mcp/") path)
  if rest = [] then path else bytes "/mcp/" ++ rest

def modelsSegment : Bytes := bytes "/models/"

def colon : UInt8 := 0x3a

/-- The tail after the models segment without the first configured prefix it starts with. A tail
that would name no model any more stays. -/
def stripTail : List Bytes → Bytes → Bytes
  | [], tail => tail
  | p :: prefixes, tail =>
    if p ≠ [] ∧ p <+: tail then
      let stripped := tail.drop p.length
      if stripped = [] ∨ stripped.head? = some colon then tail else stripped
    else stripTail prefixes tail

def stripGeminiModelPrefix (path : Bytes) (prefixes : List Bytes) : Bytes :=
  match cut modelsSegment path with
  | none => path
  | some (head, tail) => head ++ modelsSegment ++ stripTail prefixes tail

def directPath (prefixes : List Bytes) (u : URL) : URL :=
  let u := if routeFor u.path = .mcp then ⟨mcpServerPath u.path, []⟩ else u
  if routeFor u.path = .gemini then
    let p := stripGeminiModelPrefix u.path prefixes
    if p ≠ u.path then ⟨p, []⟩ else u
  else u

theorem segment_eq_self {s : Bytes} (h : slash ∉ s) : segment s = s := by
  refine List.takeWhile_eq_self_iff.mpr (fun b hb => ?_)
  exact decide_eq_true (fun he => h (he ▸ hb))

theorem segment_append_slash {s : Bytes} (h : slash ∉ s) (t : Bytes) :
    segment (s ++ slash :: t) = s := by
  induction s with
  | nil => simp [segment]
  | cons b s ih =>
    have hb : b ≠ slash := fun he => h (by simp [he])
    have hs := ih (fun hm => h (List.mem_cons_of_mem b hm))
    simp only [segment, List.cons_append, List.takeWhile_cons, hb, ne_eq, not_false_eq_true,
      decide_true, if_true] at hs ⊢
    rw [hs]

theorem slash_not_mem_segment (s : Bytes) : slash ∉ segment s := by
  intro h
  have hne := List.mem_takeWhile_imp h
  simp at hne

theorem segment_cases (s : Bytes) : s = segment s ∨ ∃ t, s = segment s ++ slash :: t := by
  induction s with
  | nil => exact .inl rfl
  | cons b s ih =>
    by_cases hb : b = slash
    · subst hb
      exact .inr ⟨s, by simp [segment]⟩
    · have hs : segment (b :: s) = b :: segment s := by simp [segment, hb]
      rw [hs]
      obtain h | ⟨t, h⟩ := ih
      · exact .inl (congrArg (b :: ·) h)
      · exact .inr ⟨t, congrArg (b :: ·) h⟩

def chi : Router where
  urlParam pre u :=
    match cutPrefix pre (routePath u) with
    | some [] => none
    | some rest => some (segment rest)
    | none => none
  urlParam_eq_some_iff pre u name := by
    constructor
    · intro h
      split at h
      · cases h
      · rename_i rest hne hc
        exact ⟨rest, hne, cutPrefix_eq_some_iff.mp hc, Option.some.inj h⟩
      · cases h
    · rintro ⟨rest, hne, hroute, rfl⟩
      rw [hroute, cutPrefix_append]
      obtain ⟨b, t, rfl⟩ := List.exists_cons_of_ne_nil hne
      rfl

theorem mcpServerPath_append (rest : Bytes) :
    mcpServerPath (bytes "/mcp/" ++ rest) =
      if segment rest = [] then bytes "/mcp/" ++ rest else bytes "/mcp/" ++ segment rest := by
  simp [mcpServerPath]

theorem routeFor_mcp (s : Bytes) : routeFor (bytes "/mcp/" ++ s) = .mcp := by
  simp [routeFor, bytes]

theorem mcpServerPath_eq (rest : Bytes) :
    ∃ s, mcpServerPath (bytes "/mcp/" ++ rest) = bytes "/mcp/" ++ s := by
  rw [mcpServerPath_append]
  split
  · exact ⟨rest, rfl⟩
  · exact ⟨segment rest, rfl⟩

theorem directPath_mcp (prefixes : List Bytes) (rest raw : Bytes) :
    directPath prefixes ⟨bytes "/mcp/" ++ rest, raw⟩ =
      ⟨mcpServerPath (bytes "/mcp/" ++ rest), []⟩ := by
  obtain ⟨s, hs⟩ := mcpServerPath_eq rest
  simp only [directPath, routeFor_mcp, if_true, hs, reduceCtorEq, if_false]

end AchProofs.Forwarder
