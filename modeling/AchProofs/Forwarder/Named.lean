import AchProofs.Forwarder.Url

namespace AchProofs.Forwarder

open Foundation.Percent Foundation.Search

/-- The two kinds of resources that are addressed by name. -/
inductive Kind where
  | mcp
  | a2a
deriving DecidableEq

def Kind.pattern : Kind → Bytes
  | .mcp => bytes "/mcp/"
  | .a2a => bytes "/a2a/"

/-- A request with an ACH identity on a named route: the name it is checked under, and the path it
goes upstream with when the check admits it. -/
def handlerNamed (router : Router) (prefixes : List Bytes) (kind : Kind) (check : Bytes → Bool)
    (u : URL) : Option (Bytes × Bytes) :=
  (router.urlParam kind.pattern u).bind (fun name =>
    if check name then some (name, (directPath prefixes u).path) else none)

/-- A public base URL without query and fragment. -/
structure BaseURL where
  scheme : Bytes
  authority : Bytes
  mount : Bytes
  scheme_ok : 0x3a ∉ scheme
  authority_ok : ∀ b ∈ authority, b ∉ bytes "/?#"
  mount_ok : ∀ b ∈ mount, b ∉ bytes "?#"
  mount_abs : mount ≠ [] → mount.head? = some slash

def BaseURL.text (base : BaseURL) : Bytes :=
  base.scheme ++ bytes "://" ++ base.authority ++ base.mount

def endpoint (base : BaseURL) (kind : Kind) (name : Bytes) : Bytes :=
  base.text ++ kind.pattern ++ pathEscape name

/-- The path of an absolute URL as it is written: after the scheme and the authority, up to a query
or a fragment. -/
def escapedPath (url : Bytes) : Bytes :=
  (((url.dropWhile (· ≠ 0x3a)).drop 3).dropWhile (· ∉ bytes "/?#")).takeWhile (· ∉ bytes "?#")

/-- What a proxy in front of the forwarder takes off when the base URL has a path: that path, but
not the slashes at its end. -/
def BaseURL.front (base : BaseURL) : Bytes := base.mount.rdropWhile (· = slash)

def request (base : BaseURL) (url : Bytes) : Option URL :=
  (cutPrefix base.front (escapedPath url)).bind setPath

def Admissible (name : Bytes) : Prop :=
  name ≠ [] ∧ ∀ b ∈ name, b ∉ bytes "/\\?#% " ∧ 0x1f < b ∧ b ≠ 0x7f

instance (name : Bytes) : Decidable (Admissible name) := by
  unfold Admissible
  infer_instance

/-- A request for the published endpoint is checked under the resource's name, and a caller whom
the check admits gets through, for a server to exactly that server. -/
def Reaches (router : Router) (prefixes : List Bytes) (base : BaseURL)
    (kind : Kind) (name : Bytes) : Prop :=
  ∃ u, request base (endpoint base kind name) = some u ∧
    ∀ check : Bytes → Bool, check name = true →
      ∃ path, handlerNamed router prefixes kind check u = some (name, path) ∧
        (kind = .mcp → path = bytes "/mcp/" ++ name)

theorem keepPath_percent : keepPath percent = false := by decide

theorem keepSegment_percent : keepSegment percent = false := by decide

/-- The two encodings of a path differ at three bytes. -/
theorem keepPath_eq_keepSegment_iff (b : UInt8) :
    keepPath b = keepSegment b ↔ b ∉ bytes "/;," := by
  revert b
  refine byte_forall ?_
  decide +kernel

theorem Kind.pattern_kept (kind : Kind) : ∀ b ∈ kind.pattern, keepPath b = true := by
  cases kind <;> decide +kernel

theorem Kind.pattern_plain (kind : Kind) :
    percent ∉ kind.pattern ∧ ∀ b ∈ kind.pattern, b ∉ bytes "?#" := by
  cases kind <;> decide +kernel

theorem Kind.pattern_eq_cons (kind : Kind) :
    ∃ c rest, c ≠ slash ∧ kind.pattern = slash :: c :: rest := by
  cases kind <;> exact ⟨_, _, by decide, rfl⟩

theorem escapedPath_endpoint (base : BaseURL) (kind : Kind) (name : Bytes) :
    escapedPath (endpoint base kind name) = base.mount ++ (kind.pattern ++ pathEscape name) := by
  have hscheme : ∀ b ∈ base.scheme, decide (b ≠ 0x3a) = true := fun b hb =>
    decide_eq_true (fun he => base.scheme_ok (he ▸ hb))
  have hauth : ∀ b ∈ base.authority, decide (b ∉ bytes "/?#") = true := fun b hb =>
    decide_eq_true (base.authority_ok b hb)
  obtain ⟨rest, hrest⟩ : ∃ rest, base.mount ++ (kind.pattern ++ pathEscape name) =
    slash :: rest := by
    cases hm : base.mount with
    | nil =>
      obtain ⟨c, rest, -, hp⟩ := kind.pattern_eq_cons
      exact ⟨c :: rest ++ pathEscape name, by rw [hp]; rfl⟩
    | cons b m =>
      have hb := base.mount_abs (by rw [hm]; exact List.cons_ne_nil b m)
      rw [hm, List.head?_cons, Option.some.injEq] at hb
      exact ⟨m ++ (kind.pattern ++ pathEscape name), by rw [hb]; rfl⟩
  have hend : ∀ b ∈ base.mount ++ (kind.pattern ++ pathEscape name),
      decide (b ∉ bytes "?#") = true := by
    intro b hb
    refine decide_eq_true ?_
    obtain hb | hb := List.mem_append.mp hb
    · exact base.mount_ok b hb
    obtain hb | hb := List.mem_append.mp hb
    · exact kind.pattern_plain.2 b hb
    · intro hq
      have hall : ∀ c ∈ bytes "?#", hexValue c = none ∧ c ≠ percent ∧ keepSegment c = false := by
        decide +kernel
      obtain ⟨hv, hp, hk⟩ := hall b hq
      exact not_mem_escape hv hp hk name hb
  have htext : endpoint base kind name = base.scheme ++
      (bytes "://" ++ (base.authority ++ (base.mount ++ (kind.pattern ++ pathEscape name)))) := by
    simp [endpoint, BaseURL.text]
  rw [htext, escapedPath, List.dropWhile_append_of_pos hscheme]
  change (List.dropWhile _ (base.authority ++ (base.mount ++ _))).takeWhile _ = _
  rw [List.dropWhile_append_of_pos hauth, hrest]
  change List.takeWhile _ (slash :: rest) = _
  rw [← hrest]
  exact List.takeWhile_eq_self_iff.mpr hend

/-- The slashes at the end of a base URL, which stay in front of the route. -/
def BaseURL.slashes (base : BaseURL) : Bytes := base.mount.rtakeWhile (· = slash)

theorem BaseURL.mem_slashes {base : BaseURL} {b : UInt8} (h : b ∈ base.slashes) : b = slash := by
  simpa using List.mem_rtakeWhile_imp h

theorem BaseURL.slashes_eq_nil_iff (base : BaseURL) :
    base.slashes = [] ↔ base.mount.getLast? ≠ some slash := by
  rw [slashes, List.rtakeWhile_eq_nil_iff]
  obtain hnil | hne := eq_or_ne base.mount []
  · simp [hnil]
  · simp [hne, List.getLast?_eq_some_getLast hne]

theorem setPath_append {pre : Bytes} (hkept : ∀ b ∈ pre, keepPath b = true) (name : Bytes) :
    setPath (pre ++ pathEscape name) = some ⟨pre ++ name,
      if escape keepPath name = pathEscape name then [] else pre ++ pathEscape name⟩ := by
  have hpercent : percent ∉ pre := fun hm => by
    have hk := hkept percent hm
    rw [keepPath_percent] at hk
    cases hk
  have hun : unescape (pre ++ pathEscape name) = some (pre ++ name) := by
    rw [unescape_append _ _ (unescape_of_not_mem hpercent), pathEscape,
      unescape_escape keepSegment_percent]
    rfl
  have hesc : escape keepPath (pre ++ name) = pre ++ escape keepPath name := by
    rw [escape_append, escape_of_kept hkept]
  simp only [setPath, hun, Option.map_some, hesc, List.append_cancel_left_eq]

theorem request_endpoint (base : BaseURL) (kind : Kind) (name : Bytes) :
    request base (endpoint base kind name) = some ⟨base.slashes ++ kind.pattern ++ name,
      if escape keepPath name = pathEscape name then []
      else base.slashes ++ kind.pattern ++ pathEscape name⟩ := by
  have hsplit : base.mount = base.front ++ base.slashes :=
    List.rdropWhile_append_rtakeWhile.symm
  have hkept : ∀ b ∈ base.slashes ++ kind.pattern, keepPath b = true := by
    intro b hb
    obtain hb | hb := List.mem_append.mp hb
    · rw [BaseURL.mem_slashes hb]
      decide
    · exact kind.pattern_kept b hb
  rw [request, escapedPath_endpoint, hsplit, List.append_assoc, cutPrefix_append, Option.bind_some,
    ← List.append_assoc, setPath_append hkept]

variable {name : Bytes}

theorem Admissible.slash_not_mem (h : Admissible name) : slash ∉ name :=
  fun hm => (h.2 slash hm).1 (by decide)

theorem Admissible.percent_not_mem (h : Admissible name) : percent ∉ name :=
  fun hm => (h.2 percent hm).1 (by decide)

theorem directPath_server (prefixes : List Bytes) (h : Admissible name) (raw : Bytes) :
    (directPath prefixes ⟨bytes "/mcp/" ++ name, raw⟩).path = bytes "/mcp/" ++ name := by
  rw [directPath_mcp, mcpServerPath_append, segment_eq_self h.slash_not_mem, if_neg h.1]

/-- The encoding of the published endpoint is the default one unless the name holds one of two
characters. -/
theorem escape_eq_pathEscape_iff (h : Admissible name) :
    escape keepPath name = pathEscape name ↔ ∀ b ∈ name, b ∉ bytes ",;" := by
  rw [pathEscape, escape_eq_escape_iff keepPath_percent keepSegment_percent]
  refine forall₂_congr (fun b hb => ?_)
  have hne : b ≠ slash := fun he => h.slash_not_mem (he ▸ hb)
  rw [keepPath_eq_keepSegment_iff]
  simp [show bytes "/;," = [slash, 0x3b, 0x2c] from rfl, show bytes ",;" = [0x2c, 0x3b] from rfl,
    hne, and_comm]

theorem keepPath_of_keepSegment {b : UInt8} (h : keepSegment b = true) : keepPath b = true := by
  rw [(keepPath_eq_keepSegment_iff b).mpr, h]
  intro hb
  have hall : ∀ c ∈ bytes "/;,", keepSegment c = false := by decide +kernel
  rw [hall b hb] at h
  cases h

theorem escape_eq_of_pathEscape_eq (h : Admissible name) (he : pathEscape name = name) :
    escape keepPath name = pathEscape name := by
  have hplain : ∀ b ∈ name, (fun b => decide (b ≠ percent)) b = true := fun b hb =>
    decide_eq_true (fun hp => h.percent_not_mem (hp ▸ hb))
  have hkept : ∀ b ∈ name, keepSegment b = true := by
    intro b hb
    have hpercent : (fun b => decide (b ≠ percent)) percent = false := by simp
    have hsame : escape keepSegment name = escape (fun b => decide (b ≠ percent)) name := by
      rw [escape_of_kept hplain]
      exact he
    rw [← hplain b hb]
    exact (escape_eq_escape_iff keepSegment_percent hpercent name).mp hsame b hb
  rw [he]
  exact escape_of_kept (fun b hb => keepPath_of_keepSegment (hkept b hb))

theorem slash_not_mem_pathEscape (name : Bytes) : slash ∉ pathEscape name :=
  not_mem_escape (by decide) (by decide) (by decide) name

theorem pathEscape_ne_nil (h : name ≠ []) : pathEscape name ≠ [] := by
  obtain ⟨b, s, rfl⟩ := List.exists_cons_of_ne_nil h
  rw [pathEscape, escape_cons]
  split <;> simp [escapeByte]

variable {router : Router}

theorem urlParam_pattern {kind : Kind} {s : Bytes} {u : URL} (hu : routePath u = kind.pattern ++ s)
    (hne : s ≠ []) (hs : slash ∉ s) : router.urlParam kind.pattern u = some s :=
  (router.urlParam_eq_some_iff _ _ _).mpr ⟨s, hne, hu, segment_eq_self hs⟩

/-- A route has one slash before its first segment. -/
theorem urlParam_slashes {base : BaseURL} {kind : Kind} {s : Bytes} {u : URL}
    (hu : routePath u = base.slashes ++ kind.pattern ++ s) (hne : base.slashes ≠ []) :
    router.urlParam kind.pattern u = none := by
  rw [Option.eq_none_iff_forall_ne_some]
  intro n hn
  obtain ⟨rest, -, hp, -⟩ := (router.urlParam_eq_some_iff _ _ _).mp hn
  obtain ⟨c, r, hc, hpat⟩ := kind.pattern_eq_cons
  obtain ⟨b, slashes, hs⟩ := List.exists_cons_of_ne_nil hne
  rw [hu, hs, hpat, List.append_assoc] at hp
  have htail : slashes ++ slash :: c :: (r ++ s) = c :: (r ++ rest) := (List.cons.inj hp).2
  cases hslashes : slashes with
  | nil =>
    rw [hslashes] at htail
    exact hc (List.cons.inj htail).1.symm
  | cons d ds =>
    rw [hslashes] at htail
    have hmem : d ∈ base.slashes := by simp [hs, hslashes]
    have hd : d = slash := BaseURL.mem_slashes hmem
    exact hc ((List.cons.inj htail).1.symm.trans hd)

def localBase : BaseURL where
  scheme := bytes "http"
  authority := bytes "ach"
  mount := []
  scheme_ok := by decide
  authority_ok := by decide +kernel
  mount_ok := by decide +kernel
  mount_abs := by decide

end AchProofs.Forwarder
