import AchProofs.Cli.Merge

namespace AchProofs.Cli.DeepFrame

open Foundation Cli.DottedKey Cli.Merge

variable {α ρ : Type}

/-- How a format reads the literals of a document into values and writes values out. A number of a
JSON document is read into a `float64`, so a literal need not come back. -/
structure Codec (ρ α : Type) where
  decode : ρ → α
  encode : α → ρ
  readable : KeyTree String ρ → Bool
  writable : KeyTree String α → Bool

/-- The user's file: missing or blank, the JSON document `null`, or a document. -/
inductive Body (ρ : Type)
  | blank
  | null
  | object (d : Doc ρ)

def Body.tree : Body ρ → KeyTree String ρ
  | blank => .nil
  | null => .nil
  | object d => d.tree

inductive MergeError
  | decodeRendered
  | decodeExisting
  | nilMap
  | encode
  deriving DecidableEq

def Doc.map (f : ρ → α) (d : Doc ρ) : Doc α := ⟨d.tree.map f, KeyTree.ordered_map f d.ordered⟩

def encodeDoc (c : Codec ρ α) (d : Doc α) : Except MergeError (Body ρ) :=
  if c.writable d.tree then .ok (.object (Doc.map c.encode d)) else .error .encode

/-- What is written over the file. A file that is `null` is read into a map that is none, and
assigning to it ends the program. -/
def mergeDoc (c : Codec ρ α) (ours : Doc ρ) (body : Body ρ) : Except MergeError (Body ρ) :=
  if c.readable ours.tree = false then .error .decodeRendered
  else
    match body with
    | .blank => encodeDoc c (Doc.merge ⟨.nil, KeyTree.ordered_nil⟩ (Doc.map c.decode ours))
    | .null => if ours.tree = .nil then .ok .null else .error .nilMap
    | .object d =>
      if c.readable d.tree then encodeDoc c (Doc.merge (Doc.map c.decode d) (Doc.map c.decode ours))
      else .error .decodeExisting

/-- The file after `MergeForward`, which leaves it as it is on an error. -/
def mergeForward (c : Codec ρ α) (ours : Doc ρ) (body : Body ρ) : Body ρ :=
  match mergeDoc c ours body with
  | .ok out => out
  | .error _ => body

/-- A deep write of an adapter: the document it merges and the keys its state row records. -/
structure DeepWrite (ρ : Type) where
  doc : Doc ρ
  keys : List String

def DeepWrite.Outside (w : DeepWrite ρ) (q : List String) : Prop :=
  q ≠ [] ∧ ∀ k ∈ w.keys, Apart (splitPath k) q

/-- Every path that is neither on the way to a recorded key nor below one reads as before. -/
def Framed (c : Codec ρ α) (w : DeepWrite ρ) (user : Body ρ) : Prop :=
  ∀ q, w.Outside q → (mergeForward c w.doc user).tree.get q = user.tree.get q

/-- What the user has at a path is what the write puts there. -/
def Present (c : Codec ρ α) (user : KeyTree String ρ) (q : List String) : Value String ρ → Prop
  | .inl a => user.get q = some (.inl (c.encode (c.decode a)))
  | .inr _ => ∃ s, user.get q = some (.inr s)

/-- All that the document holds lies at or below a recorded key, on the way to one (where a scalar
has nothing of the user's to wipe), or is what the user has there anyway. -/
structure Covered (c : Codec ρ α) (w : DeepWrite ρ) (user : KeyTree String ρ) : Prop where
  doc : ∀ q v, q ≠ [] → w.doc.tree.get q = some v →
    (∃ k ∈ w.keys, splitPath k <+: q) ∨ Present c user q v ∨
      (∃ k ∈ w.keys, q <+: splitPath k) ∧
        ∀ a, v = .inl a → ∀ r, r ≠ [] → w.Outside (q ++ r) → user.get (q ++ r) = none
  /-- The literals of the user that are only passed through come back. -/
  literals : ∀ q a, w.Outside q → w.doc.tree.get q = none → user.get q = some (.inl a) →
    c.encode (c.decode a) = a

def sectionKeys (isNull : α → Bool) (top : KeyTree String α) (sec : String) :
    Option (List String) :=
  match top.find sec with
  | none => some []
  | some (.inl a) => if isNull a then some [] else none
  | some (.inr ids) => some (ids.keys.map (fun id => sec ++ "." ++ id))

/-- The keys recorded for a plugin document, which is itself passed on unchanged. A section that
is neither an object nor null makes the document an error. -/
def mcpDeepKeys (isNull : α → Bool) (top : KeyTree String α) (sections : List String) :
    Option (List String) :=
  (sections.mapM (sectionKeys isNull top)).map
    (fun keys => keys.flatten.insertionSort (fun a b => a ≤ b))

section Paths

variable {q : List String}

variable {w : DeepWrite ρ}

theorem DeepWrite.Outside.append (h : w.Outside q) (r : List String) : w.Outside (q ++ r) := by
  refine ⟨fun hnil => h.1 (List.append_eq_nil_iff.mp hnil).1,
    fun k hk => ⟨fun hp => ?_, fun hp => ?_⟩⟩
  · obtain hp | hp := List.prefix_or_prefix_of_prefix hp (List.prefix_append q r)
    · exact (h.2 k hk).1 hp
    · exact (h.2 k hk).2 hp
  · exact (h.2 k hk).2 ((List.prefix_append q r).trans hp)

theorem DeepWrite.Outside.not_below (h : w.Outside q) : ¬ ∃ k ∈ w.keys, splitPath k <+: q :=
  fun ⟨k, hk, hp⟩ => (h.2 k hk).1 hp

theorem DeepWrite.Outside.not_above (h : w.Outside q) : ¬ ∃ k ∈ w.keys, q <+: splitPath k :=
  fun ⟨k, hk, hp⟩ => (h.2 k hk).2 hp

end Paths

section Merged

variable {c : Codec ρ α} {w : DeepWrite ρ} {user : Doc ρ} {q : List String}

/-- What the file holds after the documents are read, merged and written. -/
def merged (c : Codec ρ α) (user ours : Doc ρ) : Doc ρ :=
  Doc.map c.encode (Doc.merge (Doc.map c.decode user) (Doc.map c.decode ours))

theorem get_merged_of_misses (h : w.doc.tree.Misses q) :
    (merged c user w.doc).tree.get q =
      (user.tree.get q).map (KeyTree.mapValue c.encode ∘ KeyTree.mapValue c.decode) := by
  show (((user.tree.map c.decode).merge (w.doc.tree.map c.decode)).map c.encode).get q = _
  rw [KeyTree.get_map, KeyTree.get_merge_of_misses _ (KeyTree.misses_map c.decode h),
    KeyTree.get_map, Option.map_map]

theorem get_merged_of_get {v : Value String ρ} (h : w.doc.tree.get q = some v) :
    (merged c user w.doc).tree.get q = some (KeyTree.mapValue c.encode
      (KeyTree.mergeValue ((user.tree.get q).map (KeyTree.mapValue c.decode))
        (KeyTree.mapValue c.decode v))) := by
  show (((user.tree.map c.decode).merge (w.doc.tree.map c.decode)).map c.encode).get q = _
  have hv : (w.doc.tree.map c.decode).get q = some (KeyTree.mapValue c.decode v) := by
    rw [KeyTree.get_map, h]
    rfl
  rw [KeyTree.get_map, KeyTree.get_merge_of_get _ hv, KeyTree.get_map]
  rfl

theorem get_merged_scalar {a : ρ} (h : w.doc.tree.get q = some (.inl a)) :
    (merged c user w.doc).tree.get q = some (.inl (c.encode (c.decode a))) := by
  rw [get_merged_of_get h]
  exact congrArg (fun v => some (KeyTree.mapValue c.encode v)) (KeyTree.mergeValue_leaf _ _)

theorem get_merged_object {s : KeyTree String ρ} (h : w.doc.tree.get q = some (.inr s)) :
    ∃ s', (merged c user w.doc).tree.get q = some (.inr s') := by
  rw [get_merged_of_get h]
  rcases user.tree.get q with - | (a | s') <;> exact ⟨_, rfl⟩

/-- Outside the keys the file after the write is like the one before it, path by path. -/
theorem alike_of_covered (h : Covered c w user.tree) (hq : w.Outside q) :
    KeyTree.Alike ((merged c user w.doc).tree.get q) (user.tree.get q) := by
  obtain hm | ⟨v, hv⟩ | ⟨r, a, s, hs, rfl, hr, ha⟩ := KeyTree.misses_or_hit w.doc.tree hq.1
  · rw [get_merged_of_misses hm]
    rcases hu : user.tree.get q with - | (a | s)
    · trivial
    · exact h.literals q a hq (KeyTree.get_of_misses hm) hu
    · trivial
  · obtain hbelow | hpresent | ⟨habove, -⟩ := h.doc q v hq.1 hv
    · exact absurd hbelow hq.not_below
    · cases v with
      | inl a => exact KeyTree.Alike.of_eq ((get_merged_scalar hv).trans hpresent.symm)
      | inr s =>
        obtain ⟨s', hs'⟩ : ∃ s', (merged c user w.doc).tree.get q = some (.inr s') :=
          get_merged_object hv
        obtain ⟨u, hu⟩ := hpresent
        rw [hs', hu]
        trivial
    · exact absurd habove hq.not_above
  -- a scalar on the way to the path
  · rw [KeyTree.get_below_scalar (get_merged_scalar ha) hs]
    obtain ⟨k, hk, hkr⟩ | hpresent | ⟨-, hwipes⟩ := h.doc r _ hr ha
    · exact absurd ⟨k, hk, hkr.trans (List.prefix_append r s)⟩ hq.not_below
    · rw [KeyTree.get_below_scalar hpresent hs]
      trivial
    · rw [hwipes a rfl s hs hq]
      trivial

theorem covered_of_framed
    (h : ∀ q, w.Outside q → (merged c user w.doc).tree.get q = user.tree.get q) :
    Covered c w user.tree where
  doc q v hne hv := by
    by_cases hbelow : ∃ k ∈ w.keys, splitPath k <+: q
    · exact .inl hbelow
    by_cases habove : ∃ k ∈ w.keys, q <+: splitPath k
    · refine .inr (.inr ⟨habove, fun a ha r hr hout => ?_⟩)
      subst ha
      rw [← h _ hout, KeyTree.get_below_scalar (get_merged_scalar hv) hr]
    · have hout : w.Outside q :=
        ⟨hne, fun k hk => ⟨fun hp => hbelow ⟨k, hk, hp⟩, fun hp => habove ⟨k, hk, hp⟩⟩⟩
      refine .inr (.inl ?_)
      cases v with
      | inl a => exact (h q hout).symm.trans (get_merged_scalar hv)
      | inr s =>
        obtain ⟨s', hs'⟩ : ∃ s', (merged c user w.doc).tree.get q = some (.inr s') :=
          get_merged_object hv
        exact ⟨s', (h q hout).symm.trans hs'⟩
  literals q a hout hnone hu := by
    have hsame := h q hout
    rw [hu] at hsame
    obtain hm | ⟨v, hv⟩ | ⟨r, b, s, hs, rfl, hr, hb⟩ := KeyTree.misses_or_hit w.doc.tree hout.1
    · rw [get_merged_of_misses hm, hu] at hsame
      exact Sum.inl.inj (Option.some.inj hsame)
    · rw [hnone] at hv
      cases hv
    · rw [KeyTree.get_below_scalar (get_merged_scalar hb) hs] at hsame
      cases hsame

theorem merged_framed_iff :
    (∀ q, w.Outside q → (merged c user w.doc).tree.get q = user.tree.get q) ↔
      Covered c w user.tree := by
  refine ⟨covered_of_framed, fun h q hq => ?_⟩
  exact KeyTree.get_eq_of_alike (merged c user w.doc).ordered user.ordered
    fun r => alike_of_covered h (hq.append r)

end Merged

section File

variable {c : Codec ρ α} {ours : Doc ρ} {body out : Body ρ}

/-- A file that is written holds the merged documents. -/
theorem tree_of_mergeDoc (h : mergeDoc c ours body = .ok out) :
    ∃ user : Doc ρ, user.tree = body.tree ∧ out.tree = (merged c user ours).tree := by
  unfold mergeDoc at h
  have hread : ¬ c.readable ours.tree = false := by
    intro hread
    rw [if_pos hread] at h
    cases h
  rw [if_neg hread] at h
  have hwritten : ∀ d : Doc α, encodeDoc c d = .ok out → out = .object (Doc.map c.encode d) := by
    intro d hd
    rw [encodeDoc] at hd
    split_ifs at hd
    exact (Except.ok.inj hd).symm
  cases body with
  | blank =>
    refine ⟨⟨.nil, KeyTree.ordered_nil⟩, rfl, ?_⟩
    rw [hwritten _ h]
    rfl
  | null =>
    dsimp only at h
    split_ifs at h with hnil
    obtain rfl := Except.ok.inj h
    refine ⟨⟨.nil, KeyTree.ordered_nil⟩, rfl, ?_⟩
    show KeyTree.nil = (((KeyTree.nil.map c.decode).merge (ours.tree.map c.decode)).map c.encode)
    rw [hnil]
    rfl
  | object d =>
    dsimp only at h
    split_ifs at h
    refine ⟨d, rfl, ?_⟩
    rw [hwritten _ h]
    rfl

end File

/-- With literals that come back, a document that holds nothing beside the recorded keys is covered
whatever the user has. -/
theorem covered_of_recorded {c : Codec ρ α} {w : DeepWrite ρ} (user : KeyTree String ρ)
    (hlit : ∀ a, c.encode (c.decode a) = a)
    (h : ∀ q v, q ≠ [] → w.doc.tree.get q = some v →
      (∃ k ∈ w.keys, splitPath k <+: q) ∨ (∃ k ∈ w.keys, q <+: splitPath k) ∧ ∃ s, v = .inr s) :
    Covered c w user where
  doc q v hq hv := by
    obtain hbelow | ⟨habove, s, rfl⟩ := h q v hq hv
    · exact .inl hbelow
    · exact .inr (.inr ⟨habove, fun a ha => nomatch ha⟩)
  literals _ a _ _ _ := hlit a

/-- A deep write leaves the user's file alone outside its recorded keys exactly when it fails or
those keys cover its document. -/
theorem framed_iff_covered (c : Codec ρ α) (w : DeepWrite ρ) (user : Body ρ) :
    Framed c w user ↔ ∀ out, mergeDoc c w.doc user = .ok out → Covered c w user.tree := by
  unfold Framed mergeForward
  cases h : mergeDoc c w.doc user with
  | error e => simp
  | ok out =>
    obtain ⟨doc, hdoc, hout⟩ := tree_of_mergeDoc h
    simp only [← hdoc, hout, merged_framed_iff]
    simp

theorem mem_mapM_flatten {β γ : Type} {f : β → Option (List γ)} {bs : List β} {cs : List (List γ)}
    (h : bs.mapM f = some cs) {c : γ} : c ∈ cs.flatten ↔ ∃ b ∈ bs, ∃ l, f b = some l ∧ c ∈ l := by
  induction bs generalizing cs with
  | nil =>
    simp at h
    simp [h]
  | cons b bs ih =>
    simp only [List.mapM_cons, Option.bind_eq_bind, Option.bind_eq_some_iff] at h
    obtain ⟨l, hl, ls, hls, hcs⟩ := h
    cases hcs
    simp [ih hls, hl]

theorem mem_mcpDeepKeys {isNull : α → Bool} {top : KeyTree String α} {sections keys : List String}
    (h : mcpDeepKeys isNull top sections = some keys) {k : String} :
    k ∈ keys ↔ ∃ s ∈ sections, ∃ ids, top.find s = some (.inr ids) ∧
      ∃ id ∈ ids.keys, k = s ++ "." ++ id := by
  obtain ⟨ls, hls, rfl⟩ := Option.map_eq_some_iff.mp h
  rw [List.mem_insertionSort, mem_mapM_flatten hls]
  refine exists_congr (fun s => and_congr_right (fun _ => ?_))
  unfold sectionKeys
  rcases hf : top.find s with - | v
  · simp
  cases v with
  | inl a => cases isNull a <;> simp
  | inr ids => simp [eq_comm]

def pluginDoc : Doc String where
  tree := .node "mcpServers" (.node "a" (.leaf "url" "u" .nil) .nil) (.leaf "theme" "plugin" .nil)
  ordered := by decide

def themedUser : Doc String where
  tree := .leaf "theme" "dark" .nil
  ordered := by decide

def verbatim : Codec String String := ⟨id, id, fun _ => true, fun _ => true⟩

def serversDoc : Doc String where
  tree := .node "mcpServers" (.node "a" (.leaf "url" "u" .nil) .nil) .nil
  ordered := by decide

def servedUser : Doc String where
  tree := .node "mcpServers" (.node "mine" (.leaf "url" "v" .nil) .nil) (.leaf "theme" "dark" .nil)
  ordered := by decide

theorem servers_framed :
    Framed verbatim ⟨serversDoc, ["mcpServers.a"]⟩ (.object servedUser) ∧
      (mergeForward verbatim serversDoc (.object servedUser)).tree =
        .node "mcpServers"
          (.node "a" (.leaf "url" "u" .nil) (.node "mine" (.leaf "url" "v" .nil) .nil))
          (.leaf "theme" "dark" .nil) := by
  refine ⟨(framed_iff_covered verbatim _ _).mpr fun _ _ => ?_, by decide⟩
  refine covered_of_recorded _ (fun _ => rfl) fun q v hq hv => ?_
  have hkey : splitPath "mcpServers.a" = ["mcpServers", "a"] := by decide
  rcases q with - | ⟨k, - | ⟨k', q⟩⟩
  · exact absurd rfl hq
  · by_cases hk : k = "mcpServers"
    · subst hk
      exact .inr ⟨⟨_, List.mem_singleton_self _, by rw [hkey]; simp⟩, _, (Option.some.inj hv).symm⟩
    · simp [serversDoc, KeyTree.find, hk] at hv
  · left
    refine ⟨_, List.mem_singleton_self _, ?_⟩
    rw [hkey]
    by_cases hk : k = "mcpServers"
    · subst hk
      by_cases hk' : k' = "a"
      · subst hk'
        simp
      · cases q <;> simp [serversDoc, KeyTree.get, KeyTree.child, KeyTree.find, KeyTree.get_nil,
          hk'] at hv
    · simp [serversDoc, KeyTree.get, KeyTree.child, KeyTree.find, KeyTree.get_nil, hk] at hv

def rounding : Codec ℕ ℕ :=
  ⟨fun n => if n ≤ 2 ^ 53 then n else n - n % 2, id, fun _ => true, fun _ => true⟩

-- a number that is no `float64` does not come back
example :
    (mergeForward rounding ⟨.nil, trivial⟩
    (.object ⟨.leaf "limit" (2 ^ 53 + 1) .nil, by decide⟩)).tree =
    .leaf "limit" (2 ^ 53) .nil := by
  decide

/-- A plugin document with a setting beside its servers is accepted, and overwrites the user's. -/
theorem plugin_setting_not_framed :
    mcpDeepKeys (fun _ => false) pluginDoc.tree ["mcpServers", "a2aAgents"] =
      some ["mcpServers.a"] ∧
      ¬ Framed verbatim ⟨pluginDoc, ["mcpServers.a"]⟩ (.object themedUser) := by
  refine ⟨by decide, fun h => ?_⟩
  have htheme := h ["theme"] ⟨by decide, by decide⟩
  exact absurd htheme (by decide)

end AchProofs.Cli.DeepFrame
