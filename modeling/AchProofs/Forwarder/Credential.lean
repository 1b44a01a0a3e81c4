import AchProofs.Forwarder.Director

namespace AchProofs.Forwarder

open Foundation.Percent Foundation.Search Foundation.Text

inductive Mode where
  | resolve
  | passthrough
deriving DecidableEq

structure CredentialHeader where
  name : Bytes
  mode : Mode
deriving DecidableEq

/-- The declared credential slots, in order. -/
structure Slots where
  headers : List CredentialHeader
  nodup : (headers.map CredentialHeader.name).Nodup
  name_ne_nil : ∀ s ∈ headers, s.name ≠ []
  name_ne_authz : ∀ s ∈ headers, s.name ≠ authzHeader

def parseMode (mode : Bytes) : Option Mode :=
  if mode = bytes "resolve" then some .resolve
  else if mode = bytes "passthrough" then some .passthrough
  else none

def parseSlot (toLower : Bytes → Bytes) (entry : Bytes × Bytes) : Option CredentialHeader :=
  (parseMode entry.2).map (fun mode => ⟨toLower (trimSpace entry.1), mode⟩)

/-- The slots in the entries of a configuration, each a name and a mode. -/
def parseCredentialHeaders (toLower : Bytes → Bytes) (entries : List (Bytes × Bytes)) :
    Option Slots :=
  match entries.mapM (parseSlot toLower) with
  | none => none
  | some headers =>
    if h : (headers.map CredentialHeader.name).Nodup ∧ (∀ s ∈ headers, s.name ≠ []) ∧
      ∀ s ∈ headers, s.name ≠ authzHeader then
      some ⟨headers, h.1, h.2.1, h.2.2⟩
    else none

def isACHKey (v : Bytes) : Bool := bytes "pk-" <+: v || bytes "ek-" <+: v

def looksLikeJWS (s : Bytes) : Bool := s.count 0x2e = 2 && !decide (bytes "sk-" <+: s)

/-- What a request presents: nothing, something that is not ACH's to judge, or the value of a
header, to be treated in a mode. -/
inductive Presented where
  | nothing
  | foreign
  | found (value name : Bytes) (mode : Mode)
deriving DecidableEq

def afterBearer (v : Bytes) : Bytes := trimSpace (trimPrefix (bytes "Bearer ") v)

def authorization (h : Header) : Presented :=
  let raw := trimSpace (h.get authzHeader)
  if raw = [] then .nothing
  else if bytes "Bearer " <+: raw ∧
    (looksLikeJWS (afterBearer raw) ∨ isACHKey (afterBearer raw)) then
    .found (afterBearer raw) authzHeader .resolve
  else .foreign

def credential (h : Header) : List CredentialHeader → Presented
  | [] => authorization h
  | s :: rest =>
    let v := trimSpace (h.get s.name)
    if v = [] then credential h rest
    else if isACHKey (afterBearer v) then .found (afterBearer v) s.name .resolve
    else .found v s.name s.mode

def authn (resolve : Bytes → Option KeyContext) (slots : Slots) (h : Header) :
    Option (Caller × Header) :=
  match credential h slots.headers with
  | .nothing => none
  | .foreign => some (.foreign, h)
  | .found value _ .passthrough => some (.raw value, h)
  | .found value name .resolve => (resolve value).map (fun kc => (.identity kc, h.del name))

/-- A key of ACH starts the value, or follows white space in it. -/
def CarriesKey (v : Bytes) : Prop :=
  isACHKey v = true ∨ ∃ sp ∈ spaces, ∃ u w, v = u ++ sp ++ w ∧ isACHKey w = true

theorem isACHKey_head {v : Bytes} (h : isACHKey v = true) :
    v.head? = some 0x70 ∨ v.head? = some 0x65 := by
  simp only [isACHKey, Bool.or_eq_true, decide_eq_true_eq] at h
  obtain ⟨t, rfl⟩ | ⟨t, rfl⟩ := h
  · exact .inl rfl
  · exact .inr rfl

theorem isACHKey_mem {v : Bytes} (h : isACHKey v = true) : (0x2d : UInt8) ∈ v := by
  simp only [isACHKey, Bool.or_eq_true, decide_eq_true_eq] at h
  obtain ⟨t, rfl⟩ | ⟨t, rfl⟩ := h <;> simp [bytes]

theorem CarriesKey.dash_mem {v : Bytes} (h : CarriesKey v) : (0x2d : UInt8) ∈ v := by
  obtain h | ⟨sp, -, u, w, rfl, hw⟩ := h
  · exact isACHKey_mem h
  · exact List.mem_append_right _ (isACHKey_mem hw)

theorem not_carriesKey_nil : ¬ CarriesKey [] := fun h => absurd h.dash_mem List.not_mem_nil

theorem CarriesKey.trimSpace_ne_nil {v : Bytes} (h : CarriesKey v) : trimSpace v ≠ [] := by
  intro he
  have hspaces : ∀ c ∈ spaces, (0x2d : UInt8) ∉ c := by decide
  have hin := mem_trimSpace hspaces h.dash_mem
  rw [he] at hin
  cases hin

theorem carriesKey_bearer {key : Bytes} : CarriesKey (bearer key) ↔ CarriesKey key := by
  have hspaces : ∀ sp ∈ spaces, sp ≠ [] ∧ (∀ b ∈ sp, b ∉ bytes "Bearer") ∧
      (0x20 ∈ sp → sp = [0x20]) := by decide +kernel
  constructor
  · rintro (h | ⟨sp, hsp, u, w, hv, hw⟩)
    · exact absurd (isACHKey_head h) (by simp [bearer, bytes])
    · obtain ⟨hne, hplain, hblank⟩ := hspaces sp hsp
      obtain ⟨t, ht, rfl⟩ | ⟨t, ht, rfl⟩ := List.append_eq_append_iff.mp hv
      · obtain ⟨t', rfl, rfl⟩ | ⟨t', hu, rfl⟩ := List.append_eq_append_iff.mp ht.symm
        · exact .inr ⟨sp, hsp, t', w, rfl, hw⟩
        · -- The white space ends in the one of the scheme, or only starts after it.
          by_cases ht' : t' = []
          · subst ht'
            exact .inr ⟨t, hsp, [], w, rfl, hw⟩
          · have hlast : t'.getLast? = some 0x20 := by
              rw [← List.getLast?_append_of_ne_nil u ht', ← hu]
              rfl
            have hmem : 0x20 ∈ t' ++ t := List.mem_append_left t (List.mem_of_getLast? hlast)
            have hsingle := hblank hmem
            obtain ⟨c, t', rfl⟩ := List.exists_cons_of_ne_nil ht'
            have htail := (List.cons.inj hsingle).2
            rw [(List.append_eq_nil_iff.mp htail).2]
            exact .inl hw
      · obtain rfl | ⟨t, x, rfl⟩ := t.eq_nil_or_concat
        · exact .inl hw
        · -- The white space would lie within the scheme.
          have hscheme : bytes "Bearer" ++ [0x20] = (u ++ sp ++ t) ++ [x] := by
            simpa [bytes] using ht
          have hbytes := (List.append_inj' hscheme rfl).1
          obtain ⟨b, sp, rfl⟩ := List.exists_cons_of_ne_nil hne
          exact absurd (by rw [hbytes]; simp) (hplain b List.mem_cons_self)
  · rintro (h | ⟨sp, hsp, u, w, rfl, hw⟩)
    · exact .inr ⟨[0x20], by decide, bytes "Bearer", key, rfl, h⟩
    · exact .inr ⟨sp, hsp, bytes "Bearer " ++ u, w, by simp [bearer], hw⟩

end AchProofs.Forwarder
