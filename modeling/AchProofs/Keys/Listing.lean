import AchProofs.Access.Readers
import AchProofs.Foundation.Base64
import AchProofs.Foundation.Paging
import AchProofs.Foundation.Timestamp

namespace AchProofs.Keys.Listing

open Access (ErrResp KeyContext hasIntersect)
open Foundation Foundation.Percent Foundation.Timestamp

/-- The public id of a key. Which of two ids comes first is the collation's to say. -/
structure KeyID where
  text : Bytes
  deriving DecidableEq, Repr

inductive Kind where
  | pk
  | ek
  deriving DecidableEq, Repr

inductive Status where
  | active
  | suspended
  | revoked
  | expired
  | invalid
  deriving DecidableEq, Repr

def Status.name : Status → String
  | .active => "active"
  | .suspended => "suspended"
  | .revoked => "revoked"
  | .expired => "expired"
  | .invalid => "invalid"

def Status.all : List Status := [.active, .suspended, .revoked, .expired, .invalid]

section Tables

/-- What the column of a personal key may hold. -/
inductive PkStatus where
  | active
  | revoked
  | expired
  deriving DecidableEq, Repr

def PkStatus.listed : PkStatus → Status
  | .active => .active
  | .revoked => .revoked
  | .expired => .expired

inductive EkStatus where
  | active
  | suspended
  | revoked
  deriving DecidableEq, Repr

def EkStatus.listed : EkStatus → Status
  | .active => .active
  | .suspended => .suspended
  | .revoked => .revoked

structure PersonalKey where
  keyID : KeyID
  credentialHash : Bytes
  ownerEmail : String
  status : PkStatus
  createdAt : Civil
  lastUsedAt : Option Civil
  expiresAt : Civil
  revokedAt : Option Civil
  deriving DecidableEq, Repr

structure EnvironmentKey where
  keyID : KeyID
  environment : String
  ownerEmail : String
  name : String
  status : EkStatus
  createdAt : Civil
  lastUsedAt : Option Civil
  revokedAt : Option Civil
  expiresAt : Option Civil
  deriving DecidableEq, Repr

def pkid : Bytes := [0x70, 0x6b, 0x69, 0x64]

def ekid : Bytes := [0x65, 0x6b, 0x69, 0x64]

/-- The column is written once, by the clock of the database. -/
structure Clocked (t : Civil) : Prop where
  valid : t.Valid
  year_ge : 1970 ≤ t.year
  year_lt : t.year < 10 ^ 4

/-- The two tables, with the constraints of the schema. -/
structure Database where
  personalKeys : List PersonalKey
  environmentKeys : List EnvironmentKey
  pk_ids : (personalKeys.map PersonalKey.keyID).Nodup
  pk_hashes : (personalKeys.map PersonalKey.credentialHash).Nodup
  pk_like : ∀ k ∈ personalKeys, pkid <+: k.keyID.text
  pk_clocked : ∀ k ∈ personalKeys, Clocked k.createdAt
  ek_ids : (environmentKeys.map EnvironmentKey.keyID).Nodup
  ek_like : ∀ k ∈ environmentKeys, ekid <+: k.keyID.text
  ek_clocked : ∀ k ∈ environmentKeys, Clocked k.createdAt

def PersonalKey.candidate (now : Civil) (k : PersonalKey) : Bool :=
  k.status = .active && now < k.expiresAt && now < k.createdAt.addDays 90

/-- The row that `PkCheckAndExtend` finds for a credential. -/
def pkCheckAndExtend (db : Database) (now : Civil) (credentialHash : Bytes) : Option PersonalKey :=
  db.personalKeys.find? (fun k => k.credentialHash = credentialHash && k.candidate now)

end Tables

section ListKeys

structure KeyListItem where
  keyID : KeyID
  kind : Kind
  ownerEmail : String
  environment : Option String
  name : Option String
  status : Status
  createdAt : Civil
  lastUsedAt : Option Civil
  revokedAt : Option Civil
  expiresAt : Option Civil
  deriving DecidableEq, Repr

structure KeyListFilter where
  ownerEmail : Option String
  kind : Option Kind
  status : Option Status
  environment : String
  deriving DecidableEq, Repr

def PersonalKey.item (now : Civil) (k : PersonalKey) : KeyListItem :=
  let status := if k.status = .active ∧ min k.expiresAt (k.createdAt.addDays 90) ≤ now then .expired
    else k.status.listed
  ⟨k.keyID, .pk, k.ownerEmail, none, none, status, k.createdAt, k.lastUsedAt, k.revokedAt, none⟩

def EnvironmentKey.expired (now : Civil) (k : EnvironmentKey) : Bool :=
  k.expiresAt.any (fun t => t ≤ now)

def EnvironmentKey.item (now : Civil) (k : EnvironmentKey) : KeyListItem :=
  let status := if k.status ≠ .revoked ∧ k.expired now then .expired else k.status.listed
  ⟨k.keyID, .ek, k.ownerEmail, some k.environment, some k.name, status, k.createdAt, k.lastUsedAt,
    k.revokedAt, k.expiresAt⟩

def combined (db : Database) (now : Civil) : List KeyListItem :=
  db.personalKeys.map (PersonalKey.item now) ++ db.environmentKeys.map (EnvironmentKey.item now)

def KeyListFilter.passes (f : KeyListFilter) (it : KeyListItem) : Bool :=
  (f.ownerEmail = none || f.ownerEmail = some it.ownerEmail) &&
    (f.kind = none || f.kind = some it.kind) && (f.status = none || f.status = some it.status) &&
    (f.environment = "" || it.environment = some f.environment)

def clampLimit (limit : ℤ) : ℕ :=
  if limit ≤ 0 then 100 else if 500 < limit then 500 else limit.toNat

def nul : UInt8 := 0

def encodeCursor (createdAt : Civil) (keyID : KeyID) : Bytes :=
  Base64.encode (createdAt.formatRFC3339Nano ++ nul :: keyID.text)

/-- The zero of the time type. -/
def zeroTime : Civil := ⟨1, 1, 1, 0, 0, 0, 0⟩

def cutAt (sep : UInt8) (s : Bytes) : Option (Bytes × Bytes) :=
  if sep ∈ s then some (s.takeWhile (· ≠ sep), (s.dropWhile (· ≠ sep)).tail) else none

def decodeCursor (cursor : Bytes) : Option (Civil × KeyID) :=
  if cursor = [] then some (zeroTime, ⟨[]⟩)
  else do
    let raw ← Base64.decode cursor
    let (tsRaw, id) ← cutAt nul raw
    let ts ← Civil.parseRFC3339Nano tsRaw
    some (ts, ⟨id⟩)

variable [LinearOrder KeyID]

def KeyListItem.position (it : KeyListItem) : Civil ×ₗ KeyID := toLex (it.createdAt, it.keyID)

/-- The rows of the query, newest first. The zero time stands for no cursor. -/
def query (db : Database) (now : Civil) (f : KeyListFilter) (cursor : Civil × KeyID) :
    List KeyListItem :=
  let after := if cursor.1 = zeroTime then none else some (toLex cursor)
  ((combined db now).filter
    (fun it => f.passes it && Paging.below KeyListItem.position after it)).mergeSort
    (fun a b => decide (b.position ≤ a.position))

def listKeys (db : Database) (now : Civil) (f : KeyListFilter) (limit : ℤ) (cursor : Bytes) :
    Option (List KeyListItem × Bytes) :=
  (decodeCursor cursor).map fun c =>
    let page := Paging.cut KeyListItem.position (clampLimit limit)
      ((query db now f c).take (clampLimit limit + 1))
    (page.1, (page.2.map fun p => encodeCursor (ofLex p).1 (ofLex p).2).getD [])

end ListKeys

section Handler

inductive Verdict where
  | granted
  | lost
  | unverified
  deriving DecidableEq, Repr

/-- The state of a key as it is shown, and what else is known of it. -/
def effectiveState (it : KeyListItem) (access : Verdict) : Status × List String :=
  if it.kind ≠ .ek then (it.status, [])
  else if it.status = .revoked then (.revoked, [])
  else
    let own := if it.status = .expired then ["expired"]
      else if it.status = .suspended then ["suspended"] else []
    let other := match access with
      | .granted => []
      | .lost => ["no_access"]
      | .unverified => ["access_unverified"]
    if it.status = .active ∧ access = .lost then (.invalid, own ++ other)
    else (it.status, own ++ other)

/-- What the handler reads: the keys at some moment, the teams of a user, and the teams an
Environment is open to. A failed read is `none`. -/
structure Deps where
  db : Database
  now : Civil
  lookupCallerTeams : String → Option (List String)
  getEnvironment : String → Option (Option (List String))

def verdict (d : Deps) (teams : List String) (env : String) : Verdict :=
  match d.getEnvironment env with
  | none => .unverified
  | some none => .lost
  | some (some authorizedTeams) => if hasIntersect authorizedTeams teams then .granted else .lost

/-- The verdicts over a page, one for each Environment. -/
def accessLoop (d : Deps) (teams : List String) :
    List (String × Verdict) → List KeyListItem → List (String × Verdict)
  | out, [] => out
  | out, it :: items =>
    match it.kind, it.environment with
    | .ek, some env =>
      if out.any (fun e => e.1 = env) then accessLoop d teams out items
      else accessLoop d teams (out ++ [(env, verdict d teams env)]) items
    | _, _ => accessLoop d teams out items

def accessByEnvironment (d : Deps) (owner : String) (items : List KeyListItem) :
    List (String × Verdict) :=
  if items.any (fun it => it.kind = .ek && it.environment.isSome) then
    match d.lookupCallerTeams owner with
    | none => (items.filterMap KeyListItem.environment).map (fun env => (env, .unverified))
    | some teams => accessLoop d teams [] items
  else []

def verdictAt (verdicts : List (String × Verdict)) (it : KeyListItem) : Verdict :=
  ((verdicts.find? (fun e => e.1 = it.environment.getD "")).map Prod.snd).getD .granted

structure KeyListRow where
  keyID : KeyID
  kind : Kind
  ownerEmail : String
  environment : String
  name : String
  status : Status
  createdAt : Bytes
  lastUsedAt : Option Bytes
  revokedAt : Option Bytes
  expiresAt : Option Bytes
  reasons : List String
  deriving DecidableEq, Repr

def keyRow (it : KeyListItem) (status : Status) (reasons : List String) : KeyListRow :=
  ⟨it.keyID, it.kind, it.ownerEmail, it.environment.getD "", it.name.getD "", status,
    it.createdAt.formatRFC3339, it.lastUsedAt.map Civil.formatRFC3339,
    it.revokedAt.map Civil.formatRFC3339, it.expiresAt.map Civil.formatRFC3339, reasons⟩

/-- The limit of a request, as it reads as a number. -/
inductive LimitParam where
  | absent
  | malformed
  | number (n : ℤ)
  deriving DecidableEq, Repr

def parseLimit : LimitParam → Except String ℤ
  | .absent => .ok 100
  | .malformed => .error "limit must be an integer"
  | .number n =>
    if n < 1 then .error "limit must be >= 1"
    else if 500 < n then .error "limit must be <= 500"
    else .ok n

structure Query where
  limit : LimitParam
  status : String
  kind : String
  environment : String
  deriving DecidableEq, Repr

def normalizeKeyType (v : String) : Option Kind :=
  if v = "pk" then some .pk else if v = "ek" then some .ek else none

def wantStatus (v : String) : Option Status := Status.all.find? (fun s => s.name = v)

def normalizeKeyStatus (v : String) : Option Status :=
  (wantStatus v).filter (fun s => s ≠ .invalid)

variable [LinearOrder KeyID]

def listAllHandler (d : Deps) (caller : Option KeyContext) (q : Query) (cursor : Bytes) :
    Except ErrResp (List KeyListRow × Bytes) :=
  match caller with
  | none => .error ⟨401, "unauthenticated", "missing key context"⟩
  | some kc =>
    if kc.keyType ≠ .pk then .error ⟨401, "invalid_key_type", "ek_ may not list keys"⟩
    else
      match parseLimit q.limit with
      | .error message => .error ⟨400, "invalid_argument", message⟩
      | .ok limit =>
        if q.status ≠ "" ∧ wantStatus q.status = none then
          .error ⟨400, "invalid_argument", "invalid status filter"⟩
        else
          let f : KeyListFilter := ⟨some kc.ownerEmail, normalizeKeyType q.kind,
            normalizeKeyStatus q.status, q.environment⟩
          match listKeys d.db d.now f limit cursor with
          | none => .error ⟨500, "internal", "list keys failed"⟩
          | some (items, next) =>
            let verdicts := accessByEnvironment d kc.ownerEmail items
            let rows := items.filterMap fun it =>
              let state := effectiveState it (verdictAt verdicts it)
              if (wantStatus q.status).any (fun s => state.1 ≠ s) then none
              else some (keyRow it state.1 state.2)
            .ok (rows, next)

def fetch (d : Deps) (kc : KeyContext) (q : Query) (cursor : Bytes) :
    Option (List KeyListRow × Option Bytes) :=
  match listAllHandler d (some kc) q cursor with
  | .error _ => none
  | .ok (rows, next) => some (rows, if next = [] then none else some next)

end Handler

end AchProofs.Keys.Listing
