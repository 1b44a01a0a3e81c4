import AchProofs.Foundation.GenCounter
import AchProofs.Foundation.Run

namespace AchProofs.Auth

open Foundation

/-- Times are in seconds. The refresh window is at least the hour the configuration enforces. -/
structure Config where
  refreshTTL : ℕ
  accessTTL : ℕ
  hour_le : 3600 ≤ refreshTTL

def dexRefreshTimeout : ℕ := 30

def rotatingTTL : ℕ := 2 * dexRefreshTimeout

def oauthCodeTTL : ℕ := 120

def oauthChainTTL : ℕ := 600

def deviceTTL : ℕ := 600

def oauthPKMinRemaining : ℕ := 7200

def pkSlidingWindow : ℕ := 604800

def Config.sessionGenTTL (cfg : Config) : ℕ := cfg.refreshTTL + rotatingTTL

/-- The records that carry the user's session generation. A device record is an approved one. -/
inductive Body where
  | code (clientID : ℕ)
  | device (clientID : ℕ)
  | refresh (clientID : ℕ)
  | chain (clientID : ℕ)
  | websession (revalidateAt expiresAt : ℕ)

/-- The user a login has stamped, with the number of the login. -/
structure User extends Stamp where
  login : ℕ

def noUser : User := ⟨⟨0, 0⟩, 0⟩

structure Cell where
  body : Body
  user : User
  expires : ℕ

/-- How long after its expiry the stamp of a record may still reach a check of the counter. -/
def Body.slack : Body → ℕ
  | .code _ => rotatingTTL
  | .device _ => rotatingTTL
  | .chain _ => rotatingTTL + oauthCodeTTL + rotatingTTL
  | .refresh _ => 0
  | .websession _ _ => 0

def Cell.goodUntil (cell : Cell) : ℕ := cell.expires + cell.body.slack

/-- How a login ends: a console session, an approved device, a consent chain or a code. A chain, and
a code for a backend with a consent policy, comes after a probe of the backend. -/
inductive Tail where
  | console
  | device (deviceCode clientID : ℕ)
  | chain (clientID : ℕ)
  | code (clientID : ℕ) (probed : Bool)

inductive Caller where
  | token (clientID : ℕ) (presented : Option ℕ)
  | console (sid revalidateAt expiresAt : ℕ)
  | login (tail : Tail)
  | broker (clientID : ℕ)
  | recheck
  | endSessions (revoke : Option ℕ)

/-- Where a request stands: the Redis or database operation it does next. -/
inductive Stage where
  | handBack
  | held
  | dexGet
  | dexAsk
  | refusing
  | refusingRow (keyID : ℕ)
  | issue
  | lookup
  | decide (keyID expiresAt : ℕ)
  | replace (keyID : ℕ)
  | mint
  | answer
  | restore
  | arrived
  | stored
  | ending
  | moved
  | ended
deriving DecidableEq

/-- A request under way: its number, when it started, how often the sessions had been ended by then,
the user of the record it holds and how long that user's stamp is good. -/
structure Thread where
  serial : ℕ
  started : ℕ
  since : ℕ
  caller : Caller
  user : User
  goodUntil : ℕ
  stage : Stage

structure PkRow where
  keyID : ℕ
  expiresAt : ℕ

/-- One user: the session counter, their records in Redis, the expiry of their Dex token, their
active oauth row, their other active personal keys, the requests under way, the number of revokes
answered and that of requests ever started. -/
structure State where
  counter : GenCounter
  store : ℕ → Option Cell
  dexRefresh : Option ℕ
  oauthPK : Option PkRow
  otherPKs : List ℕ
  threads : List Thread
  revoked : ℕ
  arrivals : ℕ

/-- What the world answers to a step: it works (with a fresh id, where one is drawn), LiteLLM has
no such key, Dex denies the user, or it fails. -/
inductive Answer where
  | ok (fresh : ℕ)
  | gone
  | denied
  | fail

inductive Action where
  | present (refreshToken clientID : ℕ)
  | redeem (code clientID : ℕ) (proof : Bool)
  | cookie (sid : ℕ)
  | login (tail : Tail)
  | brokerCallback (chainID : ℕ)
  | platformRefresh
  | endSessions (revoke : Option ℕ)
  | logout (sid : ℕ)
  | useKey
  | wait (d : ℕ)
  | crash (i : ℕ)
  | go (i : ℕ) (answer : Answer)

namespace State

def now (s : State) : ℕ := s.counter.now

def get (s : State) (id : ℕ) : Option Cell :=
  (s.store id).filter (fun cell => s.now < cell.expires)

def put (s : State) (id : ℕ) (body : Body) (user : User) (ttl : ℕ) : State :=
  { s with store := Function.update s.store id (some ⟨body, user, s.now + ttl⟩) }

def del (s : State) (id : ℕ) : State := { s with store := Function.update s.store id none }

def slide (cfg : Config) (s : State) : State :=
  { s with counter := s.counter.slide cfg.sessionGenTTL }

def bump (cfg : Config) (s : State) : State :=
  { s with counter := s.counter.move cfg.sessionGenTTL }

def hasDexRefresh (s : State) : Bool := s.dexRefresh.any (fun expires => s.now < expires)

def revokeOAuthPK (s : State) (keyID : ℕ) : State :=
  { s with oauthPK := s.oauthPK.filter (fun row => row.keyID ≠ keyID) }

def arrival (s : State) (caller : Caller) (user : User) (goodUntil : ℕ) (stage : Stage) : Thread :=
  ⟨s.arrivals, s.now, s.counter.moves, caller, user, goodUntil, stage⟩

def spawn (s : State) (caller : Caller) (user : User) (goodUntil : ℕ) (stage : Stage) : State :=
  { s with
    threads := s.threads ++ [s.arrival caller user goodUntil stage]
    arrivals := s.arrivals + 1 }

end State

abbrev Effect := State × Option Thread

def Thread.at (th : Thread) (stage : Stage) : Thread := { th with stage }

def Thread.passed (cfg : Config) (th : Thread) (stage : Stage) : Thread :=
  { th with goodUntil := th.started + rotatingTTL + cfg.refreshTTL, stage }

def refuse (s : State) (th : Thread) : Effect :=
  match th.caller with
  | .console sid _ _ => (s.del sid, none)
  | _ => (s, none)

/-- The request fails; a refresh token it took is put back, and a login whose probe fails goes on to
its code. -/
def giveUp (s : State) (th : Thread) : Effect :=
  match th.caller with
  | .token _ (some _) => (s, some (th.at .restore))
  | .login (.code _ true) => if th.stage = .answer then (s, none) else (s, some (th.at .answer))
  | _ => (s, none)

/-- The first check of the session, of a refresh grant or a console use. -/
def heldStep (cfg : Config) (s : State) (th : Thread) : Effect :=
  if s.counter.read = th.user.gen then
    match th.caller with
    | .console _ revalidateAt _ =>
      if th.started < revalidateAt then (s.slide cfg, none)
      else (s.slide cfg, some (th.passed cfg .dexGet))
    | _ => (s.slide cfg, some (th.passed cfg .dexGet))
  else refuse (s.slide cfg) th

def dexAskStep (cfg : Config) (s : State) (th : Thread) : Effect :=
  if s.hasDexRefresh then
    let s' := { s with dexRefresh := some (s.now + cfg.refreshTTL) }
    match th.caller with
    | .token _ _ => (s', some (th.at .issue))
    | .console _ _ _ => (s', some (th.at .lookup))
    | _ => (s', none)
  else refuse s th

def issueStep (cfg : Config) (s : State) (th : Thread) : Effect :=
  if s.counter.read = th.user.gen then (s.slide cfg, some (th.passed cfg .lookup))
  else giveUp (s.slide cfg) th

def lookupStep (s : State) (th : Thread) : Effect :=
  match s.oauthPK with
  | some row => (s, some (th.at (.decide row.keyID row.expiresAt)))
  | none => (s, some (th.at .mint))

/-- The partial unique index lets one oauth row be active. -/
def mintStep (s : State) (th : Thread) (fresh : ℕ) : Effect :=
  match s.oauthPK with
  | some _ => giveUp s th
  | none => ({ s with oauthPK := some ⟨fresh, s.now + pkSlidingWindow⟩ }, some (th.at .answer))

def answerStep (cfg : Config) (s : State) (th : Thread) (fresh : ℕ) : State :=
  match th.caller with
  | .token clientID _ => s.put fresh (.refresh clientID) th.user cfg.refreshTTL
  | .console sid _ expiresAt =>
    s.put sid (.websession (th.started + cfg.accessTTL) expiresAt) th.user (expiresAt - th.started)
  | .login .console =>
    s.put fresh (.websession (s.now + cfg.accessTTL) (s.now + cfg.refreshTTL)) th.user
      cfg.refreshTTL
  | .login (.device deviceCode clientID) =>
    if (s.get deviceCode).isSome then s
    else s.put deviceCode (.device clientID) th.user deviceTTL
  | .login (.chain clientID) => s.put fresh (.chain clientID) th.user oauthChainTTL
  | .login (.code clientID _) => s.put fresh (.code clientID) th.user oauthCodeTTL
  | .broker clientID => s.put fresh (.code clientID) th.user oauthCodeTTL
  | _ => s

def restoreStep (cfg : Config) (s : State) (th : Thread) : State :=
  match th.caller with
  | .token clientID (some id) => s.put id (.refresh clientID) th.user cfg.refreshTTL
  | _ => s

/-- What a login does once it has its user: a console login and a probe ensure the key row first. -/
def afterStamp : Caller → Stage
  | .login .console => .lookup
  | .login (.chain _) => .lookup
  | .login (.code _ true) => .lookup
  | _ => .answer

/-- The login reads the counter and stamps its user. -/
def stampStep (cfg : Config) (s : State) (th : Thread) : Effect :=
  (s.slide cfg,
    some ({ th with user := ⟨s.counter.stamp, th.serial⟩ }.passed cfg (afterStamp th.caller)))

/-- The row flip of a revoke: done for an active key, refused for any other. -/
def flipStep (s : State) (keyID : ℕ) : State :=
  if s.oauthPK.any (fun row => row.keyID = keyID) then
    { s.revokeOAuthPK keyID with revoked := s.revoked + 1 }
  else if keyID ∈ s.otherPKs then
    { s with otherPKs := s.otherPKs.erase keyID, revoked := s.revoked + 1 }
  else s

def threadStep (cfg : Config) (s : State) (th : Thread) : Answer → Option Effect
  | .ok fresh =>
    match th.stage with
    | .handBack => some (restoreStep cfg s th, none)
    | .held => some (heldStep cfg s th)
    | .dexGet => some (if s.hasDexRefresh then (s, some (th.at .dexAsk)) else refuse s th)
    | .dexAsk => some (dexAskStep cfg s th)
    | .refusing =>
      match s.oauthPK with
      | some row => some (s, some (th.at (.refusingRow row.keyID)))
      | none => some (refuse s th)
    | .refusingRow keyID => some (refuse (s.revokeOAuthPK keyID) th)
    | .issue => some (issueStep cfg s th)
    | .lookup => some (lookupStep s th)
    | .decide keyID expiresAt =>
      if s.now + oauthPKMinRemaining < expiresAt then some (s, some (th.at .answer))
      else some (s, some (th.at (.replace keyID)))
    | .replace keyID => some (s.revokeOAuthPK keyID, some (th.at .mint))
    | .mint => some (mintStep s th fresh)
    | .answer => if (s.store fresh).isNone then some (answerStep cfg s th fresh, none) else none
    | .restore => some (restoreStep cfg s th, none)
    | .arrived =>
      some ({ s with dexRefresh := some (s.now + cfg.refreshTTL) }, some (th.at .stored))
    | .stored => some (stampStep cfg s th)
    | .ending => some (s.bump cfg, some (th.at .moved))
    | .moved => some ({ s with dexRefresh := none }, some (th.at .ended))
    | .ended =>
      match th.caller with
      | .endSessions (some keyID) => some (flipStep s keyID, none)
      | _ => some (s, none)
  | .gone =>
    match th.stage with
    | .decide keyID _ => some (s, some (th.at (.replace keyID)))
    | _ => none
  | .denied =>
    match th.stage with
    | .dexAsk => some ({ s with dexRefresh := none }, some (th.at .refusing))
    | _ => none
  | .fail =>
    match th.stage with
    | .held =>
      match th.caller with
      | .token _ _ => some (s, some (th.at .handBack))
      | _ => some (s, none)
    | .handBack => some (s, none)
    | .restore => some (s, none)
    | .refusing => some (refuse s th)
    | .refusingRow _ => some (refuse s th)
    | .ending => some (s, some (th.at .moved))
    | .moved => some (s, some (th.at .ended))
    | .arrived => some (s, none)
    | .stored => some (s, none)
    | .ended => some (s, none)
    | _ => some (giveUp s th)

def State.settle (s : State) (i : ℕ) (e : Effect) : State :=
  match e.2 with
  | some th => { e.1 with threads := s.threads.set i th }
  | none => { e.1 with threads := s.threads.eraseIdx i }

def takeStep (s : State) (id : ℕ) (cell : Cell) (caller : Caller) (stage : Stage) : State :=
  (s.del id).spawn caller cell.user cell.goodUntil stage

def redeemStep (s : State) (id clientID : ℕ) (proof : Bool) (cell : Cell) : State :=
  match cell.body with
  | .code c =>
    if c = clientID ∧ proof then takeStep s id cell (.token c none) .issue else s.del id
  | .device c => if c = clientID then takeStep s id cell (.token c none) .issue else s
  | _ => s

def step (cfg : Config) (s : State) : Action → Option State
  | .present id clientID =>
    match s.get id with
    | some cell =>
      match cell.body with
      | .refresh c =>
        some (takeStep s id cell (.token c (some id)) (if c = clientID then .held else .handBack))
      | _ => some s
    | none => some s
  | .redeem id clientID proof =>
    match s.get id with
    | some cell => some (redeemStep s id clientID proof cell)
    | none => some s
  | .cookie sid =>
    match s.get sid with
    | some cell =>
      match cell.body with
      | .websession revalidateAt expiresAt =>
        if s.now < expiresAt then
          some (s.spawn (.console sid revalidateAt expiresAt) cell.user cell.goodUntil .held)
        else some (s.del sid)
      | _ => some s
    | none => some s
  | .login tail => some (s.spawn (.login tail) noUser 0 .arrived)
  | .brokerCallback id =>
    match s.get id with
    | some cell =>
      match cell.body with
      | .chain c => some (takeStep s id cell (.broker c) .lookup)
      | _ => some s
    | none => some s
  | .platformRefresh => some (s.spawn .recheck noUser 0 .dexGet)
  | .endSessions key => some (s.spawn (.endSessions key) noUser 0 .ending)
  | .logout sid => some (s.del sid)
  | .useKey =>
    some { s with
      oauthPK := s.oauthPK.map (fun row => { row with expiresAt := s.now + pkSlidingWindow }) }
  | .wait d => some { s with counter := s.counter.wait d }
  | .crash i => some { s with threads := s.threads.eraseIdx i }
  | .go i answer =>
    match s.threads[i]? with
    | some th => (threadStep cfg s th answer).map (s.settle i)
    | none => none

end AchProofs.Auth
