import AchProofs.Foundation.Run

namespace AchProofs.Auth.Grants

/-- What a token pair is handed out for, by its random id. -/
inductive Token
  | code (id : ℕ)
  | device (id : ℕ)
  | refresh (id : ℕ)
  deriving DecidableEq, Repr

inductive DeviceStatus
  | pending
  | approved
  | denied
  deriving DecidableEq, Repr

/-- A record of the OAuth store, with the client it belongs to. -/
inductive Rec
  | code (clientID : ℕ)
  | device (clientID : ℕ) (status : DeviceStatus)
  | refresh (clientID : ℕ)
  deriving DecidableEq, Repr

/-- Where a request stands: the operation it does next. -/
inductive Stage
  | takeCode (id : ℕ) (proof : Bool)
  | getDevice (id : ℕ)
  | delDevice (id : ℕ)
  | takeDevice (id : ℕ)
  | takeRefresh (id : ℕ)
  | held (id : ℕ) (rf : Rec)
  | issue (token : Token) (rec : Rec)
  | restore (id : ℕ) (rf : Rec)
  | getFinish (id : ℕ) (approve : Bool)
  | putFinish (id clientID : ℕ) (approve : Bool)
  deriving DecidableEq, Repr

structure Thread where
  clientID : ℕ
  stage : Stage
  deriving DecidableEq, Repr

/-- The store and the requests under way; and what has happened: the ids drawn, the client each
refresh token was issued to, the pairs handed out and what for, the devices denied and approved, the
refresh tokens the identity provider refused, and the records that ran out. -/
structure State where
  store : Token → Option Rec
  threads : List Thread
  born : List Token
  owner : ℕ → ℕ
  pairs : List Token
  denied : List ℕ
  approved : List ℕ
  refused : List ℕ
  expired : List Token

/-- What the world answers to an operation: it works (with a fresh id, where one is drawn), it fails
and has no effect, it has its effect but the reply is lost, or the identity provider refuses. -/
inductive Answer
  | ok (fresh : ℕ)
  | fail
  | lost (fresh : ℕ)
  | refused
  deriving DecidableEq, Repr

inductive Act
  | newCode (id clientID : ℕ)
  | newDevice (id clientID : ℕ)
  | redeemCode (id clientID : ℕ) (proof : Bool)
  | pollDevice (id clientID : ℕ)
  | refreshGrant (id clientID : ℕ)
  | finishDevice (id : ℕ) (approve : Bool)
  | go (i : ℕ) (answer : Answer)
  | crash (i : ℕ)
  | expire (token : Token)
  deriving DecidableEq, Repr

namespace State

def put (s : State) (token : Token) (rec : Rec) : State :=
  { s with store := Function.update s.store token (some rec) }

def del (s : State) (token : Token) : State :=
  { s with store := Function.update s.store token none }

def bear (s : State) (token : Token) (rec : Rec) : State :=
  { s.put token rec with born := token :: s.born }

def grant (s : State) (fresh clientID : ℕ) : State :=
  { s.bear (.refresh fresh) (.refresh clientID) with
    owner := Function.update s.owner fresh clientID }

theorem put_store (s : State) (token : Token) (rec : Rec) :
    (s.put token rec).store = Function.update s.store token (some rec) := rfl

theorem del_store (s : State) (token : Token) :
    (s.del token).store = Function.update s.store token none := rfl

theorem grant_store (s : State) (fresh clientID : ℕ) : (s.grant fresh clientID).store =
    Function.update s.store (.refresh fresh) (some (.refresh clientID)) := rfl

theorem grant_owner (s : State) (fresh clientID : ℕ) :
    (s.grant fresh clientID).owner = Function.update s.owner fresh clientID := rfl

theorem bear_store (s : State) (token : Token) (rec : Rec) :
    (s.bear token rec).store = Function.update s.store token (some rec) := rfl

end State

def Answer.works : Answer → Bool
  | .ok _ => true
  | _ => false

def Answer.lands : Answer → Bool
  | .ok _ => true
  | .lost _ => true
  | _ => false

/-- After an error the refresh grant puts its token back, the others are over. -/
def giveUp : Token → Rec → Option Stage
  | .refresh id, rec => some (.restore id rec)
  | _, _ => none

def decided (approve : Bool) : DeviceStatus := if approve then .approved else .denied

/-- `issue`: the new refresh token is stored and the pair goes out. -/
def issueStep (s : State) (clientID : ℕ) (token : Token) (rec : Rec) :
    Answer → Option (State × Option Stage)
  | .ok fresh =>
    if .refresh fresh ∈ s.born then none
    else some ({ s.grant fresh clientID with pairs := token :: s.pairs }, none)
  | .lost fresh =>
    if .refresh fresh ∈ s.born then none
    else some (s.grant fresh clientID, giveUp token rec)
  | _ => some (s, giveUp token rec)

def threadStep (s : State) (th : Thread) (answer : Answer) : Option (State × Option Stage) :=
  match th.stage with
  | .takeCode id proof =>
    if !answer.lands then some (s, none)
    else if !answer.works then some (s.del (.code id), none)
    else
      match s.store (.code id) with
      | some (.code clientID) =>
        if clientID = th.clientID ∧ proof then
          some (s.del (.code id), some (.issue (.code id) (.code clientID)))
        else some (s.del (.code id), none)
      | _ => some (s.del (.code id), none)
  | .getDevice id =>
    if !answer.works then some (s, none)
    else
      match s.store (.device id) with
      | some (.device clientID status) =>
        if clientID ≠ th.clientID then some (s, none)
        else
          match status with
          | .pending => some (s, none)
          | .denied => some (s, some (.delDevice id))
          | .approved => some (s, some (.takeDevice id))
      | _ => some (s, none)
  | .delDevice id => some (if answer.lands then s.del (.device id) else s, none)
  | .takeDevice id =>
    if !answer.lands then some (s, none)
    else if !answer.works then some (s.del (.device id), none)
    else
      match s.store (.device id) with
      | some rec => some (s.del (.device id), some (.issue (.device id) rec))
      | none => some (s, none)
  | .takeRefresh id =>
    if !answer.lands then some (s, none)
    else if !answer.works then some (s.del (.refresh id), none)
    else
      match s.store (.refresh id) with
      | some rec => some (s.del (.refresh id), some (.held id rec))
      | none => some (s, none)
  | .held id rec =>
    if rec ≠ .refresh th.clientID then some (s, some (.restore id rec))
    else
      -- the session check, and the identity provider
      match answer with
      | .ok _ => some (s, some (.issue (.refresh id) rec))
      | .refused => some ({ s with refused := id :: s.refused }, none)
      | _ => some (s, some (.restore id rec))
  | .issue token rec => issueStep s th.clientID token rec answer
  | .restore id rec => some (if answer.lands then s.put (.refresh id) rec else s, none)
  | .getFinish id approve =>
    if !answer.works then some (s, none)
    else
      match s.store (.device id) with
      | some (.device clientID .pending) => some (s, some (.putFinish id clientID approve))
      | _ => some (s, none)
  | .putFinish id clientID approve =>
    if !answer.lands then some (s, none)
    else
      let s := s.put (.device id) (.device clientID (decided approve))
      if approve then some ({ s with approved := id :: s.approved }, none)
      else some ({ s with denied := id :: s.denied }, none)

def replaceAt (threads : List Thread) (i : ℕ) (new : List Thread) : List Thread :=
  threads.take i ++ new ++ threads.drop (i + 1)

def spawn (s : State) (th : Thread) : State := { s with threads := s.threads ++ [th] }

def goStep (s : State) (i : ℕ) (th : Thread) (answer : Answer) : Option State :=
  (threadStep s th answer).map fun r =>
    { r.1 with threads := replaceAt s.threads i (r.2.map (Thread.mk th.clientID)).toList }

def step (s : State) : Act → Option State
  | .newCode id clientID =>
    if .code id ∈ s.born then none else some (s.bear (.code id) (.code clientID))
  | .newDevice id clientID =>
    if .device id ∈ s.born then none else some (s.bear (.device id) (.device clientID .pending))
  | .redeemCode id clientID proof => some (spawn s ⟨clientID, .takeCode id proof⟩)
  | .pollDevice id clientID => some (spawn s ⟨clientID, .getDevice id⟩)
  | .refreshGrant id clientID => some (spawn s ⟨clientID, .takeRefresh id⟩)
  | .finishDevice id approve => some (spawn s ⟨0, .getFinish id approve⟩)
  | .go i answer => (s.threads[i]?).bind (fun th => goStep s i th answer)
  | .crash i => (s.threads[i]?).map (fun _ => { s with threads := replaceAt s.threads i [] })
  | .expire token => some { s.del token with expired := token :: s.expired }

def start : State := ⟨fun _ => none, [], [], fun _ => 0, [], [], [], [], []⟩

end AchProofs.Auth.Grants
