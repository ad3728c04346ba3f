import WaveDb.Lib.Runs

-- Token pairs bound to a session record. The calls are cut at their database
-- operations.
namespace WaveDb.Auth

open WaveDb.Lib

section Tokens

inductive TokenPurpose
  | access
  | refresh
  deriving DecidableEq, Repr

structure AccessClaims where
  user : Nat
  tenant : Nat
  expiresAt : Nat
  purpose : TokenPurpose
  session : Nat
  nonce : Nat
  deriving DecidableEq, Repr

-- A MAC cannot be made without the secret, so bytes that verify are the signed
-- form of their claims.
inductive Token
  | signed (claims : AccessClaims)
  | forged
  deriving DecidableEq, Repr

inductive TokenError
  | badSignature
  | expired
  | wrongPurpose
  deriving DecidableEq, Repr

def verify (token : Token) (now : Nat) (purpose : TokenPurpose) : Except TokenError AccessClaims :=
  match token with
  | .forged => .error .badSignature
  | .signed claims =>
    if claims.expiresAt ≤ now then .error .expired
    else if claims.purpose ≠ purpose then .error .wrongPurpose
    else .ok claims

structure TokenPair where
  access : Token
  refresh : Token
  deriving DecidableEq, Repr

def accessTtlSecs : Nat := 15 * 60

def refreshTtlSecs : Nat := 30 * 24 * 60 * 60

-- `signings` is how often the process has signed; the counter has 64 bits.
def signPair (tenant user session now signings : Nat) : TokenPair :=
  let nonce := signings % 2 ^ 64
  ⟨.signed ⟨user, tenant, now + accessTtlSecs, .access, session, nonce⟩,
    .signed ⟨user, tenant, now + refreshTtlSecs, .refresh, session, nonce⟩⟩

-- The hash stands for the token it is the hash of, and `none` for no bytes.
structure AuthSession where
  user : Nat
  refreshHash : Option Token
  issued : Nat
  revoked : Bool
  deriving DecidableEq, Repr

end Tokens

section Calls

inductive Call
  | issuePair (user : Nat)
  | refreshPair (refresh : Token)
  | revoke (refresh : Token)
  deriving DecidableEq

inductive Task
  | issue (user : Nat)
  | refresh (token : Token) (claims : AccessClaims)
  | revoke (claims : AccessClaims)
  deriving DecidableEq

inductive Reply
  | pair (pair : TokenPair)
  | unauthorized
  | done
  | failed
  deriving DecidableEq

-- The operation a call is about to make. The first three are `ensure_sessions`,
-- `body` is the insert of an issue and the get of the other two. `seen` is the
-- record the call has inserted or read.
inductive Progress
  | getAnchor (task : Task)
  | createPivot (task : Task)
  | saveAnchor (task : Task) (pivot : Nat)
  | body (task : Task)
  | save (task : Task) (id : Nat) (seen value : AuthSession) (reply : Reply)
  | returned (reply : Reply)
  deriving DecidableEq

-- A refresh that returned a pair, and a session that was committed as revoked.
inductive Event
  | refreshed (session : Nat) (token : Token)
  | revoked (session : Nat)
  deriving DecidableEq

-- One tenant's store with the calls at work. `issued` are the refresh tokens returned.
structure Node where
  tenant : Nat
  anchor : Option Nat
  pivots : Nat
  sessions : Nat → Option AuthSession
  signings : Nat
  calls : Nat → Option Progress
  started : Nat
  issued : List Token
  history : List Event

def Node.new (tenant : Nat) : Node where
  tenant := tenant
  anchor := none
  pivots := 0
  sessions _ := none
  signings := 0
  calls _ := none
  started := 0
  issued := []
  history := []

namespace Node

def start (s : Node) (now : Nat) : Call → Progress
  | .issuePair user => .getAnchor (.issue user)
  | .refreshPair refresh =>
    match verify refresh now .refresh with
    | .error _ => .returned .unauthorized
    | .ok claims =>
      if claims.tenant ≠ s.tenant then .returned .unauthorized
      else .getAnchor (.refresh refresh claims)
  | .revoke refresh =>
    match verify refresh now .refresh with
    | .error _ => .returned .done
    | .ok claims => .getAnchor (.revoke claims)

-- The record `issue_pair` inserts before it has a token.
def opened (user now : Nat) : AuthSession := ⟨user, none, now, false⟩

def writes (s : Node) (id : Nat) (value : AuthSession) : Node :=
  { s with
    sessions := Function.update s.sessions id (some value)
    history := s.history ++ if value.revoked then [.revoked id] else [] }

-- What the operation leaves in the store. `id` is the one an insert gets.
def effect (s : Node) (now id : Nat) : Progress → Node
  | .createPivot _ => { s with pivots := s.pivots + 1 }
  | .saveAnchor _ pivot => { s with anchor := some pivot }
  | .body (.issue user) => s.writes id (opened user now)
  | .save _ session _ value _ => s.writes session value
  | _ => s

def refreshes (s : Node) (now : Nat) (token : Token) (claims : AccessClaims) :
    Option AuthSession → Progress
  | none => .returned .unauthorized
  | some session =>
    if session.revoked then .returned .unauthorized
    else if session.refreshHash ≠ some token then
      .save (.refresh token claims) claims.session session { session with revoked := true } .unauthorized
    else
      let pair := signPair s.tenant claims.user claims.session now s.signings
      .save (.refresh token claims) claims.session session { session with refreshHash := some pair.refresh }
        (.pair pair)

def revokes (claims : AccessClaims) : Option AuthSession → Progress
  | none => .returned .done
  | some session =>
    if session.revoked then .returned .done
    else .save (.revoke claims) claims.session session { session with revoked := true } .done

def binds (s : Node) (now later user id : Nat) : Progress :=
  let pair := signPair s.tenant user id later s.signings
  .save (.issue user) id (opened user now) ⟨user, some pair.refresh, later, false⟩ (.pair pair)

def next (s : Node) (now later id : Nat) : Progress → Progress
  | .getAnchor task => if s.anchor.isSome then .body task else .createPivot task
  | .createPivot task => .saveAnchor task s.pivots
  | .saveAnchor task _ => .body task
  | .body (.issue user) => s.binds now later user id
  | .body (.refresh token claims) => s.refreshes later token claims (s.sessions claims.session)
  | .body (.revoke claims) => revokes claims (s.sessions claims.session)
  | .save _ _ _ _ reply => .returned reply
  | .returned reply => .returned reply

def signs : Progress → Bool
  | .save _ _ _ _ (.pair _) => true
  | _ => false

def setCall (s : Node) (i : Nat) (p : Progress) : Node :=
  { s with calls := Function.update s.calls i (some p) }

-- A pair that is returned. Only the refresh token of it is ever presented here.
def returns (s : Node) : Progress → Node
  | .save (.refresh token _) session _ _ (.pair pair) => { s with
      issued := s.issued ++ [pair.refresh], history := s.history ++ [.refreshed session token] }
  | .save _ _ _ _ (.pair pair) => { s with issued := s.issued ++ [pair.refresh] }
  | _ => s

def operate (s : Node) (i now later id : Nat) (p : Progress) : Node :=
  let s' := ((s.effect now id p).returns p).setCall i (s.next now later id p)
  { s' with signings := if signs (s.next now later id p) then s.signings + 1 else s.signings }

end Node

def Call.Known (s : Node) : Call → Prop
  | .issuePair _ => True
  | .refreshPair token => token = .forged ∨ token ∈ s.issued
  | .revoke token => token = .forged ∨ token ∈ s.issued

inductive Action
  | call (call : Call)
  | operate (call : Nat)
  | fault (call : Nat) (landed : Bool)

def Progress.Running : Progress → Prop
  | .returned _ => False
  | _ => True

-- The operations of the calls in any order. One that faults may have landed.
inductive Step : Node → Action → Node → Prop
  | call {s : Node} {call : Call} {now : Nat} (known : call.Known s) :
      Step s (.call call) { s.setCall s.started (s.start now call) with started := s.started + 1 }
  | operate {s : Node} {i now later id : Nat} {p : Progress} (stands : s.calls i = some p) (running : p.Running)
      (fresh : s.sessions id = none) : Step s (.operate i) (s.operate i now later id p)
  | fault {s : Node} {i now id : Nat} {p : Progress} {landed : Bool} (stands : s.calls i = some p)
      (running : p.Running) (fresh : s.sessions id = none) :
      Step s (.fault i landed) ((if landed then s.effect now id p else s).setCall i (.returned .failed))

end Calls

end WaveDb.Auth
