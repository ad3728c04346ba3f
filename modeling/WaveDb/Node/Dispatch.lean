import WaveDb.Auth.Session
import WaveDb.Net.Frame

-- How a node answers a request: the gates, the declared registry and the socket
-- session.
namespace WaveDb.Node

open WaveDb.Core WaveDb.Net

abbrev Bytes := List UInt8

section Errors

inductive NodeErrorKind
  | unknownStructHash
  | wire
  | pivotMissing
  | recordMissing
  | bpTreeNodeMissing
  | bpTreeNodeBadTag
  | laneBadTag
  | chainNodeMissing
  | secondaryIndexOutOfRange
  | u48Overflow
  | backend
  | unauthorized
  | conflict
  | chainCorrupt
  | keyMismatch
  | listOutOfRange
  | fuzzyOutOfRange
  | identityMismatch
  deriving DecidableEq, Repr

structure CoreError where
  kind : NodeErrorKind
  message : String
  deriving DecidableEq, Repr

-- As the format `#018x` prints a hash.
def hexOf (n : Nat) : String :=
  let digits := Nat.toDigits 16 n
  "0x" ++ String.ofList (List.replicate (16 - digits.length) '0' ++ digits)

namespace CoreError

def unauthorized (message : String) : CoreError := ⟨.unauthorized, "unauthorized: " ++ message⟩

def unknownStructHash (structHash : Nat) : CoreError :=
  ⟨.unknownStructHash, "unknown struct hash " ++ hexOf structHash⟩

def identityMismatch (user tenant : Nat) : CoreError :=
  ⟨.identityMismatch, "identity mismatch: user U48(" ++ toString user ++ ") under tenant U48(" ++
    toString tenant ++ ") (one user per tenant)"⟩

def backend (message : String) : CoreError := ⟨.backend, "storage backend: " ++ message⟩

end CoreError

structure NodeError where
  kind : NodeErrorKind
  structHash : Nat
  message : String
  deriving DecidableEq, Repr

def NodeError.fromCore (structHash : Nat) (err : CoreError) : NodeError := ⟨err.kind, structHash, err.message⟩

end Errors

section Registry

inductive Command
  | get
  | save
  | insert
  | update
  | remove
  | all
  | history
  | changes
  | listed
  | listLen
  deriving DecidableEq, Repr

inductive Reply
  | value (body : Option Bytes)
  | inserted (id : Id)
  | removed (living : Bool)
  | done
  | values (bodies : List Bytes)
  | returned (value : Bytes)
  | count (n : Nat)
  deriving DecidableEq

structure Caller where
  user : Nat
  tenant : Nat
  deriving DecidableEq, Repr

def u48Max : Nat := 2 ^ 48 - 1

def Caller.anonymous (tenant : Nat) : Caller := ⟨u48Max, tenant⟩

def Caller.isAnonymous (caller : Caller) : Bool := caller.user == u48Max

abbrev Step (S : Type) := S → Caller → Bytes → Except CoreError Reply × S

variable {S : Type}

-- The skeleton of every generated step: the tier, and one user for each tenant.
def opFn (body : Step S) : Step S := fun store caller payload =>
  if caller.isAnonymous then (.error (.unauthorized "login required"), store)
  else if caller.user ≠ caller.tenant then (.error (.identityMismatch caller.user caller.tenant), store)
  else body store caller payload

inductive Op (S : Type)
  | generated (body : Step S)
  | overridden (target : Step S)
  | never

-- A `#[server]` function. `body` decodes the arguments, runs the function and
-- wires what it returns.
structure ServerFn (S : Type) where
  isPublic : Bool
  body : Step S

inductive Entry (S : Type)
  | struct (hash : Nat) (ops : Command → Op S)
  | fn (hash : Nat) (f : ServerFn S)
  | store (hash : Nat)

abbrev Registry (S : Type) := List (Entry S)

def opCall (hash : Nat) : Op S → Step S
  | .generated body => opFn body
  | .overridden target => target
  | .never => fun store _ _ => (.error (.unknownStructHash hash), store)

def ServerFn.dispatch (f : ServerFn S) : Step S := fun store caller payload =>
  if !f.isPublic && caller.isAnonymous then (.error (.unauthorized "login required"), store)
  else f.body store caller payload

-- The hash by which an entry is reached. A storage-only one has none.
def Entry.wireHash : Entry S → Option Nat
  | .struct hash _ => some hash
  | .fn hash _ => some hash
  | .store _ => none

def Registry.find (registry : Registry S) (hash : Nat) : Option (Entry S) :=
  List.find? (fun e => e.wireHash == some hash) registry

def Registry.knows (registry : Registry S) (hash : Nat) : Bool := (registry.find hash).isSome

def Entry.execute (command : Command) : Entry S → Step S
  | .struct hash ops => opCall hash (ops command)
  | .fn _ f => f.dispatch
  | .store hash => fun store _ _ => (.error (.unknownStructHash hash), store)

def Registry.execute (registry : Registry S) (store : S) (caller : Caller) (hash : Nat) (command : Command)
    (payload : Bytes) : Except CoreError Reply × S :=
  match registry.find hash with
  | some e => e.execute command store caller payload
  | none => (.error (.unknownStructHash hash), store)

end Registry

section Requests

inductive Auth
  | anonymous (tenant : Nat)
  | token (token : Auth.Token)

structure CommandFrame where
  structHash : Nat
  command : Command
  payload : Bytes

structure TopicCursor where
  topic : Topic
  since : Option Nat

structure Request where
  auth : Auth
  frame : CommandFrame
  sync : List TopicCursor

inductive Response
  | ok (reply : Reply)
  | err (err : NodeError)

structure Answer where
  response : Response
  sync : Option Bytes

inductive Change
  | cursor (instant : Nat)
  | saved (id : Id) (info : Metadata) (body : Bytes)
  | removed (id : Id) (instant : Nat)

structure SyncReply where
  events : List (RecordEvent Bytes)
  cursors : List (Topic × Nat)

structure Codec where
  syncRequest : Bytes → Except CoreError (List TopicCursor)
  changesQuery : Option LocalId → Option Nat → Bytes
  change : Bytes → Except CoreError Change
  syncReply : SyncReply → Bytes

def syncStructHash : Nat := 0x434e59532e424457

variable {S : Type}

def unauthorized (structHash : Nat) : Response := .err ⟨.unauthorized, structHash, "unauthorized"⟩

def identify (now : Nat) : Auth → Option Caller
  | .anonymous tenant => some (.anonymous tenant)
  | .token token =>
    match Auth.verify token now .access with
    | .ok claims => some ⟨claims.user, claims.tenant⟩
    | .error _ => none

def respond (structHash : Nat) : Except CoreError Reply → Response
  | .ok reply => .ok reply
  | .error err => .err (.fromCore structHash err)

-- Gates 2 and 3.
def execute (registry : Registry S) (store : S) (caller : Caller) (frame : CommandFrame) : Response × S :=
  if !registry.knows frame.structHash then
    (.err (.fromCore frame.structHash (.unknownStructHash frame.structHash)), store)
  else
    let outcome := registry.execute store caller frame.structHash frame.command frame.payload
    (respond frame.structHash outcome.1, outcome.2)

-- The entries of one topic, up to the first that does not decode.
def gather (codec : Codec) (topic : Topic) : SyncReply → List Bytes → Except CoreError SyncReply
  | reply, [] => .ok reply
  | reply, entry :: entries =>
    match codec.change entry with
    | .error err => .error err
    | .ok (.cursor instant) =>
      gather codec topic { reply with cursors := reply.cursors ++ [(topic, instant)] } entries
    | .ok (.saved id info body) =>
      gather codec topic { reply with
        events := reply.events ++ [⟨topic, id, .saved, some info, body⟩] } entries
    | .ok (.removed id instant) =>
      gather codec topic { reply with
        events := reply.events ++ [⟨topic, id, .removed instant, none, []⟩] } entries

def navigateLoop (codec : Codec) (registry : Registry S) (caller : Caller) :
    S → SyncReply → List TopicCursor → Response × S
  | store, reply, [] => (.ok (.returned (codec.syncReply reply)), store)
  | store, reply, declared :: topics =>
    let hash := declared.topic.structHash
    let outcome := registry.execute store caller hash .changes
      (codec.changesQuery declared.topic.pivot declared.since)
    match outcome.1 with
    | .ok (.values entries) =>
      match gather codec declared.topic reply entries with
      | .ok reply => navigateLoop codec registry caller outcome.2 reply topics
      | .error err => (.err (.fromCore hash err), outcome.2)
    | .ok _ =>
      (.err (.fromCore hash (.backend "changes answered with a non-values reply")), outcome.2)
    | .error err => (.err (.fromCore hash err), outcome.2)

def navigate (codec : Codec) (registry : Registry S) (store : S) (caller : Caller)
    (topics : List TopicCursor) : Response × S :=
  navigateLoop codec registry caller store ⟨[], []⟩ topics

def syncPoll (codec : Codec) (registry : Registry S) (store : S) (caller : Caller) (payload : Bytes) :
    Response × S :=
  if caller.isAnonymous then (unauthorized syncStructHash, store)
  else
    match codec.syncRequest payload with
    | .error err => (.err (.fromCore syncStructHash err), store)
    | .ok topics => navigate codec registry store caller topics

def piggyback (codec : Codec) (registry : Registry S) (store : S) (caller : Caller)
    (topics : List TopicCursor) : Option Bytes × S :=
  if topics.isEmpty then (none, store)
  else
    let outcome := navigate codec registry store caller topics
    match outcome.1 with
    | .ok (.returned bytes) => (some bytes, outcome.2)
    | _ => (none, outcome.2)

def handle (codec : Codec) (registry : Registry S) (now : Nat) (store : S) (request : Request) : Answer × S :=
  match identify now request.auth with
  | none => (⟨unauthorized request.frame.structHash, none⟩, store)
  | some caller =>
    if request.frame.structHash = syncStructHash then
      let polled := syncPoll codec registry store caller request.frame.payload
      (⟨polled.1, none⟩, polled.2)
    else
      let executed := execute registry store caller request.frame
      let delta := piggyback codec registry executed.2 caller request.sync
      (⟨executed.1, delta.1⟩, delta.2)

end Requests

section Socket

variable {S : Type}

-- What reaches the session loop: a message, a ping, and an event that the
-- subscription table sends to the connections that have its topic.
inductive Incoming
  | hello (auth : Auth)
  | call (frame : CommandFrame)
  | subscribe (topic : Topic)
  | unsubscribe (topic : Topic)
  | ping (payload : Bytes)
  | event (e : RecordEvent Bytes)

inductive Outgoing
  | helloOk
  | reply (response : Response)
  | topicOk (topic : Topic) (tail : Nat)
  | event (e : RecordEvent Bytes)
  | pong (payload : Bytes)
  | close

def topicTail (codec : Codec) (registry : Registry S) (store : S) (caller : Caller) (topic : Topic) : Nat × S :=
  let outcome := registry.execute store caller topic.structHash .changes (codec.changesQuery topic.pivot none)
  match outcome.1 with
  | .ok (.values (entry :: _)) =>
    match codec.change entry with
    | .ok (.cursor cursor) => (cursor, outcome.2)
    | _ => (0, outcome.2)
  | _ => (0, outcome.2)

-- A session after its `Hello`. `none` in the place of the topics is the end.
def handleClient (codec : Codec) (registry : Registry S) (caller : Caller) (store : S) (topics : Finset Topic) :
    Incoming → List Outgoing × Option (Finset Topic) × S
  | .ping payload => ([.pong payload], some topics, store)
  | .call frame =>
    let executed := execute registry store caller frame
    ([.reply executed.1], some topics, executed.2)
  | .subscribe topic =>
    if caller.isAnonymous then ([.close], none, store)
    else
      let tail := topicTail codec registry store caller topic
      ([.topicOk topic tail.1], some (insert topic topics), tail.2)
  | .unsubscribe topic => ([.topicOk topic 0], some (topics.erase topic), store)
  | .hello _ => ([.close], none, store)
  | .event e => (if e.topic ∈ topics then [.event e] else [], some topics, store)

def sessionLoop (codec : Codec) (registry : Registry S) (caller : Caller) :
    S → Finset Topic → List Incoming → List Outgoing × S
  | store, _, [] => ([], store)
  | store, topics, item :: items =>
    let handled := handleClient codec registry caller store topics item
    match handled.2.1 with
    | none => (handled.1, handled.2.2)
    | some topics =>
      let rest := sessionLoop codec registry caller handled.2.2 topics items
      (handled.1 ++ rest.1, rest.2)

-- A connection: the first message must be a `Hello` that verifies.
def serve (codec : Codec) (registry : Registry S) (now : Nat) (store : S) :
    List Incoming → List Outgoing × S
  | .hello auth :: items =>
    match identify now auth with
    | none => ([.close], store)
    | some caller =>
      let session := sessionLoop codec registry caller store ∅ items
      (.helloOk :: session.1, session.2)
  | _ => ([.close], store)

end Socket

end WaveDb.Node
