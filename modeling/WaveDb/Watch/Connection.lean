import WaveDb.Lib.Runs
import WaveDb.Net.Frame

-- One WebSocket connection with the watches of one identity on it: the client's
-- actor, the node's session, and the messages between them.
namespace WaveDb.Watch

open WaveDb.Lib WaveDb.Core WaveDb.Net

variable {B : Type}

section Client

-- `pending` are the watches that wait for their acknowledgement.
structure TopicState where
  live : Bool := false
  subs : List Nat := []
  pending : List Nat := []
  cursor : Option Nat := none

-- `inbox` is the channel of each watch, and `closed` the watches that have
-- dropped their end of it. The watches acknowledged and the cursor that each
-- watch starts from are histories.
structure Client (B : Type) where
  topics : Topic → Option TopicState
  inbox : Nat → List (RecordEvent B)
  closed : List Nat
  acked : List (Nat × Topic)
  since : Nat → Option Nat

namespace Client

def setTopic (c : Client B) (topic : Topic) (state : Option TopicState) : Client B :=
  { c with topics := Function.update c.topics topic state }

def joins (c : Client B) (watch : Nat) (state : TopicState) : Client B :=
  { c with since := Function.update c.since watch state.cursor }

-- `handle_cmd` for a subscribe: the new state and what is sent.
def subscribe (c : Client B) (topic : Topic) (watch : Nat) : Client B × List ClientMsg :=
  let state := (c.topics topic).getD {}
  let c := c.joins watch state
  let state := { state with subs := state.subs ++ [watch] }
  if state.live then
    ({ c.setTopic topic (some state) with acked := c.acked ++ [(watch, topic)] }, [])
  else
    (c.setTopic topic (some { state with pending := state.pending ++ [watch] }),
      if state.pending.isEmpty then [.subscribe topic] else [])

def unsubscribe (c : Client B) (topic : Topic) (watch : Nat) : Client B × List ClientMsg :=
  match c.topics topic with
  | none => (c, [])
  | some state =>
    let state := { state with subs := state.subs.filter (· ≠ watch) }
    if state.subs.isEmpty && state.pending.isEmpty then
      (c.setTopic topic none, [.unsubscribe topic])
    else (c.setTopic topic (some state), [])

def ackTopic (c : Client B) (topic : Topic) (tail : Nat) : Client B :=
  match c.topics topic with
  | none => c
  | some state =>
    let cursor := state.cursor.getD tail
    { c.setTopic topic (some { state with live := true, cursor := some cursor, pending := [] }) with
      acked := c.acked ++ state.pending.map fun watch => (watch, topic)
      since := fun watch => if watch ∈ state.subs then (c.since watch).or (some cursor) else c.since watch }

def fanOut (c : Client B) (e : RecordEvent B) (state : TopicState) : Client B :=
  let subs := state.subs.filter (· ∉ c.closed)
  { c.setTopic e.topic (some { state with subs := subs }) with
    inbox := fun watch => if watch ∈ subs then c.inbox watch ++ [e] else c.inbox watch }

def deliver (c : Client B) (e : RecordEvent B) : Client B :=
  match c.topics e.topic with
  | none => c
  | some state =>
    match e.instant with
    | none => c.fanOut e state
    | some instant =>
      if state.cursor.any (instant ≤ ·) then c
      else c.fanOut e { state with cursor := some (state.cursor.elim instant (max · instant)) }

def raise (c : Client B) (topic : Topic) (cursor : Nat) : Client B :=
  match c.topics topic with
  | none => c
  | some state => c.setTopic topic
      (some { state with cursor := some (state.cursor.elim cursor (max · cursor)) })

def applySubscribe (c : Client B) (topic : Topic) (watch : Nat) : Client B :=
  let state := (c.topics topic).getD {}
  (c.joins watch state).setTopic topic
    (some { state with subs := state.subs ++ [watch], pending := state.pending ++ [watch], live := false })

def applyUnsubscribe (c : Client B) (topic : Topic) (watch : Nat) : Client B :=
  match c.topics topic with
  | none => c
  | some state =>
    let state := { state with subs := state.subs.filter (· ≠ watch) }
    if state.subs.isEmpty && state.pending.isEmpty then c.setTopic topic none
    else c.setTopic topic (some state)

def unacked (c : Client B) : Client B :=
  { c with topics := fun topic => (c.topics topic).map fun state => { state with live := false } }

end Client

end Client

section System

structure SyncReply (B : Type) where
  events : List (RecordEvent B)
  cursors : List (Topic × Nat)

-- What the actor is at. Events that arrive before the catch-up are buffered.
inductive Phase (B : Type)
  | serving
  | offline
  | resubscribing (buffered : List (RecordEvent B))
  | catchingUp (buffered : List (RecordEvent B)) (reply : Option (SyncReply B))
  | ended

-- The node's end: its topics, the subscribe it is reading the tail for, and the channel
-- of events. `reported` is a history of the tails it answered with.
structure Session (B : Type) where
  topics : Finset Topic := ∅
  answering : Option Topic := none
  queue : List (RecordEvent B) := []
  reported : Topic → Nat := fun _ => 0

-- `up` and `down` are the two directions of the socket, `log` what the node
-- has committed to each topic, `publishing` the mutations on their way to the
-- subscription table, and `watches` the next watch id.
structure Sys (B : Type) where
  client : Client B
  phase : Phase B
  up : List ClientMsg
  down : List (ServerMsg B)
  session : Session B
  log : Topic → List (RecordEvent B)
  publishing : List (RecordEvent B)
  watches : Nat

def tailOf (log : List (RecordEvent B)) : Nat := (log.filterMap (·.instant)).foldr max 0

def Sys.new : Sys B where
  client := ⟨fun _ => none, fun _ => [], [], [], fun _ => none⟩
  phase := .serving
  up := []
  down := []
  session := {}
  log _ := []
  publishing := []
  watches := 0

namespace Sys

-- `handle_client`, up to the read of the tail.
def nodeTakes (s : Sys B) : ClientMsg → Sys B
  | .subscribe topic => { s with
      session := { s.session with topics := insert topic s.session.topics, answering := some topic } }
  | .unsubscribe topic => { s with
      session := { s.session with topics := s.session.topics.erase topic }
      down := s.down ++ [.topicOk topic 0] }

def nodeAnswers (s : Sys B) (topic : Topic) : Sys B :=
  { s with
    session := { s.session with
      answering := none
      reported := Function.update s.session.reported topic (tailOf (s.log topic)) }
    down := s.down ++ [.topicOk topic (tailOf (s.log topic))] }

def publish (s : Sys B) (e : RecordEvent B) : Sys B :=
  if e.topic ∈ s.session.topics then
    { s with session := { s.session with queue := s.session.queue ++ [e] } }
  else s

-- `handle_msg` of a served connection.
def clientTakes (s : Sys B) : ServerMsg B → Sys B
  | .topicOk topic tail => { s with client := s.client.ackTopic topic tail }
  | .event e => { s with client := s.client.deliver e }

def clientBuffers (s : Sys B) (buffered : List (RecordEvent B)) : ServerMsg B → Sys B
  | .topicOk topic tail => { s with client := s.client.ackTopic topic tail }
  | .event e => { s with phase := .resubscribing (buffered ++ [e]) }

def disconnected (s : Sys B) : Sys B :=
  { s with phase := .offline, up := [], down := [], session := {} }

-- A fresh socket with a subscribe for every topic, in some order.
def dialed (s : Sys B) (order : List Topic) : Sys B :=
  { s with
    client := s.client.unacked
    phase := .resubscribing []
    up := order.map .subscribe
    down := []
    session := {} }

-- The changes of the answer, its cursors, and then what was buffered.
def caughtUp (s : Sys B) (buffered : List (RecordEvent B)) (reply : SyncReply B) : Sys B :=
  let client := reply.events.foldl Client.deliver s.client
  let client := reply.cursors.foldl (fun c x => c.raise x.1 x.2) client
  { s with client := buffered.foldl Client.deliver client, phase := .serving }

end Sys

-- What a navigation past `since` may answer for one topic: changes of the log in order,
-- the last one of every record among them, and the tail.
structure Navigates (log : List (RecordEvent B)) (since : Nat) (events : List (RecordEvent B))
    (cursor : Nat) : Prop where
  within : events.Sublist (log.filter fun e => e.instant.any (since < ·))
  latest : ∀ x ∈ log, x.instant.any (since < ·) → ∃ y ∈ events, y.id = x.id ∧ x.instant ≤ y.instant
  cursor : cursor = max since (tailOf log)

-- One navigation over every topic, from one state of the node.
structure Answers (s : Sys B) (reply : SyncReply B) : Prop where
  each : ∀ topic state, s.client.topics topic = some state → ∃ cursor,
    (topic, cursor) ∈ reply.cursors ∧ Navigates (s.log topic) (state.cursor.getD 0)
      (reply.events.filter fun e => e.topic = topic) cursor
  only : ∀ x ∈ reply.cursors, (s.client.topics x.1).isSome ∧
    x.2 = max (((s.client.topics x.1).bind (·.cursor)).getD 0) (tailOf (s.log x.1))

inductive Action (B : Type)
  | subscribe (topic : Topic)
  | unsubscribe (topic : Topic) (watch : Nat)
  | close (watch : Nat)
  | nodeReads
  | nodeAnswers
  | nodeForwards
  | commits (e : RecordEvent B)
  | publishes
  | clientReads
  | drops
  | dialFails
  | dials (order : List Topic)
  | fails
  | syncs
  | navigates (reply : SyncReply B)
  | catchesUp
  | refused

inductive Step : Sys B → Action B → Sys B → Prop
  | subscribe {s : Sys B} {topic : Topic} (phase : s.phase = .serving) :
      Step s (.subscribe topic) { s with
        client := (s.client.subscribe topic s.watches).1
        up := s.up ++ (s.client.subscribe topic s.watches).2
        watches := s.watches + 1 }
  | unsubscribe {s : Sys B} {topic : Topic} {watch : Nat} (phase : s.phase = .serving) :
      Step s (.unsubscribe topic watch) { s with
        client := (s.client.unsubscribe topic watch).1
        up := s.up ++ (s.client.unsubscribe topic watch).2 }
  | subscribeOffline {s : Sys B} {topic : Topic} (phase : s.phase = .offline) :
      Step s (.subscribe topic) { s with
        client := s.client.applySubscribe topic s.watches, watches := s.watches + 1 }
  | unsubscribeOffline {s : Sys B} {topic : Topic} {watch : Nat} (phase : s.phase = .offline) :
      Step s (.unsubscribe topic watch) { s with client := s.client.applyUnsubscribe topic watch }
  | close {s : Sys B} {watch : Nat} :
      Step s (.close watch) { s with client := { s.client with closed := watch :: s.client.closed } }
  | nodeReads {s : Sys B} {msg : ClientMsg} {up : List ClientMsg} (free : s.session.answering = none)
      (head : s.up = msg :: up) : Step s .nodeReads ({ s with up := up }.nodeTakes msg)
  | nodeAnswers {s : Sys B} {topic : Topic} (busy : s.session.answering = some topic) :
      Step s .nodeAnswers (s.nodeAnswers topic)
  | nodeForwards {s : Sys B} {e : RecordEvent B} {queue : List (RecordEvent B)}
      (free : s.session.answering = none) (head : s.session.queue = e :: queue) :
      Step s .nodeForwards { s with
        session := { s.session with queue := queue }, down := s.down ++ [.event e] }
  | commits {s : Sys B} {e : RecordEvent B} {instant : Nat} (has : e.instant = some instant)
      (later : tailOf (s.log e.topic) < instant) :
      Step s (.commits e) { s with
        log := Function.update s.log e.topic (s.log e.topic ++ [e])
        publishing := s.publishing ++ [e] }
  | publishes {s : Sys B} {e : RecordEvent B} {publishing : List (RecordEvent B)}
      (head : s.publishing = e :: publishing) :
      Step s .publishes ({ s with publishing := publishing }.publish e)
  | clientReads {s : Sys B} {msg : ServerMsg B} {down : List (ServerMsg B)} (phase : s.phase = .serving)
      (head : s.down = msg :: down) : Step s .clientReads ({ s with down := down }.clientTakes msg)
  | clientBuffers {s : Sys B} {msg : ServerMsg B} {down : List (ServerMsg B)}
      {buffered : List (RecordEvent B)} (phase : s.phase = .resubscribing buffered)
      (head : s.down = msg :: down) :
      Step s .clientReads ({ s with down := down }.clientBuffers buffered msg)
  | drops {s : Sys B} (phase : s.phase = .serving) : Step s .drops s.disconnected
  | dialFails {s : Sys B} (phase : s.phase = .offline) : Step s .dialFails s
  | dials {s : Sys B} {order : List Topic} (phase : s.phase = .offline) (once : order.Nodup)
      (all : ∀ topic, topic ∈ order ↔ (s.client.topics topic).isSome) :
      Step s (.dials order) (s.dialed order)
  | resubscribeFails {s : Sys B} {buffered : List (RecordEvent B)}
      (phase : s.phase = .resubscribing buffered) : Step s .fails s.disconnected
  | syncs {s : Sys B} {buffered : List (RecordEvent B)} (phase : s.phase = .resubscribing buffered)
      (live : ∀ topic state, s.client.topics topic = some state → state.live = true) :
      Step s .syncs { s with phase := .catchingUp buffered none }
  | navigates {s : Sys B} {buffered : List (RecordEvent B)} {reply : SyncReply B}
      (phase : s.phase = .catchingUp buffered none) (answers : Answers s reply) :
      Step s (.navigates reply) { s with phase := .catchingUp buffered (some reply) }
  | syncFails {s : Sys B} {buffered : List (RecordEvent B)} {reply : Option (SyncReply B)}
      (phase : s.phase = .catchingUp buffered reply) : Step s .fails s.disconnected
  | catchesUp {s : Sys B} {buffered : List (RecordEvent B)} {reply : SyncReply B}
      (phase : s.phase = .catchingUp buffered (some reply)) :
      Step s .catchesUp (s.caughtUp buffered reply)
  | refused {s : Sys B} (phase : s.phase ≠ .serving) :
      Step s .refused { s.disconnected with phase := .ended }

end System

end WaveDb.Watch
