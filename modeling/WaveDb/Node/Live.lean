import WaveDb.Node.Refusal

-- The node as one client meets it: its requests, its sockets, and the writes of the
-- others.
namespace WaveDb.Node

open WaveDb.Net

section SubTable

-- A committed mutation: the tenant whose data it is, and the event it makes.
structure Mutation where
  tenant : Nat
  event : RecordEvent Bytes

structure Sub where
  tenant : Nat
  topic : Topic
  conn : Nat
  deriving DecidableEq

abbrev SubTable := List Sub

namespace SubTable

def subscribe (subs : SubTable) (tenant : Nat) (topic : Topic) (conn : Nat) : SubTable :=
  subs ++ [⟨tenant, topic, conn⟩]

def unsubscribe (subs : SubTable) (tenant : Nat) (topic : Topic) (conn : Nat) : SubTable :=
  List.filter (fun sub => sub ≠ ⟨tenant, topic, conn⟩) subs

def publish (subs : SubTable) (m : Mutation) : List (Nat × Outgoing) :=
  (List.filter (fun sub => sub.tenant = m.tenant ∧ sub.topic = m.event.topic) subs).map
    fun sub => (sub.conn, .event m.event)

theorem mem_unsubscribe {subs : SubTable} {tenant conn : Nat} {topic : Topic} {sub : Sub}
    (h : sub ∈ subs.unsubscribe tenant topic conn) : sub ∈ subs := List.mem_of_mem_filter h

theorem publish_eq_nil {subs : SubTable} {m : Mutation}
    (h : ∀ sub ∈ subs, sub.tenant = m.tenant → sub.topic ≠ m.event.topic) : subs.publish m = [] := by
  unfold publish
  rw [List.map_eq_nil_iff, List.filter_eq_nil_iff]
  intro sub hsub hmatch
  have hmatch := of_decide_eq_true hmatch
  exact h sub hsub hmatch.1 hmatch.2

end SubTable

end SubTable

section Node

variable {S : Type}

structure Session where
  caller : Caller
  topics : Finset Topic

structure LiveNode (S : Type) where
  store : S
  subs : SubTable
  nextConn : Nat
  sessions : Nat → Option Session

-- `wrote` is what anyone commits: the store it leaves, and what it publishes.
inductive Happening (S : Type)
  | request (now : Nat) (request : Request)
  | opened (now : Nat) (first : Incoming)
  | message (conn : Nat) (item : Incoming)
  | closed (conn : Nat)
  | wrote (store : S) (published : List Mutation)

inductive Delivery
  | answer (answer : Answer)
  | socket (conn : Nat) (out : Outgoing)

namespace LiveNode

def start (store : S) : LiveNode S := ⟨store, [], 0, fun _ => none⟩

def close (node : LiveNode S) (conn : Nat) (session : Session) : LiveNode S :=
  { node with
    subs := List.filter (fun sub => ¬ (sub.conn = conn ∧ sub.tenant = session.caller.tenant ∧
      sub.topic ∈ session.topics)) node.subs
    sessions := Function.update node.sessions conn none }

-- A session enters each of its topics once, and under its own tenant.
def resubscribe (subs : SubTable) (conn : Nat) (session : Session) : Incoming → SubTable
  | .subscribe topic =>
    if topic ∈ session.topics then subs else subs.subscribe session.caller.tenant topic conn
  | .unsubscribe topic =>
    if topic ∈ session.topics then subs.unsubscribe session.caller.tenant topic conn else subs
  | _ => subs

def receive (codec : Codec) (registry : Registry S) (node : LiveNode S) (conn : Nat) (item : Incoming) :
    List Delivery × LiveNode S :=
  match node.sessions conn with
  | none => ([], node)
  | some session =>
    let handled := handleClient codec registry session.caller node.store session.topics item
    let out := handled.1.map (Delivery.socket conn)
    match handled.2.1 with
    | none => (out, close { node with store := handled.2.2 } conn session)
    | some topics =>
      (out, { node with
        store := handled.2.2
        subs := resubscribe node.subs conn session item
        sessions := Function.update node.sessions conn (some { session with topics }) })

def step (codec : Codec) (registry : Registry S) (node : LiveNode S) : Happening S → List Delivery × LiveNode S
  | .request now request =>
    let handled := handle codec registry now node.store request
    ([.answer handled.1], { node with store := handled.2 })
  | .opened now (.hello auth) =>
    match identify now auth with
    | none => ([.socket node.nextConn .close], node)
    | some caller =>
      ([.socket node.nextConn .helloOk], { node with
        nextConn := node.nextConn + 1
        sessions := Function.update node.sessions node.nextConn (some ⟨caller, ∅⟩) })
  | .opened _ _ => ([.socket node.nextConn .close], node)
  | .message conn item => node.receive codec registry conn item
  | .closed conn =>
    match node.sessions conn with
    | none => ([], node)
    | some session => ([], node.close conn session)
  | .wrote store published =>
    ((published.flatMap node.subs.publish).map fun sent => .socket sent.1 sent.2, { node with store })

def run (codec : Codec) (registry : Registry S) : LiveNode S → List (Happening S) → List Delivery × LiveNode S
  | node, [] => ([], node)
  | node, item :: items =>
    let stepped := node.step codec registry item
    let rest := run codec registry stepped.2 items
    (stepped.1 ++ rest.1, rest.2)

end LiveNode

end Node

end WaveDb.Node
