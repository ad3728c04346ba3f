import WaveDb.Core.Metadata

-- What rides the wire between a client and its node.
namespace WaveDb.Net

open WaveDb.Core

-- The anchor of a Unique type, or one collection.
structure Topic where
  structHash : Nat
  pivot : Option LocalId
  deriving DecidableEq, Repr

inductive EventKind
  | saved
  | removed (instant : Nat)
  deriving DecidableEq, Repr

-- One mutation of a topic. `B` is the body of the record.
structure RecordEvent (B : Type) where
  topic : Topic
  id : Id
  kind : EventKind
  info : Option Metadata
  body : B
  deriving DecidableEq

-- The instant a cursor advances to. A save without metadata has none.
def RecordEvent.instant {B : Type} (e : RecordEvent B) : Option Nat :=
  match e.kind with
  | .removed instant => some instant
  | .saved =>
    match e.info with
    | none => none
    | some info =>
      match info.succession with
      | .createdAt instant => some instant
      | .next _ => none

inductive ClientMsg
  | subscribe (topic : Topic)
  | unsubscribe (topic : Topic)
  deriving DecidableEq

def ClientMsg.topic : ClientMsg → Topic
  | .subscribe topic => topic
  | .unsubscribe topic => topic

-- `topicOk` answers both messages above, with the tail of the topic or 0.
inductive ServerMsg (B : Type)
  | topicOk (topic : Topic) (tail : Nat)
  | event (e : RecordEvent B)
  deriving DecidableEq

def ServerMsg.topic {B : Type} : ServerMsg B → Topic
  | .topicOk topic _ => topic
  | .event e => e.topic

end WaveDb.Net
