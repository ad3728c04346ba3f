import WaveDb.Node.Dispatch

-- Callers that are turned away: what they are told does not depend on the store.
namespace WaveDb.Node

open WaveDb.Net

variable {S : Type} {registry : Registry S} {caller : Caller} {codec : Codec}

def Registry.Refuses (registry : Registry S) (caller : Caller) (hash : Nat) : Prop :=
  ∀ command payload, ∃ err, ∀ store, registry.execute store caller hash command payload = (.error err, store)

theorem execute_refuses {frame : CommandFrame} (h : registry.Refuses caller frame.structHash) :
    ∃ refusal, ∀ store, execute registry store caller frame = (refusal, store) := by
  obtain ⟨err, herr⟩ := h frame.command frame.payload
  cases hknows : registry.knows frame.structHash with
  | false =>
    refine ⟨.err (.fromCore frame.structHash (.unknownStructHash frame.structHash)), fun store => ?_⟩
    rw [execute, hknows]
    rfl
  | true =>
    refine ⟨.err (.fromCore frame.structHash err), fun store => ?_⟩
    rw [execute, hknows]
    simp only [herr]
    rfl

theorem navigate_refuses {topics : List TopicCursor} (hsome : topics ≠ [])
    (h : ∀ declared ∈ topics, registry.Refuses caller declared.topic.structHash) :
    ∃ err, ∀ store, navigate codec registry store caller topics = (.err err, store) := by
  cases topics with
  | nil => exact absurd rfl hsome
  | cons declared topics =>
    obtain ⟨err, herr⟩ := h declared List.mem_cons_self .changes
      (codec.changesQuery declared.topic.pivot declared.since)
    refine ⟨.fromCore declared.topic.structHash err, fun store => ?_⟩
    rw [navigate, navigateLoop]
    simp only [herr]

theorem piggyback_none {topics : List TopicCursor}
    (h : ∀ declared ∈ topics, registry.Refuses caller declared.topic.structHash) (store : S) :
    piggyback codec registry store caller topics = (none, store) := by
  rw [piggyback]
  split
  · rfl
  · rename_i hsome
    have hrefused : ∃ err, ∀ store, navigate codec registry store caller topics = (.err err, store) :=
      navigate_refuses (by simpa using hsome) h
    obtain ⟨err, herr⟩ := hrefused
    rw [herr store]

theorem syncPoll_refuses {payload : Bytes} (h : ∀ topics, codec.syncRequest payload = .ok topics →
      ∀ declared ∈ topics, registry.Refuses caller declared.topic.structHash) :
    ∃ response, ∀ store, syncPoll codec registry store caller payload = (response, store) := by
  unfold syncPoll
  by_cases hanonymous : caller.isAnonymous
  · exact ⟨unauthorized syncStructHash, fun store => if_pos hanonymous⟩
  · simp only [if_neg hanonymous]
    cases htopics : codec.syncRequest payload with
    | error err => exact ⟨_, fun store => rfl⟩
    | ok topics =>
      by_cases hsome : topics = []
      · subst hsome
        exact ⟨_, fun store => rfl⟩
      · obtain ⟨err, herr⟩ := navigate_refuses hsome (h topics htopics)
        exact ⟨.err err, herr⟩

theorem topicTail_refuses {topic : Topic} (h : registry.Refuses caller topic.structHash) (store : S) :
    topicTail codec registry store caller topic = (0, store) := by
  obtain ⟨err, herr⟩ := h .changes (codec.changesQuery topic.pivot none)
  simp only [topicTail, herr store]

end WaveDb.Node
