import WaveDb.Node.Live

-- The subscription table beside the sessions, and what a socket is sent of what is
-- committed.
namespace WaveDb.Node.LiveNode

open WaveDb.Net

variable {S : Type} {node : LiveNode S} {codec : Codec} {registry : Registry S}

-- One row for each topic of each session, and no other.
structure Tabled (node : LiveNode S) : Prop where
  nodup : node.subs.Nodup
  mem : ∀ sub, sub ∈ node.subs ↔ ∃ session, node.sessions sub.conn = some session ∧
    sub.tenant = session.caller.tenant ∧ sub.topic ∈ session.topics
  opened : ∀ conn session, node.sessions conn = some session → conn < node.nextConn

theorem Tabled.close (h : node.Tabled) {conn : Nat} {session : Session} (hsession : node.sessions conn = some session) :
    (node.close conn session).Tabled := by
  refine ⟨h.nodup.filter _, fun sub => ?_, fun conn' session' hsome => ?_⟩
  · rw [LiveNode.close, List.mem_filter, decide_eq_true_eq, h.mem]
    by_cases hconn : sub.conn = conn
    · simp only [hconn, hsession, Function.update_self, Option.some.injEq, true_and]
      constructor
      · rintro ⟨⟨_, rfl, hrow⟩, hnot⟩
        exact (hnot hrow).elim
      · rintro ⟨_, hnone, -⟩
        cases hnone
    · simp only [hconn, Function.update_of_ne (h := hconn), false_and, not_false_eq_true, and_true]
  · by_cases hconn : conn' = conn
    · subst hconn
      simp [LiveNode.close] at hsome
    · exact h.opened conn' session' (by simpa [LiveNode.close, hconn] using hsome)

def topicsAfter (topics : Finset Topic) : Incoming → Finset Topic
  | .subscribe topic => insert topic topics
  | .unsubscribe topic => topics.erase topic
  | _ => topics

theorem handleClient_topics {caller : Caller} {store : S} {topics topics' : Finset Topic} {item : Incoming}
    (h : (handleClient codec registry caller store topics item).2.1 = some topics') :
    topics' = topicsAfter topics item := by
  cases item with
  | subscribe topic =>
    rw [handleClient] at h
    split at h
    · cases h
    · exact (Option.some.inj h).symm
  | hello => cases h
  | call | unsubscribe | ping | event => exact (Option.some.inj h).symm

-- The rows of the connection follow its topics, and the others stay.
theorem mem_resubscribe {subs : SubTable} {conn : Nat} {session : Session} {sub : Sub} (item : Incoming)
    (hsubs : ∀ topic, ⟨session.caller.tenant, topic, conn⟩ ∈ subs ↔ topic ∈ session.topics) :
    sub ∈ resubscribe subs conn session item ↔
      if sub.conn = conn ∧ sub.tenant = session.caller.tenant then sub.topic ∈ topicsAfter session.topics item
      else sub ∈ subs := by
  obtain ⟨tenant, topic, conn'⟩ := sub
  by_cases hown : conn' = conn ∧ tenant = session.caller.tenant
  · obtain ⟨rfl, rfl⟩ := hown
    rw [if_pos ⟨rfl, rfl⟩]
    cases item with
    | subscribe t =>
      by_cases ht : t ∈ session.topics
      · simp [resubscribe, topicsAfter, ht, hsubs]
      · simp [resubscribe, topicsAfter, ht, hsubs, SubTable.subscribe, or_comm]
    | unsubscribe t =>
      by_cases ht : t ∈ session.topics
      · simp [resubscribe, topicsAfter, ht, hsubs, SubTable.unsubscribe, and_comm]
      · simp [resubscribe, topicsAfter, ht, hsubs]
    | hello | call | ping | event => exact hsubs topic
  · rw [if_neg hown]
    cases item with
    | subscribe t =>
      rw [resubscribe]
      split
      · exact Iff.rfl
      · simp only [SubTable.subscribe, List.mem_append, List.mem_singleton, Sub.mk.injEq]
        tauto
    | unsubscribe t =>
      rw [resubscribe]
      split
      · simp only [SubTable.unsubscribe, List.mem_filter, decide_eq_true_eq, ne_eq, Sub.mk.injEq]
        tauto
      · exact Iff.rfl
    | hello | call | ping | event => exact Iff.rfl

theorem nodup_resubscribe {subs : SubTable} (h : subs.Nodup) {conn : Nat} {session : Session} (item : Incoming)
    (hsubs : ∀ topic, ⟨session.caller.tenant, topic, conn⟩ ∈ subs ↔ topic ∈ session.topics) :
    (resubscribe subs conn session item).Nodup := by
  cases item with
  | subscribe t =>
    rw [resubscribe]
    split
    · exact h
    · rename_i ht
      refine List.nodup_append.mpr ⟨h, List.nodup_singleton _, fun sub hsub row hrow heq => ?_⟩
      rw [List.mem_singleton.mp hrow] at heq
      exact ht ((hsubs t).mp (heq ▸ hsub))
  | unsubscribe t =>
    rw [resubscribe]
    split
    · exact h.filter _
    · exact h
  | hello | call | ping | event => exact h

theorem Tabled.message (h : node.Tabled) {conn : Nat} {session : Session} (item : Incoming) (store : S)
    (hsession : node.sessions conn = some session) :
    Tabled { node with
      store
      subs := resubscribe node.subs conn session item
      sessions := Function.update node.sessions conn
        (some { session with topics := topicsAfter session.topics item }) } := by
  have hsubs : ∀ topic, ⟨session.caller.tenant, topic, conn⟩ ∈ node.subs ↔ topic ∈ session.topics := by
    intro topic
    simp [h.mem, hsession]
  refine ⟨nodup_resubscribe h.nodup item hsubs, fun sub => ?_, fun conn' session' hsome => ?_⟩
  · rw [mem_resubscribe item hsubs]
    by_cases hconn : sub.conn = conn
    · by_cases htenant : sub.tenant = session.caller.tenant
      · simp [hconn, htenant]
      · simp [hconn, htenant, h.mem, hsession]
    · simp [hconn, h.mem]
  · by_cases hconn : conn' = conn
    · exact hconn ▸ h.opened conn session hsession
    · exact h.opened conn' session' (by simpa [hconn] using hsome)

theorem Tabled.step (h : node.Tabled) (item : Happening S) : (node.step codec registry item).2.Tabled := by
  cases item with
  | request now request => exact ⟨h.nodup, h.mem, h.opened⟩
  | wrote store published => exact ⟨h.nodup, h.mem, h.opened⟩
  | opened now first =>
    cases first with
    | hello auth =>
      rw [LiveNode.step]
      cases hcaller : identify now auth with
      | none => exact h
      | some caller =>
        have hnew : node.sessions node.nextConn = none := by
          refine Option.eq_none_iff_forall_ne_some.mpr fun session hsome => ?_
          exact lt_irrefl _ (h.opened _ session hsome)
        refine ⟨h.nodup, fun sub => (h.mem sub).trans ?_, fun conn session hsome => ?_⟩
        · by_cases hconn : sub.conn = node.nextConn
          · simp [hconn, hnew]
          · simp [hconn]
        · by_cases hconn : conn = node.nextConn
          · exact hconn ▸ Nat.lt_succ_self _
          · exact (h.opened conn session (by simpa [hconn] using hsome)).trans (Nat.lt_succ_self _)
    | call | subscribe | unsubscribe | ping | event => exact h
  | message conn item =>
    rw [LiveNode.step, receive]
    cases hsession : node.sessions conn with
    | none => exact h
    | some session =>
      dsimp only
      cases htopics : (handleClient codec registry session.caller node.store session.topics item).2.1 with
      | none =>
        have hstore : Tabled { node with
            store := (handleClient codec registry session.caller node.store session.topics item).2.2 } :=
          ⟨h.nodup, h.mem, h.opened⟩
        exact hstore.close hsession
      | some topics' =>
        obtain rfl := handleClient_topics htopics
        exact h.message item _ hsession
  | closed conn =>
    rw [LiveNode.step]
    cases hsession : node.sessions conn with
    | none => exact h
    | some session => exact h.close hsession

theorem Tabled.run (h : node.Tabled) (items : List (Happening S)) : (node.run codec registry items).2.Tabled := by
  induction items generalizing node with
  | nil => exact h
  | cons item items ih => exact ih (h.step item)

def sentTo (conn : Nat) (deliveries : List Delivery) : List Outgoing :=
  deliveries.filterMap fun
    | .socket conn' out => if conn' = conn then some out else none
    | .answer _ => none

-- Whether a session has subscribed to what a mutation makes.
def hears (session : Session) (m : Mutation) : Bool :=
  m.tenant = session.caller.tenant ∧ m.event.topic ∈ session.topics

theorem sentTo_publish (subs : SubTable) (conn : Nat) (m : Mutation) :
    sentTo conn ((subs.publish m).map fun sent => .socket sent.1 sent.2) =
      List.replicate (subs.count ⟨m.tenant, m.event.topic, conn⟩) (.event m.event) := by
  rw [sentTo, List.filterMap_map, SubTable.publish, List.filterMap_map]
  induction subs with
  | nil => rfl
  | cons sub subs ih =>
    obtain ⟨tenant, topic, conn'⟩ := sub
    by_cases hrow : tenant = m.tenant ∧ topic = m.event.topic
    · obtain ⟨rfl, rfl⟩ := hrow
      rw [List.filter_cons_of_pos (by simp)]
      by_cases hconn : conn' = conn
      · subst hconn
        rw [List.filterMap_cons_some (by simp; rfl), List.count_cons_self, List.replicate_succ, ih]
      · rw [List.filterMap_cons_none (by simp [hconn]), List.count_cons_of_ne (by simp [hconn]), ih]
    · rw [List.filter_cons_of_neg (by simpa using hrow), List.count_cons_of_ne (by simp; tauto), ih]

theorem Tabled.publish (h : node.Tabled) (conn : Nat) (m : Mutation) :
    sentTo conn ((node.subs.publish m).map fun sent => .socket sent.1 sent.2) =
      if (node.sessions conn).any (hears · m) then [.event m.event] else [] := by
  have hmem : ⟨m.tenant, m.event.topic, conn⟩ ∈ node.subs ↔ (node.sessions conn).any (hears · m) = true := by
    rw [h.mem, Option.any_eq_true]
    simp [hears]
  rw [sentTo_publish]
  split
  · rename_i hheard
    rw [List.count_eq_one_of_mem h.nodup (hmem.mpr hheard)]
    rfl
  · rename_i hheard
    rw [List.count_eq_zero_of_not_mem fun hrow => hheard (hmem.mp hrow)]
    rfl

-- After any run, each open socket gets every mutation of its tenant at a topic
-- it has subscribed to, once and in the order of the commits, and nothing else.
theorem committed_sent_once (store store' : S) (items : List (Happening S)) (published : List Mutation) (conn : Nat) :
    sentTo conn (((start store).run codec registry items).2.step codec registry (.wrote store' published)).1 =
      match ((start store).run codec registry items).2.sessions conn with
      | none => []
      | some session => (published.filter (hears session)).map fun m => .event m.event := by
  have hstart : (start store).Tabled := ⟨List.nodup_nil, by simp [start], by simp [start]⟩
  have htabled : ((start store).run codec registry items).2.Tabled := hstart.run items
  generalize ((start store).run codec registry items).2 = node at htabled
  rw [LiveNode.step]
  induction published with
  | nil => cases node.sessions conn <;> rfl
  | cons m published ih =>
    have hfirst := htabled.publish conn m
    simp only [sentTo, List.flatMap_cons, List.map_append, List.filterMap_append] at ih hfirst ⊢
    rw [hfirst, ih]
    cases hsession : node.sessions conn with
    | none => rfl
    | some session => cases hheard : hears session m <;> simp [hheard]

end WaveDb.Node.LiveNode
