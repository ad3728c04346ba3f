import WaveDb.Watch.Flow

-- What stands at the node when a watch is acknowledged, over the commands of one
-- connection.
namespace WaveDb.Watch

open WaveDb.Lib WaveDb.Core WaveDb.Net

variable {B : Type} {s s' : Sys B} {t topic : Topic}

section Invariant

-- The connection stays, and nothing about a topic is on its way when it is
-- subscribed anew.
def Undisturbed (s : Sys B) (action : Action B) : Prop := Patient s action ∧ action ≠ .drops

-- A cursor is the tail the node has reported, or a later change of the topic.
def Seeded (s : Sys B) (t : Topic) (cursor : Option Nat) : Prop :=
  cursor = some (s.session.reported t) ∨
    ∃ e ∈ s.log t, cursor = some (stamp e) ∧ s.session.reported t < stamp e

structure Served (s : Sys B) : Prop where
  serving : s.phase = .serving
  joined : Joined s
  flow : Flow s
  seeded : ∀ t st, s.client.topics t = some st → st.live = true → Seeded s t st.cursor

theorem served_new : Served (Sys.new : Sys B) :=
  ⟨rfl, joined_new, flow_new, fun _ _ hst => nomatch hst⟩

theorem Served.connected (h : Served s) : s.phase.Connected := by
  rw [h.serving]
  trivial

theorem View.Linked.waits_of_answering {v : View B} (h : v.Linked t) (hbusy : v.answering) {st : TopicState}
    (hst : v.state = some st) : st.live = false := by
  cases h with
  | idle hs hu ha hb hd => exact absurd hbusy ha
  | leaving hs hu ha hb hd => exact absurd hbusy ha
  | left hs hu ha hb hd => exact absurd hbusy ha
  | asked st' hs hw hu ha hb hd hq => exact absurd hbusy ha
  | reading st' hs hw hu ha hb hd =>
    rw [hs, Option.some.injEq] at hst
    exact hst ▸ hw
  | answered st' hs hw hu ha hb hd => exact absurd hbusy ha
  | live st' hs hw hu ha hb hd => exact absurd hbusy ha

theorem seeded_nodeAnswers (h : Served s) (hbusy : s.session.answering = some topic) {st : TopicState}
    (hst : s.client.topics t = some st) (hlive : st.live = true) : Seeded (s.nodeAnswers topic) t st.cursor := by
  have hne : t ≠ topic := by
    rintro rfl
    have hwaits := (h.joined.linked h.connected t).waits_of_answering hbusy hst
    exact Bool.noConfusion (hlive.symm.trans hwaits)
  have hreported : (s.nodeAnswers topic).session.reported t = s.session.reported t :=
    Function.update_of_ne hne _ _
  rw [Seeded, hreported]
  exact h.seeded t st hst hlive

theorem Served.takesOk (h : Served s) {tail : Nat} {down : List (ServerMsg B)}
    (hhead : s.down = .topicOk topic tail :: down) {st : TopicState}
    (hst : s.client.topics topic = some st) :
    topic ∈ s.session.topics ∧ tail = s.session.reported topic ∧ st.live = false ∧
      (st.acked tail).cursor = some tail := by
  have hlinked := h.joined.linked h.connected topic
  have hself := view_down_self hhead
  have hwaits := hlinked.waits_of_ok hself hst
  obtain ⟨-, hcursor⟩ := h.joined.waits h.serving topic st hst hwaits
  rcases hlinked.takesOk hself with ⟨hnone, -⟩ | ⟨-, -, hsubscribed, htail, -⟩
  · cases hnone.symm.trans hst
  · exact ⟨hsubscribed, htail, hwaits, by rw [TopicState.acked, hcursor]; rfl⟩

theorem seeded_takesOk (h : Served s) {tail : Nat} {down : List (ServerMsg B)}
    (hhead : s.down = .topicOk topic tail :: down) {st' : TopicState}
    (hst' : (s.client.ackTopic topic tail).topics t = some st') (hlive : st'.live = true) :
    Seeded s t st'.cursor := by
  rw [topics_ackTopic] at hst'
  split at hst'
  · rename_i ht
    subst ht
    obtain ⟨st, hst, rfl⟩ := Option.map_eq_some_iff.mp hst'
    obtain ⟨-, htail, -, hcursor⟩ := h.takesOk hhead hst
    exact .inl (hcursor.trans (congrArg some htail))
  · exact h.seeded t st' hst' hlive

theorem Flow.mem_log (h : Flow s) (hserving : s.phase = .serving) {e : RecordEvent B}
    {down : List (ServerMsg B)} (hhead : s.down = .event e :: down) {st : TopicState}
    (hst : s.client.topics e.topic = some st) : e ∈ s.log e.topic := by
  refine (h.flows (by rw [hserving]; trivial) e.topic st hst).subset ?_
  rw [pipe_down hhead (by rw [hserving]; rfl)]
  simp [eventOf]

theorem seeded_takesEvent (h : Served s) {e : RecordEvent B} {down : List (ServerMsg B)}
    (hhead : s.down = .event e :: down) {st' : TopicState}
    (hst' : (s.client.deliver e).topics t = some st') (hlive : st'.live = true) :
    Seeded s t st'.cursor := by
  by_cases ht : t = e.topic
  · subst ht
    obtain ⟨st, hst, hmoves⟩ := (Client.moves_deliver e).back hst'
    have hwas : st.live = true := hmoves.live ▸ hlive
    obtain ⟨cursor, hcursor⟩ := Option.isSome_iff_exists.mp (h.joined.settled _ st hst hwas).2
    have hmem := h.flow.mem_log h.serving hhead hst
    have hseeded := h.seeded _ st hst hwas
    rw [deliver_eq hst hcursor (h.flow.logged _ e hmem).2] at hst'
    split at hst'
    · rw [hst, Option.some.injEq] at hst'
      exact hst' ▸ hseeded
    · rename_i hlater
      change (Client.setTopic _ e.topic _).topics e.topic = _ at hst'
      rw [topics_setTopic, if_pos rfl, Option.some.injEq] at hst'
      subst hst'
      have hreported : s.session.reported e.topic ≤ cursor := by
        rcases hseeded with hseed | ⟨x, -, hseed, hle⟩
        · rw [hcursor, Option.some.injEq] at hseed
          exact hseed.ge
        · rw [hcursor, Option.some.injEq] at hseed
          exact hseed ▸ hle.le
      exact .inr ⟨e, hmem, rfl, hreported.trans_lt (Nat.lt_of_not_le hlater)⟩
  · exact h.seeded t st' ((topics_deliver_of_ne ht).symm.trans hst') hlive

theorem Served.step {a : Action B} (h : Served s) (hmeets : Undisturbed s a) (hstep : Step s a s') :
    Served s' := by
  obtain ⟨hpatient, hstays⟩ := hmeets
  have hjoined := h.joined.step hpatient hstep
  have hflow := h.flow.step h.joined hpatient hstep
  have hserving := h.serving
  cases hstep with
  | subscribe =>
    refine ⟨hserving, hjoined, hflow, fun t st' hst' hlive => ?_⟩
    rcases topics_subscribe_back hst' with ⟨st, hst, hwas, hcursor⟩ | ⟨-, -, hwaits⟩
    · exact hcursor ▸ h.seeded t st hst (hwas.trans hlive)
    · exact Bool.noConfusion (hlive.symm.trans hwaits)
  | unsubscribe =>
    refine ⟨hserving, hjoined, hflow, fun t st' hst' hlive => ?_⟩
    obtain ⟨st, hst, hwas, hcursor⟩ := topics_unsubscribe_back hst'
    exact hcursor ▸ h.seeded t st hst (hwas.trans hlive)
  | close => exact ⟨hserving, hjoined, hflow, h.seeded⟩
  | @nodeReads msg up hfree hhead =>
    cases msg with
    | subscribe topic => exact ⟨hserving, hjoined, hflow, h.seeded⟩
    | unsubscribe topic => exact ⟨hserving, hjoined, hflow, h.seeded⟩
  | nodeAnswers hbusy =>
    exact ⟨hserving, hjoined, hflow, fun t st hst hlive => seeded_nodeAnswers h hbusy hst hlive⟩
  | nodeForwards => exact ⟨hserving, hjoined, hflow, h.seeded⟩
  | @commits e instant hhas hlater =>
    refine ⟨hserving, hjoined, hflow, fun t st hst hlive => ?_⟩
    refine (h.seeded t st hst hlive).imp_right fun ⟨x, hx, hcursor⟩ => ⟨x, ?_, hcursor⟩
    change x ∈ Function.update s.log e.topic (s.log e.topic ++ [e]) t
    by_cases ht : t = e.topic
    · subst ht
      rw [Function.update_self]
      exact List.mem_append_left _ hx
    · rw [Function.update_of_ne ht]
      exact hx
  | @publishes e publishing hhead =>
    rw [publish_eq] at hjoined hflow ⊢
    exact ⟨hserving, hjoined, hflow, h.seeded⟩
  | @clientReads msg down hphase hhead =>
    cases msg with
    | topicOk topic tail =>
      exact ⟨hserving, hjoined, hflow, fun t st' hst' hlive => seeded_takesOk h hhead hst' hlive⟩
    | event e =>
      exact ⟨hserving, hjoined, hflow, fun t st' hst' hlive => seeded_takesEvent h hhead hst' hlive⟩
  | subscribeOffline hphase => cases hserving.symm.trans hphase
  | unsubscribeOffline hphase => cases hserving.symm.trans hphase
  | clientBuffers hphase => cases hserving.symm.trans hphase
  | drops => exact absurd rfl hstays
  | dialFails hphase => cases hserving.symm.trans hphase
  | dials hphase => cases hserving.symm.trans hphase
  | resubscribeFails hphase => cases hserving.symm.trans hphase
  | syncs hphase => cases hserving.symm.trans hphase
  | navigates hphase => cases hserving.symm.trans hphase
  | syncFails hphase => cases hserving.symm.trans hphase
  | catchesUp hphase => cases hserving.symm.trans hphase
  | refused hphase => exact absurd hserving hphase

end Invariant

section Acknowledged

theorem acked_subscribe {c : Client B} {watch w : Nat} (hnow : (w, t) ∈ (c.subscribe topic watch).1.acked)
    (hnot : (w, t) ∉ c.acked) : t = topic ∧ ∃ st, c.topics t = some st ∧ st.live = true := by
  rw [Client.subscribe] at hnow
  simp only at hnow
  split at hnow
  · rename_i hwas
    rcases List.mem_append.mp hnow with hold | hnew
    · exact absurd hold hnot
    · rw [List.mem_singleton, Prod.mk.injEq] at hnew
      obtain ⟨-, rfl⟩ := hnew
      refine ⟨rfl, ?_⟩
      cases hstate : c.topics t with
      | none =>
        rw [hstate] at hwas
        cases hwas
      | some st =>
        rw [hstate] at hwas
        exact ⟨st, rfl, hwas⟩
  · exact absurd hnow hnot

theorem acked_unsubscribe (c : Client B) (watch : Nat) :
    (c.unsubscribe topic watch).1.acked = c.acked := by
  rw [Client.unsubscribe]
  cases c.topics topic with
  | none => rfl
  | some st =>
    simp only
    split
    · rfl
    · rfl

theorem acked_ackTopic {c : Client B} {tail w : Nat} (hnow : (w, t) ∈ (c.ackTopic topic tail).acked)
    (hnot : (w, t) ∉ c.acked) : t = topic ∧ ∃ st, c.topics t = some st := by
  rw [Client.ackTopic] at hnow
  cases hstate : c.topics topic with
  | none =>
    rw [hstate] at hnow
    exact absurd hnow hnot
  | some st =>
    rw [hstate] at hnow
    rcases List.mem_append.mp hnow with hold | hnew
    · exact absurd hold hnot
    · obtain ⟨x, -, hx⟩ := List.mem_map.mp hnew
      rw [Prod.mk.injEq] at hx
      exact ⟨hx.2.symm, st, hx.2 ▸ hstate⟩

-- What the node has when a watch on `t` is acknowledged.
structure Watched (s : Sys B) (t : Topic) (st : TopicState) : Prop where
  subscribed : t ∈ s.session.topics
  answered : s.session.answering ≠ some t
  state : s.client.topics t = some st
  seeded : Seeded s t st.cursor

theorem Served.watched (h : Served s) {st : TopicState} (hst : s.client.topics t = some st)
    (hlive : st.live = true) : Watched s t st := by
  have hlinked := h.joined.linked h.connected t
  refine ⟨hlinked.subscribed_of_live hst hlive, fun hbusy => ?_, hst, h.seeded t st hst hlive⟩
  exact Bool.noConfusion (hlive.symm.trans (hlinked.waits_of_answering hbusy hst))

-- A watch is acknowledged once the node has its topic. The cursor is the tail the node
-- reported then, or that of a later change on a topic that was live.
theorem watch_acknowledged_live {a : Action B} {w : Nat}
    (h : Leads Step Undisturbed Sys.new s) (hmeets : Undisturbed s a) (hstep : Step s a s')
    (hnow : (w, t) ∈ s'.client.acked) (hnot : (w, t) ∉ s.client.acked) :
    ∃ st', Watched s' t st' ∧
      ((∀ st, s.client.topics t = some st → st.live = false) →
        st'.cursor = some (s'.session.reported t)) := by
  have hserved : Served s := h.invariant served_new fun _ _ _ hs hm hn => hs.step hm hn
  have hserved' := hserved.step hmeets hstep
  have hserving := hserved.serving
  cases hstep with
  | @subscribe topic hphase =>
    obtain ⟨rfl, st, hst, hlive⟩ := acked_subscribe hnow hnot
    have hst' : (s.client.subscribe t s.watches).1.topics t =
        some { st with subs := st.subs ++ [s.watches] } := by
      simp [Client.subscribe, hst, hlive, Client.setTopic]
    refine ⟨_, hserved'.watched hst' hlive, fun hwaits => ?_⟩
    exact Bool.noConfusion (hlive.symm.trans (hwaits st hst))
  | @clientReads msg down hphase hhead =>
    cases msg with
    | topicOk topic tail =>
      obtain ⟨rfl, st, hst⟩ := acked_ackTopic hnow hnot
      obtain ⟨-, htail, -, hcursor⟩ := hserved.takesOk hhead hst
      have hst' : (s.client.ackTopic t tail).topics t = some (st.acked tail) := by
        rw [topics_ackTopic, if_pos rfl, hst]
        rfl
      exact ⟨_, hserved'.watched hst' rfl, fun _ => hcursor.trans (congrArg some htail)⟩
    | event e =>
      have hsame : (s.client.deliver e).acked = s.client.acked := (Client.moves_deliver e).acked
      exact absurd (hsame ▸ hnow) hnot
  | unsubscribe =>
    exact absurd ((acked_unsubscribe s.client _) ▸ hnow) hnot
  | @nodeReads msg up hfree hhead =>
    cases msg with
    | subscribe topic => exact absurd hnow hnot
    | unsubscribe topic => exact absurd hnow hnot
  | publishes hhead =>
    rw [publish_eq] at hnow
    exact absurd hnow hnot
  | close => exact absurd hnow hnot
  | nodeAnswers hbusy => exact absurd hnow hnot
  | nodeForwards => exact absurd hnow hnot
  | commits => exact absurd hnow hnot
  | subscribeOffline hphase => cases hserving.symm.trans hphase
  | unsubscribeOffline hphase => cases hserving.symm.trans hphase
  | clientBuffers hphase => cases hserving.symm.trans hphase
  | drops => exact absurd rfl hmeets.2
  | dialFails hphase => cases hserving.symm.trans hphase
  | dials hphase => cases hserving.symm.trans hphase
  | resubscribeFails hphase => cases hserving.symm.trans hphase
  | syncs hphase => cases hserving.symm.trans hphase
  | navigates hphase => cases hserving.symm.trans hphase
  | syncFails hphase => cases hserving.symm.trans hphase
  | catchesUp hphase => cases hserving.symm.trans hphase
  | refused hphase => exact absurd hserving hphase

def sampleTopic : Topic := ⟨7, none⟩

theorem sample_answered : ∃ s : Sys Nat, Leads Step Undisturbed Sys.new s ∧
    s.phase = .serving ∧ s.down = [.topicOk sampleTopic 0] ∧ s.client.acked = [] ∧
    s.client.topics sampleTopic = some { subs := [0], pending := [0] } := by
  have hfirst : Undisturbed (Sys.new : Sys Nat) (.subscribe sampleTopic) := by
    refine ⟨fun _ _ => ⟨rfl, ?_, rfl, rfl⟩, by rintro ⟨⟩⟩
    simp [Sys.view, Sys.new]
  have hreads : ∀ s : Sys Nat, Undisturbed s .nodeReads := fun _ => ⟨trivial, by rintro ⟨⟩⟩
  have hanswers : ∀ s : Sys Nat, Undisturbed s .nodeAnswers := fun _ => ⟨trivial, by rintro ⟨⟩⟩
  have hsubscribed : Leads Step Undisturbed (Sys.new : Sys Nat) _ := .step .start hfirst (.subscribe rfl)
  have hread := hsubscribed.step (hreads _) (.nodeReads rfl rfl)
  have hanswered := hread.step (hanswers _) (.nodeAnswers rfl)
  exact ⟨_, hanswered, rfl, rfl, rfl, rfl⟩

theorem watch_acknowledged_live_sample : ∃ s' : Sys Nat,
    (0, sampleTopic) ∈ s'.client.acked ∧ ∃ st', Watched s' sampleTopic st' := by
  obtain ⟨s, hleads, hphase, hdown, hacked, htopics⟩ := sample_answered
  have hnow : (0, sampleTopic) ∈ (s.client.ackTopic sampleTopic 0).acked := by
    rw [Client.ackTopic, htopics]
    simp
  have hmeets : Undisturbed s .clientReads := ⟨trivial, by rintro ⟨⟩⟩
  have hstep : Step s .clientReads ({ s with down := [] }.clientTakes (.topicOk sampleTopic 0)) :=
    .clientReads hphase hdown
  obtain ⟨st', hwatched, -⟩ := watch_acknowledged_live hleads hmeets hstep hnow (by simp [hacked])
  exact ⟨_, hnow, st', hwatched⟩

def Stays (_ : Sys Nat) (action : Action Nat) : Prop := action ≠ .drops

theorem sample_live : ∃ s : Sys Nat, Leads Step Stays Sys.new s ∧ s.phase = .serving ∧ s.up = [] ∧
    s.down = [] ∧ s.publishing = [] ∧ s.watches = 1 ∧ s.session = { topics := {sampleTopic} } ∧
    s.log sampleTopic = [] ∧ s.client.acked = [(0, sampleTopic)] ∧ s.client.closed = [] ∧
    s.client.topics sampleTopic = some { live := true, subs := [0], cursor := some 0 } := by
  have hcommand : Stays Sys.new (.subscribe sampleTopic) := by rintro ⟨⟩
  have hnodeReads : ∀ s, Stays s .nodeReads := by rintro _ ⟨⟩
  have hnodeAnswers : ∀ s, Stays s .nodeAnswers := by rintro _ ⟨⟩
  have hclientReads : ∀ s, Stays s .clientReads := by rintro _ ⟨⟩
  have hsubscribed : Leads Step Stays Sys.new _ := .step .start hcommand (.subscribe rfl)
  have hread := hsubscribed.step (hnodeReads _) (.nodeReads rfl rfl)
  have hanswered := hread.step (hnodeAnswers _) (.nodeAnswers rfl)
  have hacked := hanswered.step (hclientReads _) (.clientReads rfl rfl)
  have hreported : Function.update (fun _ => 0) sampleTopic 0 = fun _ : Topic => 0 :=
    Function.update_eq_self _ _
  refine ⟨_, hacked, rfl, rfl, rfl, rfl, rfl, ?_, rfl, rfl, rfl, rfl⟩
  exact congrArg (fun r : Topic → Nat => ({ topics := {sampleTopic}, reported := r } : Session Nat)) hreported

-- The only watcher leaves and another comes before the answer to the unsubscribe. That
-- answer acknowledges it, and the node does not have the topic.
theorem watch_acknowledged_by_unsubscribe : ∃ s : Sys Nat, Leads Step Stays Sys.new s ∧
    (1, sampleTopic) ∈ s.client.acked ∧ sampleTopic ∉ s.session.topics ∧
      s.up = [.subscribe sampleTopic] := by
  obtain ⟨s, hlive, hphase, hup, hdown, -, hwatches, hsession, -, hacked, -, htopics⟩ := sample_live
  have hleave : Stays s (.unsubscribe sampleTopic 0) := by rintro ⟨⟩
  have hcommand : ∀ s, Stays s (.subscribe sampleTopic) := by rintro _ ⟨⟩
  have hnodeReads : ∀ s, Stays s .nodeReads := by rintro _ ⟨⟩
  have hclientReads : ∀ s, Stays s .clientReads := by rintro _ ⟨⟩
  have hleft := hlive.step hleave (.unsubscribe hphase)
  have hunsubscribe : s.client.unsubscribe sampleTopic 0 =
      (s.client.setTopic sampleTopic none, [.unsubscribe sampleTopic]) := by
    simp [Client.unsubscribe, htopics]
  rw [hunsubscribe, hup] at hleft
  have hreturned := hleft.step (hcommand _) (.subscribe hphase)
  have hcancelled := hreturned.step (hnodeReads _) (.nodeReads (by rw [hsession]) rfl)
  have hanswer : s.down ++ [ServerMsg.topicOk sampleTopic 0] = [.topicOk sampleTopic 0] := by
    rw [hdown]
    rfl
  have hstale := hcancelled.step (hclientReads _) (.clientReads hphase hanswer)
  refine ⟨_, hstale, ?_, Finset.notMem_erase _ _, ?_⟩
  · simp [Sys.clientTakes, Sys.nodeTakes, Client.ackTopic, Client.subscribe, Client.setTopic, hwatches]
  · simp [Sys.clientTakes, Sys.nodeTakes, Client.subscribe, Client.setTopic]

def sampleEvent : RecordEvent Nat := ⟨sampleTopic, ⟨0, 0, 0⟩, .removed 5, none, 0⟩

-- A second watch on a topic that has moved on since the node answered.
theorem watch_acknowledged_past_tail : ∃ s : Sys Nat, Leads Step Stays Sys.new s ∧
    (1, sampleTopic) ∈ s.client.acked ∧ s.session.reported sampleTopic = 0 ∧
      ((s.client.topics sampleTopic).bind (·.cursor)) = some 5 := by
  obtain ⟨s, hlive, hphase, -, hdown, hpublishing, hwatches, hsession, hlog, -, hclosed, htopics⟩ :=
    sample_live
  have hcommits : Stays s (.commits sampleEvent) := by rintro ⟨⟩
  have hpublishes : ∀ s, Stays s .publishes := by rintro _ ⟨⟩
  have hforwards : ∀ s, Stays s .nodeForwards := by rintro _ ⟨⟩
  have hclientReads : ∀ s, Stays s .clientReads := by rintro _ ⟨⟩
  have hcommand : ∀ s, Stays s (.subscribe sampleTopic) := by rintro _ ⟨⟩
  have htail : tailOf (s.log sampleEvent.topic) < 5 := by
    rw [show s.log sampleEvent.topic = [] from hlog]
    decide
  have hcommitted := hlive.step hcommits (.commits rfl htail)
  rw [hpublishing] at hcommitted
  have hpublished := hcommitted.step (hpublishes _) (.publishes rfl)
  rw [publish_eq, hsession] at hpublished
  have hforwarded := hpublished.step (hforwards _) (.nodeForwards rfl rfl)
  rw [hdown] at hforwarded
  have hreceived := hforwarded.step (hclientReads _) (.clientReads hphase rfl)
  have hjoined := hreceived.step (hcommand _) (.subscribe hphase)
  have hdeliver := deliver_eq (c := s.client) (e := sampleEvent) htopics rfl rfl
  have hpast : s.client.deliver sampleEvent =
      s.client.fanOut sampleEvent { live := true, subs := [0], cursor := some 5 } := by
    rw [hdeliver]
    rfl
  have htopics' : (s.client.deliver sampleEvent).topics sampleTopic =
      some { live := true, subs := [0], cursor := some 5 } := by
    rw [hpast]
    simp [Client.fanOut, Client.setTopic, hclosed, sampleEvent]
  refine ⟨_, hjoined, ?_, rfl, ?_⟩
  · simp [Sys.clientTakes, Client.subscribe, htopics', hwatches]
  · simp [Sys.clientTakes, Client.subscribe, htopics', Client.setTopic]

theorem watch_acknowledged_early_or_past_tail :
    (∃ s : Sys Nat, Leads Step Stays Sys.new s ∧ (1, sampleTopic) ∈ s.client.acked ∧
      sampleTopic ∉ s.session.topics ∧ s.up = [.subscribe sampleTopic]) ∧
    ∃ s : Sys Nat, Leads Step Stays Sys.new s ∧ (1, sampleTopic) ∈ s.client.acked ∧
      s.session.reported sampleTopic = 0 ∧ ((s.client.topics sampleTopic).bind (·.cursor)) = some 5 :=
  ⟨watch_acknowledged_by_unsubscribe, watch_acknowledged_past_tail⟩

end Acknowledged

end WaveDb.Watch
