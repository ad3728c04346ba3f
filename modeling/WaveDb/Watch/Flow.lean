import WaveDb.Watch.Linked

-- The way of a committed change to the client: what is on the way to a topic the
-- client has is the last part of the topic's log.
namespace WaveDb.Watch

open WaveDb.Lib WaveDb.Core WaveDb.Net

variable {B : Type} {s s' : Sys B} {t topic : Topic}

section Pipe

def stamp (e : RecordEvent B) : Nat := e.instant.getD 0

def Phase.buffered : Phase B → List (RecordEvent B)
  | .resubscribing buffered => buffered
  | .catchingUp buffered _ => buffered
  | _ => []

def eventOf : ServerMsg B → Option (RecordEvent B)
  | .topicOk _ _ => none
  | .event e => some e

def Sys.onTheWay (s : Sys B) : List (RecordEvent B) :=
  s.phase.buffered ++ s.down.filterMap eventOf ++ s.session.queue ++ s.publishing

def Sys.pipe (s : Sys B) (t : Topic) : List (RecordEvent B) := s.onTheWay.filter fun e => e.topic = t

def Sys.unpublished (s : Sys B) (t : Topic) : List (RecordEvent B) :=
  s.publishing.filter fun e => e.topic = t

theorem filterMap_eventOf_filter (down : List (ServerMsg B)) :
    (down.filterMap eventOf).filter (fun e => e.topic = t) =
      (down.filter fun msg => msg.topic = t).filterMap eventOf := by
  induction down with
  | nil => rfl
  | cons msg down ih =>
    cases msg with
    | topicOk topic tail =>
      have hskip : ∀ l : List (ServerMsg B), (.topicOk topic tail :: l).filterMap eventOf =
          l.filterMap eventOf := fun _ => rfl
      rw [hskip, List.filter_cons]
      split
      · rw [hskip, ih]
      · rw [ih]
    | event e =>
      have htake : ∀ l : List (ServerMsg B), (.event e :: l).filterMap eventOf =
          e :: l.filterMap eventOf := fun _ => rfl
      have htopic : (ServerMsg.event e).topic = e.topic := rfl
      rw [htake, List.filter_cons, List.filter_cons, htopic]
      split
      · rw [htake, ih]
      · exact ih

theorem pipe_eq : s.pipe t = s.phase.buffered.filter (fun e => e.topic = t) ++
    (s.view t).down.filterMap eventOf ++ (s.view t).queue ++ s.unpublished t := by
  simp only [Sys.pipe, Sys.onTheWay, List.filter_append, filterMap_eventOf_filter]
  rfl

end Pipe

theorem publish_eq (s : Sys B) (e : RecordEvent B) :
    s.publish e = { s with session := { s.session with
      queue := s.session.queue ++ if e.topic ∈ s.session.topics then [e] else [] } } := by
  rw [Sys.publish]
  split
  · rfl
  · rw [List.append_nil]

section Deliver

variable {c : Client B} {e : RecordEvent B} {st : TopicState} {cursor : Nat}

theorem deliver_eq (hst : c.topics e.topic = some st) (hcursor : st.cursor = some cursor)
    (hinstant : e.instant = some (stamp e)) :
    c.deliver e = if stamp e ≤ cursor then c else c.fanOut e { st with cursor := some (stamp e) } := by
  rw [Client.deliver, hst, hinstant]
  simp only [hcursor, Option.any_some, Option.elim_some, decide_eq_true_eq]
  split
  · rfl
  · rename_i hlater
    rw [max_eq_right (Nat.le_of_not_le hlater)]

end Deliver

section Invariant

structure Flow (s : Sys B) : Prop where
  logged : ∀ t, ∀ e ∈ s.log t, e.topic = t ∧ e.instant = some (stamp e)
  ordered : ∀ t, (s.log t).Pairwise fun a b => stamp a < stamp b
  published : ∀ t, s.unpublished t <:+ s.log t
  flows : s.phase.Connected → ∀ t st, s.client.topics t = some st → s.pipe t <:+ s.log t
  starts : s.phase.Connected → ∀ t st, s.client.topics t = some st → t ∉ s.session.topics →
    s.pipe t = s.unpublished t

theorem flow_new : Flow (Sys.new : Sys B) where
  logged _ _ he := by cases he
  ordered _ := .nil
  published _ := List.suffix_rfl
  flows _ _ _ hst := by cases hst
  starts _ _ _ hst := by cases hst

theorem Flow.keeps (h : Flow s) (hlog : s'.log = s.log) (hpublishing : s'.publishing = s.publishing)
    (hflows : s'.phase.Connected → ∀ t st, s'.client.topics t = some st → s'.pipe t <:+ s.log t)
    (hstarts : s'.phase.Connected → ∀ t st, s'.client.topics t = some st → t ∉ s'.session.topics →
      s'.pipe t = s.unpublished t) : Flow s' := by
  have hunpublished : ∀ t, s'.unpublished t = s.unpublished t := fun t => by
    rw [Sys.unpublished, hpublishing]
    rfl
  refine ⟨?_, ?_, fun t => ?_, fun hconn t st hst => ?_, fun hconn t st hst hnot => ?_⟩
  · rw [hlog]
    exact h.logged
  · rw [hlog]
    exact h.ordered
  · rw [hlog, hunpublished]
    exact h.published t
  · rw [hlog]
    exact hflows hconn t st hst
  · rw [hunpublished]
    exact hstarts hconn t st hst hnot

theorem Flow.stays (h : Flow s) (hlog : s'.log = s.log) (hpublishing : s'.publishing = s.publishing)
    (hconn : s'.phase.Connected → s.phase.Connected)
    (hback : ∀ t st', s'.client.topics t = some st' → ∃ st, s.client.topics t = some st)
    (hpipe : ∀ t, s'.pipe t = s.pipe t)
    (hsession : ∀ t st', s'.client.topics t = some st' → t ∈ s.session.topics → t ∈ s'.session.topics) :
    Flow s' := by
  refine h.keeps hlog hpublishing (fun hc t st' hst' => ?_) fun hc t st' hst' hnot => ?_
  · obtain ⟨st, hst⟩ := hback t st' hst'
    rw [hpipe]
    exact h.flows (hconn hc) t st hst
  · obtain ⟨st, hst⟩ := hback t st' hst'
    rw [hpipe]
    exact h.starts (hconn hc) t st hst fun hmem => hnot (hsession t st' hst' hmem)

theorem Flow.offline (h : Flow s) (hlog : s'.log = s.log) (hpublishing : s'.publishing = s.publishing)
    (hphase : ¬s'.phase.Connected) : Flow s' :=
  h.keeps hlog hpublishing (fun hconn => absurd hconn hphase) fun hconn => absurd hconn hphase

theorem stamp_le_tailOf {log : List (RecordEvent B)} {e : RecordEvent B} (he : e ∈ log) :
    stamp e ≤ tailOf log := by
  induction log with
  | nil => cases he
  | cons x log ih =>
    have hrest : tailOf log ≤ tailOf (x :: log) := by
      cases hx : x.instant with
      | none => simp [tailOf, hx]
      | some n => simp [tailOf, hx]
    rcases List.mem_cons.mp he with rfl | he
    · cases hx : e.instant with
      | none => simp [stamp, hx]
      | some n => simp [stamp, tailOf, hx]
    · exact (ih he).trans hrest

theorem Flow.commits (h : Flow s) {e : RecordEvent B} {instant : Nat} (hhas : e.instant = some instant)
    (hlater : tailOf (s.log e.topic) < instant) :
    Flow { s with
      log := Function.update s.log e.topic (s.log e.topic ++ [e])
      publishing := s.publishing ++ [e] } := by
  have hstamp : stamp e = instant := by rw [stamp, hhas, Option.getD_some]
  have hlog : ∀ t, (Function.update s.log e.topic (s.log e.topic ++ [e])) t =
      s.log t ++ [e].filter (fun e => e.topic = t) := by
    intro t
    by_cases ht : t = e.topic
    · subst ht
      simp
    · simp [ht, Ne.symm ht]
  refine ⟨fun t x hx => ?_, fun t => ?_, fun t => ?_, fun hconn t st hst => ?_, fun hconn t st hst hnot => ?_⟩
  · change x ∈ Function.update s.log e.topic (s.log e.topic ++ [e]) t at hx
    rw [hlog, List.mem_append] at hx
    rcases hx with hx | hx
    · exact h.logged t x hx
    · obtain ⟨hx, ht⟩ := List.mem_filter.mp hx
      rw [List.mem_singleton.mp hx] at ht ⊢
      exact ⟨of_decide_eq_true ht, by rw [hstamp, hhas]⟩
  · change List.Pairwise _ (Function.update s.log e.topic (s.log e.topic ++ [e]) t)
    rw [hlog, List.pairwise_append]
    refine ⟨h.ordered t, (List.pairwise_singleton _ e).filter _, fun a ha b hb => ?_⟩
    obtain ⟨hb, ht⟩ := List.mem_filter.mp hb
    rw [List.mem_singleton.mp hb] at ht ⊢
    have ht := of_decide_eq_true ht
    subst ht
    rw [hstamp]
    exact (stamp_le_tailOf ha).trans_lt hlater
  · change (s.publishing ++ [e]).filter _ <:+ Function.update s.log e.topic (s.log e.topic ++ [e]) t
    rw [hlog, List.filter_append]
    exact (List.suffix_append_self_iff).mpr (h.published t)
  · change (s.phase.buffered ++ s.down.filterMap eventOf ++ s.session.queue ++
      (s.publishing ++ [e])).filter _ <:+ Function.update s.log e.topic (s.log e.topic ++ [e]) t
    rw [hlog, ← List.append_assoc, List.filter_append]
    exact (List.suffix_append_self_iff).mpr (h.flows hconn t st hst)
  · have hstarts := h.starts hconn t st hst hnot
    change (s.phase.buffered ++ s.down.filterMap eventOf ++ s.session.queue ++
      (s.publishing ++ [e])).filter _ = (s.publishing ++ [e]).filter _
    rw [← List.append_assoc, List.filter_append, @List.filter_append _ _ s.publishing]
    exact congrArg (· ++ [e].filter fun x => decide (x.topic = t)) hstarts

theorem Flow.publish (h : Flow s) {e : RecordEvent B} {publishing : List (RecordEvent B)}
    (hhead : s.publishing = e :: publishing) : Flow ({ s with publishing := publishing }.publish e) := by
  have hunpublished : ∀ t, publishing.filter (fun e => e.topic = t) <:+ s.unpublished t := fun t => by
    rw [Sys.unpublished, hhead]
    exact (List.suffix_cons e publishing).filter _
  rw [Sys.publish]
  split
  · rename_i hmem
    refine ⟨h.logged, h.ordered, fun t => (hunpublished t).trans (h.published t), fun hconn t st hst => ?_,
      fun hconn t st hst hnot => ?_⟩
    · have hflows := h.flows hconn t st hst
      rw [Sys.pipe, Sys.onTheWay, hhead] at hflows
      change (s.phase.buffered ++ s.down.filterMap eventOf ++ (s.session.queue ++ [e]) ++
        publishing).filter _ <:+ s.log t
      simpa only [List.append_assoc, List.cons_append, List.nil_append] using hflows
    · have hne : e.topic ≠ t := fun ht => hnot (ht ▸ hmem)
      have hstarts := h.starts hconn t st hst hnot
      rw [Sys.pipe, Sys.onTheWay, Sys.unpublished, hhead] at hstarts
      change (s.phase.buffered ++ s.down.filterMap eventOf ++ (s.session.queue ++ [e]) ++
        publishing).filter _ = publishing.filter _
      simpa [List.filter_append, hne] using hstarts
  · rename_i hmem
    have hrest : s.phase.Connected → ∀ t st, s.client.topics t = some st → t ∉ s.session.topics →
        ({ s with publishing := publishing } : Sys B).pipe t = publishing.filter fun e => e.topic = t := by
      intro hconn t st hst hnot
      have hstarts := h.starts hconn t st hst hnot
      rw [Sys.pipe, Sys.onTheWay, Sys.unpublished, List.filter_append] at hstarts
      rw [Sys.pipe, Sys.onTheWay, List.filter_append]
      rw [List.append_left_eq_self] at hstarts
      change _ ++ _ = _
      rw [List.append_left_eq_self]
      exact hstarts
    refine ⟨h.logged, h.ordered, fun t => (hunpublished t).trans (h.published t), fun hconn t st hst => ?_, hrest⟩
    by_cases ht : e.topic = t
    · subst ht
      rw [hrest hconn e.topic st hst hmem]
      exact (hunpublished e.topic).trans (h.published e.topic)
    · have hflows := h.flows hconn t st hst
      rw [Sys.pipe, Sys.onTheWay, hhead] at hflows
      change (s.phase.buffered ++ s.down.filterMap eventOf ++ s.session.queue ++
        publishing).filter _ <:+ s.log t
      simpa [List.filter_append, ht] using hflows

theorem pipe_of_still (hserving : s.phase = .serving) (hstill : (s.view t).Still) :
    s.pipe t = s.unpublished t := by
  obtain ⟨-, -, hdown, hqueue⟩ := hstill
  rw [pipe_eq, hserving, hdown, hqueue]
  rfl

theorem topics_subscribe_of_ne {c : Client B} {watch : Nat} (ht : t ≠ topic) :
    (c.subscribe topic watch).1.topics t = c.topics t := by
  rw [Client.subscribe]
  simp only
  split
  · exact topics_setTopic.trans (if_neg ht)
  · exact topics_setTopic.trans (if_neg ht)

theorem topics_subscribe_back {c : Client B} {watch : Nat} {st' : TopicState}
    (hst' : (c.subscribe topic watch).1.topics t = some st') :
    (∃ st, c.topics t = some st ∧ st.live = st'.live ∧ st.cursor = st'.cursor) ∨
      (t = topic ∧ c.topics t = none ∧ st'.live = false) := by
  by_cases ht : t = topic
  · subst ht
    have hkept : st'.live = ((c.topics t).getD {}).live ∧ st'.cursor = ((c.topics t).getD {}).cursor := by
      rw [Client.subscribe] at hst'
      simp only at hst'
      split at hst'
      · rw [topics_setTopic, if_pos rfl, Option.some.injEq] at hst'
        subst hst'
        exact ⟨rfl, rfl⟩
      · change (Client.setTopic _ t _).topics t = _ at hst'
        rw [topics_setTopic, if_pos rfl, Option.some.injEq] at hst'
        subst hst'
        exact ⟨rfl, rfl⟩
    cases hstate : c.topics t with
    | none =>
      rw [hstate] at hkept
      exact .inr ⟨rfl, rfl, hkept.1⟩
    | some st =>
      rw [hstate] at hkept
      exact .inl ⟨st, rfl, hkept.1.symm, hkept.2.symm⟩
  · exact .inl ⟨st', (topics_subscribe_of_ne ht).symm.trans hst', rfl, rfl⟩

theorem topics_unsubscribe_back {c : Client B} {watch : Nat} {st' : TopicState}
    (hst' : (c.unsubscribe topic watch).1.topics t = some st') :
    ∃ st, c.topics t = some st ∧ st.live = st'.live ∧ st.cursor = st'.cursor := by
  rw [Client.unsubscribe] at hst'
  cases hstate : c.topics topic with
  | none =>
    rw [hstate] at hst'
    exact ⟨st', hst', rfl, rfl⟩
  | some st =>
    rw [hstate] at hst'
    simp only at hst'
    split at hst'
    · rw [topics_setTopic] at hst'
      split at hst'
      · cases hst'
      · exact ⟨st', hst', rfl, rfl⟩
    · rw [topics_setTopic] at hst'
      split at hst'
      · rename_i ht
        rw [Option.some.injEq] at hst'
        subst hst'
        exact ⟨st, ht ▸ hstate, rfl, rfl⟩
      · exact ⟨st', hst', rfl, rfl⟩

theorem topics_ackTopic_back {c : Client B} {tail : Nat} {st' : TopicState}
    (hst' : (c.ackTopic topic tail).topics t = some st') : ∃ st, c.topics t = some st := by
  rw [topics_ackTopic] at hst'
  split at hst'
  · obtain ⟨st, hst, -⟩ := Option.map_eq_some_iff.mp hst'
    exact ⟨st, hst⟩
  · exact ⟨st', hst'⟩

theorem Flow.subscribe (h : Flow s) (hserving : s.phase = .serving)
    (hpatient : s.client.topics topic = none → (s.view topic).Still) :
    Flow { s with
      client := (s.client.subscribe topic s.watches).1
      up := s.up ++ (s.client.subscribe topic s.watches).2
      watches := s.watches + 1 } := by
  have hconn : s.phase.Connected := by rw [hserving]; trivial
  have hcases : ∀ t st', (s.client.subscribe topic s.watches).1.topics t = some st' →
      (∃ st, s.client.topics t = some st) ∨ (s.view t).Still := by
    intro t st' hst'
    rcases topics_subscribe_back hst' with ⟨st, hst, -⟩ | ⟨rfl, hnone, -⟩
    · exact .inl ⟨st, hst⟩
    · exact .inr (hpatient hnone)
  refine h.keeps rfl rfl (fun _ t st' hst' => ?_) fun _ t st' hst' hnot => ?_
  · rcases hcases t st' hst' with ⟨st, hst⟩ | hstill
    · exact h.flows hconn t st hst
    · exact (pipe_of_still hserving hstill) ▸ h.published t
  · rcases hcases t st' hst' with ⟨st, hst⟩ | hstill
    · exact h.starts hconn t st hst hnot
    · exact (pipe_of_still hserving hstill :)

theorem View.Linked.subscribed_of_live {v : View B} (h : v.Linked t) {st : TopicState}
    (hst : v.state = some st) (hlive : st.live = true) : v.subscribed := by
  cases h with
  | idle hs hu ha hb hd => simp [hs] at hst
  | leaving hs hu ha hb hd => simp [hs] at hst
  | left hs hu ha hb hd => simp [hs] at hst
  | asked st' hs hw hu ha hb hd hq =>
    rw [hs, Option.some.injEq] at hst
    rw [hst, hlive] at hw
    cases hw
  | reading st' hs hw hu ha hb hd => exact hb
  | answered st' hs hw hu ha hb hd => exact hb
  | live st' hs hw hu ha hb hd => exact hb

theorem View.Linked.waits_of_ok {v : View B} (h : v.Linked t) {tail : Nat} {down : List (ServerMsg B)}
    (hdown : v.down = .topicOk t tail :: down) {st : TopicState} (hst : v.state = some st) :
    st.live = false := by
  cases hlive : st.live with
  | false => rfl
  | true =>
    cases h with
    | idle hs hu ha hb hd => simp [hs] at hst
    | leaving hs hu ha hb hd => simp [hs] at hst
    | left hs hu ha hb hd => simp [hs] at hst
    | asked st' hs hw hu ha hb hd hq => simp [hd] at hdown
    | reading st' hs hw hu ha hb hd => simp [hd] at hdown
    | answered st' hs hw hu ha hb hd =>
      rw [hs, Option.some.injEq] at hst
      exact Bool.noConfusion (hlive.symm.trans (hst ▸ hw))
    | live st' hs hw hu ha hb hd =>
      have hhead : ServerMsg.isEvent (.topicOk t tail : ServerMsg B) = true :=
        hd _ (hdown ▸ List.mem_cons_self)
      exact Bool.noConfusion hhead

theorem View.Linked.state_of_unsubscribe {v : View B} (h : v.Linked t) {up : List ClientMsg}
    (hup : v.up = .unsubscribe t :: up) : v.state = none := by
  cases h with
  | idle hs hu ha hb hd => exact hs
  | leaving hs hu ha hb hd => exact hs
  | left hs hu ha hb hd => exact hs
  | asked st' hs hw hu ha hb hd hq => simp [hu] at hup
  | reading st' hs hw hu ha hb hd => simp [hu] at hup
  | answered st' hs hw hu ha hb hd => simp [hu] at hup
  | live st' hs hw hu ha hb hd => simp [hu] at hup

theorem Flow.nodeTakes (h : Flow s) (hjoined : Joined s) {msg : ClientMsg} {up : List ClientMsg}
    (hhead : s.up = msg :: up) : Flow ({ s with up := up }.nodeTakes msg) := by
  cases msg with
  | subscribe topic =>
    exact h.stays rfl rfl id (fun t st' hst' => ⟨st', hst'⟩) (fun t => rfl)
      fun t st' hst' hmem => Finset.mem_insert_of_mem hmem
  | unsubscribe topic =>
    by_cases hconn : s.phase.Connected
    · refine h.stays rfl rfl id (fun t st' hst' => ⟨st', hst'⟩) (fun t => ?_)
        fun t st' hst' hmem => Finset.mem_erase.mpr ⟨fun ht => ?_, hmem⟩
      · simp [Sys.pipe, Sys.onTheWay, Sys.nodeTakes, eventOf]
      · subst ht
        have hup : (s.view t).up = .unsubscribe t :: up.filter fun msg => msg.topic = t := by
          simp [Sys.view, hhead, ClientMsg.topic]
        have hnone := (hjoined.linked hconn t).state_of_unsubscribe hup
        cases hnone.symm.trans hst'
    · exact h.offline rfl rfl hconn

theorem pipe_down {msg : ServerMsg B} {down : List (ServerMsg B)} (hhead : s.down = msg :: down)
    (hbuffered : s.phase.buffered = []) :
    s.pipe t = ((eventOf msg).toList.filter fun e => e.topic = t) ++ { s with down := down }.pipe t := by
  simp only [Sys.pipe, Sys.onTheWay, hhead, hbuffered, List.nil_append]
  cases msg with
  | topicOk topic tail => rfl
  | event e =>
    change (e :: (down.filterMap eventOf ++ s.session.queue ++ s.publishing)).filter _ =
      [e].filter _ ++ _
    rw [← List.singleton_append, List.filter_append]

theorem Flow.takesEvent (h : Flow s) (hjoined : Joined s) {e : RecordEvent B} {down : List (ServerMsg B)}
    (hserving : s.phase = .serving) (hhead : s.down = .event e :: down) :
    Flow ({ s with down := down }.clientTakes (.event e)) := by
  have hconn : s.phase.Connected := by rw [hserving]; trivial
  have hbuffered : s.phase.buffered = [] := by rw [hserving]; rfl
  have hpipe : ∀ t, { s with down := down }.pipe t <:+ s.pipe t := fun t => by
    rw [pipe_down hhead hbuffered]
    exact List.suffix_append _ _
  refine h.keeps rfl rfl (fun _ t st' hst' => ?_) fun _ t st' hst' hnot => ?_
  · obtain ⟨st, hst, -⟩ := (Client.moves_deliver e).back hst'
    exact (hpipe t).trans (h.flows hconn t st hst)
  · obtain ⟨st, hst, -⟩ := (Client.moves_deliver e).back hst'
    have hstarts := h.starts hconn t st hst hnot
    by_cases ht : t = e.topic
    · -- The node has the topic, as the client is served its events.
      subst ht
      have hlinked := hjoined.linked hconn e.topic
      exact absurd (hlinked.subscribed_of_live hst (hlinked.live_of_event (view_down_self hhead) hst)) hnot
    · rw [pipe_down hhead hbuffered] at hstarts
      change { s with down := down }.pipe t = s.unpublished t
      simpa [eventOf, Ne.symm ht] using hstarts

theorem Flow.catchesUp (h : Flow s) (hjoined : Joined s) {buffered : List (RecordEvent B)}
    {reply : SyncReply B} (hphase : s.phase = .catchingUp buffered (some reply)) :
    Flow (s.caughtUp buffered reply) := by
  have hconn : s.phase.Connected := by rw [hphase]; trivial
  have hmoves : s.client.Moves (s.caughtUp buffered reply).client :=
    ((Client.moves_delivers reply.events).trans (Client.moves_raises reply.cursors)).trans
      (Client.moves_delivers buffered)
  refine h.keeps rfl rfl (fun _ t st' hst' => ?_) fun _ t st' hst' hnot => ?_
  · obtain ⟨st, hst, -⟩ := hmoves.back hst'
    have hpipe : (s.caughtUp buffered reply).pipe t <:+ s.pipe t := by
      simp only [Sys.pipe, Sys.onTheWay, hphase, List.append_assoc]
      exact (List.suffix_append _ _).filter _
    exact hpipe.trans (h.flows hconn t st hst)
  · obtain ⟨st, hst, -⟩ := hmoves.back hst'
    have hlive := hjoined.caught buffered (some reply) hphase t st hst
    exact absurd ((hjoined.linked hconn t).subscribed_of_live hst hlive) hnot

theorem Flow.step {a : Action B} (h : Flow s) (hjoined : Joined s) (hpatient : Patient s a)
    (hstep : Step s a s') : Flow s' := by
  cases hstep with
  | subscribe hphase => exact h.subscribe hphase (hpatient hphase)
  | unsubscribe hphase =>
    refine h.stays rfl rfl id (fun t st' hst' => ?_) (fun t => rfl) fun t st' hst' hmem => hmem
    obtain ⟨st, hst, -⟩ := topics_unsubscribe_back hst'
    exact ⟨st, hst⟩
  | subscribeOffline hphase => exact h.offline rfl rfl (by simp [hphase, Phase.Connected])
  | unsubscribeOffline hphase => exact h.offline rfl rfl (by simp [hphase, Phase.Connected])
  | close =>
    exact h.stays rfl rfl id (fun t st' hst' => ⟨st', hst'⟩) (fun t => rfl) fun t st' hst' hmem => hmem
  | nodeReads hfree hhead => exact h.nodeTakes hjoined hhead
  | nodeAnswers hbusy =>
    refine h.stays rfl rfl id (fun t st' hst' => ⟨st', hst'⟩) (fun t => ?_) fun t st' hst' hmem => hmem
    simp [Sys.pipe, Sys.onTheWay, Sys.nodeAnswers, eventOf]
  | nodeForwards hfree hhead =>
    refine h.stays rfl rfl id (fun t st' hst' => ⟨st', hst'⟩) (fun t => ?_) fun t st' hst' hmem => hmem
    simp [Sys.pipe, Sys.onTheWay, hhead, eventOf]
  | commits hhas hlater => exact h.commits hhas hlater
  | publishes hhead => exact h.publish hhead
  | @clientReads msg down hphase hhead =>
    cases msg with
    | topicOk topic tail =>
      refine h.stays rfl rfl id (fun t st' hst' => topics_ackTopic_back hst') (fun t => ?_)
        fun t st' hst' hmem => hmem
      exact (pipe_down hhead (by rw [hphase]; rfl)).symm
    | event e => exact h.takesEvent hjoined hphase hhead
  | @clientBuffers msg down buffered hphase hhead =>
    cases msg with
    | topicOk topic tail =>
      refine h.stays rfl rfl id (fun t st' hst' => topics_ackTopic_back hst') (fun t => ?_)
        fun t st' hst' hmem => hmem
      simp only [Sys.pipe, Sys.onTheWay, hhead]
      rfl
    | event e =>
      refine h.stays rfl rfl (fun _ => by rw [hphase]; trivial) (fun t st' hst' => ⟨st', hst'⟩)
        (fun t => ?_) fun t st' hst' hmem => hmem
      simp [Sys.pipe, Sys.onTheWay, Sys.clientBuffers, hhead, hphase, Phase.buffered, eventOf]
  | drops => exact h.offline rfl rfl id
  | dialFails => exact h
  | dials hphase honce hall =>
    exact h.keeps rfl rfl (fun _ t st _ => h.published t) fun _ t st _ _ => rfl
  | resubscribeFails => exact h.offline rfl rfl id
  | syncs hphase hlive =>
    refine h.stays rfl rfl (fun _ => by rw [hphase]; trivial) (fun t st' hst' => ⟨st', hst'⟩)
      (fun t => ?_) fun t st' hst' hmem => hmem
    simp [Sys.pipe, Sys.onTheWay, hphase, Phase.buffered]
  | navigates hphase =>
    refine h.stays rfl rfl (fun _ => by rw [hphase]; trivial) (fun t st' hst' => ⟨st', hst'⟩)
      (fun t => ?_) fun t st' hst' hmem => hmem
    simp [Sys.pipe, Sys.onTheWay, hphase, Phase.buffered]
  | syncFails => exact h.offline rfl rfl id
  | catchesUp hphase => exact h.catchesUp hjoined hphase
  | refused => exact h.offline rfl rfl id

end Invariant

section Runs

-- Over every run, with connections lost and dialed again: what is on its way to a
-- client is the last part of the log, each change once and in order, and the node
-- holds every topic that is live.
theorem changes_on_the_way (h : Leads Step Patient Sys.new s) (hconn : s.phase.Connected) {st : TopicState}
    (hst : s.client.topics t = some st) :
    s.pipe t <:+ s.log t ∧ (s.pipe t).Pairwise (fun a b => stamp a < stamp b) ∧
      (st.live = true → t ∈ s.session.topics) := by
  have hinv : Joined s ∧ Flow s := by
    clear hconn hst
    induction h with
    | start => exact ⟨joined_new, flow_new⟩
    | step _ hpatient hnext ih => exact ⟨ih.1.step hpatient hnext, ih.2.step ih.1 hpatient hnext⟩
  have hsuffix := hinv.2.flows hconn t st hst
  exact ⟨hsuffix, (hinv.2.ordered t).sublist hsuffix.sublist, (hinv.1.linked hconn t).subscribed_of_live hst⟩

theorem changes_on_the_way_sample : ∃ s : Sys Nat, ∃ e,
    s.pipe ⟨7, none⟩ = [e] ∧ s.pipe ⟨7, none⟩ <:+ s.log ⟨7, none⟩ := by
  have hstill : Patient (Sys.new : Sys Nat) (.subscribe ⟨7, none⟩) := fun _ _ => ⟨rfl, by rintro ⟨⟩, rfl, rfl⟩
  have hwatched : Leads Step Patient (Sys.new : Sys Nat) _ := .step .start hstill (.subscribe rfl)
  have hcommitted := hwatched.step (show Patient _ (.commits ⟨⟨7, none⟩, ⟨0, 0, 0⟩, .removed 5, none, 0⟩) from trivial)
    (.commits rfl (show (0 : Nat) < 5 by decide))
  exact ⟨_, _, rfl, (changes_on_the_way hcommitted trivial rfl).1⟩

end Runs

end WaveDb.Watch
