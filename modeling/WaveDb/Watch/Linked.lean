import WaveDb.Watch.Connection

-- What client and node know of a topic, and the messages about it on the way:
-- at most one request or answer is outstanding.
namespace WaveDb.Watch

open WaveDb.Lib WaveDb.Core WaveDb.Net

variable {B : Type} {s s' : Sys B} {t topic : Topic}

section View

structure View (B : Type) where
  state : Option TopicState
  up : List ClientMsg
  answering : Prop
  subscribed : Prop
  down : List (ServerMsg B)
  queue : List (RecordEvent B)
  reported : Nat

def Sys.view (s : Sys B) (t : Topic) : View B where
  state := s.client.topics t
  up := s.up.filter fun msg => msg.topic = t
  answering := s.session.answering = some t
  subscribed := t ∈ s.session.topics
  down := s.down.filter fun msg => msg.topic = t
  queue := s.session.queue.filter fun e => e.topic = t
  reported := s.session.reported t

def ServerMsg.isEvent : ServerMsg B → Bool
  | .topicOk _ _ => false
  | .event _ => true

def Events (down : List (ServerMsg B)) : Prop := ∀ msg ∈ down, ServerMsg.isEvent msg = true

-- Every point a topic can be at on a connection. Events come in only after the
-- answer to the subscribe.
inductive View.Linked (t : Topic) (v : View B) : Prop
  | idle (state : v.state = none) (up : v.up = []) (answering : ¬v.answering)
      (subscribed : ¬v.subscribed) (down : Events v.down)
  | leaving (state : v.state = none) (up : v.up = [.unsubscribe t]) (answering : ¬v.answering)
      (subscribed : v.subscribed) (down : Events v.down)
  | left (state : v.state = none) (up : v.up = []) (answering : ¬v.answering)
      (subscribed : ¬v.subscribed)
      (down : ∃ a b, v.down = a ++ .topicOk t 0 :: b ∧ Events a ∧ Events b)
  | asked (st : TopicState) (state : v.state = some st) (waits : st.live = false)
      (up : v.up = [.subscribe t]) (answering : ¬v.answering) (subscribed : ¬v.subscribed)
      (down : v.down = []) (queue : v.queue = [])
  | reading (st : TopicState) (state : v.state = some st) (waits : st.live = false) (up : v.up = [])
      (answering : v.answering) (subscribed : v.subscribed) (down : v.down = [])
  | answered (st : TopicState) (state : v.state = some st) (waits : st.live = false) (up : v.up = [])
      (answering : ¬v.answering) (subscribed : v.subscribed)
      (down : ∃ rest, v.down = .topicOk t v.reported :: rest ∧ Events rest)
  | live (st : TopicState) (state : v.state = some st) (live : st.live = true) (up : v.up = [])
      (answering : ¬v.answering) (subscribed : v.subscribed) (down : Events v.down)

def View.Still (v : View B) : Prop :=
  v.up = [] ∧ ¬v.answering ∧ v.down = [] ∧ v.queue = []

-- A topic is subscribed anew on a served connection only when nothing about
-- it is on its way.
def Patient (s : Sys B) : Action B → Prop
  | .subscribe topic => s.phase = .serving → s.client.topics topic = none → (s.view topic).Still
  | _ => True

theorem events_append {a b : List (ServerMsg B)} : Events (a ++ b) ↔ Events a ∧ Events b :=
  List.forall_mem_append

theorem events_nil : Events ([] : List (ServerMsg B)) := by simp [Events]

end View

section Client

variable {c : Client B}

theorem topics_setTopic {state : Option TopicState} :
    (c.setTopic topic state).topics t = if t = topic then state else c.topics t := by
  by_cases ht : t = topic
  · subst ht
    simp [Client.setTopic]
  · simp [Client.setTopic, ht]

structure TopicState.Moves (st st' : TopicState) : Prop where
  live : st'.live = st.live
  pending : st'.pending = st.pending
  cursor : ∀ c, st.cursor = some c → ∃ c', st'.cursor = some c' ∧ c ≤ c'

theorem TopicState.Moves.refl (st : TopicState) : st.Moves st :=
  ⟨rfl, rfl, fun c hc => ⟨c, hc, le_rfl⟩⟩

theorem TopicState.Moves.trans {st st' st'' : TopicState} (h : st.Moves st') (h' : st'.Moves st'') :
    st.Moves st'' := by
  refine ⟨h'.live.trans h.live, h'.pending.trans h.pending, fun c hc => ?_⟩
  obtain ⟨c', hc', hle⟩ := h.cursor c hc
  obtain ⟨c'', hc'', hle'⟩ := h'.cursor c' hc'
  exact ⟨c'', hc'', hle.trans hle'⟩

theorem TopicState.moves_raise (st : TopicState) (subs : List Nat) (c : Nat) :
    st.Moves { st with subs := subs, cursor := some (st.cursor.elim c (max · c)) } := by
  refine ⟨rfl, rfl, fun c₀ hc₀ => ⟨_, rfl, ?_⟩⟩
  rw [hc₀]
  exact le_max_left _ _

structure Client.Moves (c c' : Client B) : Prop where
  topics : ∀ t, Option.Rel TopicState.Moves (c.topics t) (c'.topics t)
  acked : c'.acked = c.acked
  since : c'.since = c.since

theorem Client.Moves.refl (c : Client B) : c.Moves c := by
  refine ⟨fun t => ?_, rfl, rfl⟩
  cases c.topics t with
  | none => exact .none
  | some st => exact .some (.refl st)

theorem Client.Moves.lives {c c' : Client B} (h : c.Moves c') (t : Topic) :
    Option.Rel (fun st st' : TopicState => st'.live = st.live) (c.topics t) (c'.topics t) := by
  have ht := h.topics t
  generalize c.topics t = o at ht
  generalize c'.topics t = o' at ht
  cases ht with
  | none => exact .none
  | some hone => exact .some hone.live

theorem Client.Moves.trans {c c' c'' : Client B} (h : c.Moves c') (h' : c'.Moves c'') : c.Moves c'' := by
  refine ⟨fun t => ?_, h'.acked.trans h.acked, h'.since.trans h.since⟩
  have ht := h.topics t
  have ht' := h'.topics t
  generalize c.topics t = o at ht
  generalize c'.topics t = o' at ht ht'
  generalize c''.topics t = o'' at ht'
  cases ht with
  | none => exact ht'
  | some hone =>
    cases ht' with
    | some hone' => exact .some (hone.trans hone')

theorem Client.moves_setTopic {st st' : TopicState} (hstate : c.topics topic = some st)
    (h : st.Moves st') (inbox : Nat → List (RecordEvent B)) :
    c.Moves { c.setTopic topic (some st') with inbox := inbox } := by
  refine ⟨fun t => ?_, rfl, rfl⟩
  change Option.Rel _ _ ((c.setTopic topic (some st')).topics t)
  rw [topics_setTopic]
  split
  · rename_i ht
    rw [ht, hstate]
    exact .some h
  · exact (Client.Moves.refl c).topics t

theorem Client.moves_fanOut {e : RecordEvent B} {st st' : TopicState}
    (hstate : c.topics e.topic = some st) (h : st.Moves st') : c.Moves (c.fanOut e st') := by
  have hpruned : st.Moves { st' with subs := st'.subs.filter (· ∉ c.closed) } :=
    ⟨h.live, h.pending, h.cursor⟩
  exact Client.moves_setTopic hstate hpruned _

theorem Client.moves_deliver (e : RecordEvent B) : c.Moves (c.deliver e) := by
  rw [Client.deliver]
  cases hstate : c.topics e.topic with
  | none => exact .refl c
  | some st =>
    cases e.instant with
    | none => exact Client.moves_fanOut hstate (.refl st)
    | some instant =>
      simp only
      split
      · exact .refl c
      · exact Client.moves_fanOut hstate (st.moves_raise st.subs instant)

theorem Client.moves_raise (cursor : Nat) : c.Moves (c.raise topic cursor) := by
  rw [Client.raise]
  cases hstate : c.topics topic with
  | none => exact .refl c
  | some st => exact c.moves_setTopic hstate (st.moves_raise st.subs cursor) c.inbox

theorem Client.moves_delivers (events : List (RecordEvent B)) : c.Moves (events.foldl Client.deliver c) := by
  induction events generalizing c with
  | nil => exact .refl c
  | cons e events ih => exact (Client.moves_deliver e).trans ih

theorem Client.moves_raises (cursors : List (Topic × Nat)) :
    c.Moves (cursors.foldl (fun c x => c.raise x.1 x.2) c) := by
  induction cursors generalizing c with
  | nil => exact .refl c
  | cons x cursors ih => exact (Client.moves_raise x.2).trans ih

end Client

section Steps

variable {v : View B}

theorem View.Linked.restate (h : v.Linked t) {state : Option TopicState}
    (hstate : Option.Rel (fun st st' : TopicState => st'.live = st.live) v.state state) :
    { v with state := state }.Linked t := by
  have hnone : v.state = none → state = none := by
    intro hn
    rw [hn] at hstate
    cases hstate
    rfl
  have hsome : ∀ st, v.state = some st → ∃ st', state = some st' ∧ st'.live = st.live := by
    intro st hs
    rw [hs] at hstate
    cases hstate with
    | some hlive => exact ⟨_, rfl, hlive⟩
  cases h with
  | idle hs hu ha hb hd => exact .idle (hnone hs) hu ha hb hd
  | leaving hs hu ha hb hd => exact .leaving (hnone hs) hu ha hb hd
  | left hs hu ha hb hd => exact .left (hnone hs) hu ha hb hd
  | asked st hs hw hu ha hb hd hq =>
    obtain ⟨st', hst', hlive⟩ := hsome st hs
    exact .asked st' hst' (hlive.trans hw) hu ha hb hd hq
  | reading st hs hw hu ha hb hd =>
    obtain ⟨st', hst', hlive⟩ := hsome st hs
    exact .reading st' hst' (hlive.trans hw) hu ha hb hd
  | answered st hs hw hu ha hb hd =>
    obtain ⟨st', hst', hlive⟩ := hsome st hs
    exact .answered st' hst' (hlive.trans hw) hu ha hb hd
  | live st hs hw hu ha hb hd =>
    obtain ⟨st', hst', hlive⟩ := hsome st hs
    exact .live st' hst' (hlive.trans hw) hu ha hb hd

theorem View.Linked.takesSubscribe (h : v.Linked t) {up : List ClientMsg}
    (hup : v.up = .subscribe t :: up) :
    { v with up := up, answering := True, subscribed := True }.Linked t := by
  cases h with
  | asked st hs hw hu ha hb hd hq =>
    rw [hu, List.cons.injEq] at hup
    exact .reading st hs hw hup.2.symm trivial trivial hd
  | idle hs hu ha hb hd => simp [hu] at hup
  | leaving hs hu ha hb hd => simp [hu] at hup
  | left hs hu ha hb hd => simp [hu] at hup
  | reading st hs hw hu ha hb hd => simp [hu] at hup
  | answered st hs hw hu ha hb hd => simp [hu] at hup
  | live st hs hw hu ha hb hd => simp [hu] at hup

theorem View.Linked.takesUnsubscribe (h : v.Linked t) {up : List ClientMsg}
    (hup : v.up = .unsubscribe t :: up) :
    { v with up := up, subscribed := False, down := v.down ++ [ServerMsg.topicOk t 0] }.Linked t := by
  cases h with
  | leaving hs hu ha hb hd =>
    rw [hu, List.cons.injEq] at hup
    exact .left hs hup.2.symm ha not_false ⟨v.down, [], rfl, hd, events_nil⟩
  | idle hs hu ha hb hd => simp [hu] at hup
  | left hs hu ha hb hd => simp [hu] at hup
  | asked st hs hw hu ha hb hd hq => simp [hu] at hup
  | reading st hs hw hu ha hb hd => simp [hu] at hup
  | answered st hs hw hu ha hb hd => simp [hu] at hup
  | live st hs hw hu ha hb hd => simp [hu] at hup

theorem View.Linked.answers (h : v.Linked t) (hbusy : v.answering) (tail : Nat) :
    { v with answering := False, down := v.down ++ [ServerMsg.topicOk t tail], reported := tail }.Linked t := by
  cases h with
  | reading st hs hw hu ha hb hd =>
    refine .answered st hs hw hu not_false hb ⟨[], ?_, events_nil⟩
    simp [hd]
  | idle hs hu ha hb hd => exact absurd hbusy ha
  | leaving hs hu ha hb hd => exact absurd hbusy ha
  | left hs hu ha hb hd => exact absurd hbusy ha
  | asked st hs hw hu ha hb hd hq => exact absurd hbusy ha
  | answered st hs hw hu ha hb hd => exact absurd hbusy ha
  | live st hs hw hu ha hb hd => exact absurd hbusy ha

theorem View.Linked.forwards (h : v.Linked t) (hfree : ¬v.answering) {e : RecordEvent B}
    {queue : List (RecordEvent B)} (hqueue : v.queue = e :: queue) :
    { v with queue := queue, down := v.down ++ [ServerMsg.event e] }.Linked t := by
  have hone : Events [(.event e : ServerMsg B)] := by simp [Events, ServerMsg.isEvent]
  cases h with
  | idle hs hu ha hb hd => exact .idle hs hu ha hb (events_append.mpr ⟨hd, hone⟩)
  | leaving hs hu ha hb hd => exact .leaving hs hu ha hb (events_append.mpr ⟨hd, hone⟩)
  | left hs hu ha hb hd =>
    obtain ⟨a, b, hab, hea, heb⟩ := hd
    refine .left hs hu ha hb ⟨a, b ++ [.event e], ?_, hea, events_append.mpr ⟨heb, hone⟩⟩
    simp [hab]
  | asked st hs hw hu ha hb hd hq => simp [hq] at hqueue
  | reading st hs hw hu ha hb hd => exact absurd ha hfree
  | answered st hs hw hu ha hb hd =>
    obtain ⟨rest, hrest, hev⟩ := hd
    refine .answered st hs hw hu ha hb ⟨rest ++ [.event e], ?_, events_append.mpr ⟨hev, hone⟩⟩
    simp [hrest]
  | live st hs hw hu ha hb hd => exact .live st hs hw hu ha hb (events_append.mpr ⟨hd, hone⟩)

theorem View.Linked.queues (h : v.Linked t) (hsub : v.subscribed) (queue : List (RecordEvent B)) :
    { v with queue := queue }.Linked t := by
  cases h with
  | idle hs hu ha hb hd => exact .idle hs hu ha hb hd
  | leaving hs hu ha hb hd => exact .leaving hs hu ha hb hd
  | left hs hu ha hb hd => exact .left hs hu ha hb hd
  | asked st hs hw hu ha hb hd hq => exact absurd hsub hb
  | reading st hs hw hu ha hb hd => exact .reading st hs hw hu ha hb hd
  | answered st hs hw hu ha hb hd => exact .answered st hs hw hu ha hb hd
  | live st hs hw hu ha hb hd => exact .live st hs hw hu ha hb hd

theorem View.Linked.takesEvent (h : v.Linked t) {e : RecordEvent B} {down : List (ServerMsg B)}
    (hdown : v.down = .event e :: down) : { v with down := down }.Linked t := by
  have htail : Events v.down → Events down := fun hev msg hmsg =>
    hev msg (hdown ▸ List.mem_cons_of_mem _ hmsg)
  cases h with
  | idle hs hu ha hb hd => exact .idle hs hu ha hb (htail hd)
  | leaving hs hu ha hb hd => exact .leaving hs hu ha hb (htail hd)
  | left hs hu ha hb hd =>
    obtain ⟨a, b, hab, hea, heb⟩ := hd
    cases a with
    | nil => simp [hdown] at hab
    | cons m a =>
      rw [hdown, List.cons_append, List.cons.injEq] at hab
      exact .left hs hu ha hb ⟨a, b, hab.2, fun x hx => hea x (List.mem_cons_of_mem _ hx), heb⟩
  | asked st hs hw hu ha hb hd hq => simp [hd] at hdown
  | reading st hs hw hu ha hb hd => simp [hd] at hdown
  | answered st hs hw hu ha hb hd =>
    obtain ⟨rest, hrest, hev⟩ := hd
    simp [hrest] at hdown
  | live st hs hw hu ha hb hd => exact .live st hs hw hu ha hb (htail hd)

theorem View.Linked.takesOk (h : v.Linked t) {tail : Nat} {down : List (ServerMsg B)}
    (hdown : v.down = .topicOk t tail :: down) :
    (v.state = none ∧ { v with down := down }.Linked t) ∨
    ∃ st, v.state = some st ∧ v.subscribed ∧ tail = v.reported ∧
      ∀ st' : TopicState, st'.live = true → { v with down := down, state := some st' }.Linked t := by
  have hnot : ¬Events v.down := by
    intro hev
    have hhead : ServerMsg.isEvent (.topicOk t tail : ServerMsg B) = true :=
      hev _ (hdown ▸ List.mem_cons_self)
    exact Bool.noConfusion hhead
  cases h with
  | idle hs hu ha hb hd => exact absurd hd hnot
  | leaving hs hu ha hb hd => exact absurd hd hnot
  | left hs hu ha hb hd =>
    obtain ⟨a, b, hab, hea, heb⟩ := hd
    cases a with
    | nil =>
      rw [hdown, List.nil_append, List.cons.injEq] at hab
      exact .inl ⟨hs, .idle hs hu ha hb (hab.2 ▸ heb)⟩
    | cons m a =>
      rw [hdown, List.cons_append, List.cons.injEq] at hab
      have hev := hea m List.mem_cons_self
      rw [← hab.1] at hev
      exact Bool.noConfusion hev
  | asked st hs hw hu ha hb hd hq => simp [hd] at hdown
  | reading st hs hw hu ha hb hd => simp [hd] at hdown
  | answered st hs hw hu ha hb hd =>
    obtain ⟨rest, hrest, hev⟩ := hd
    rw [hdown, List.cons.injEq, ServerMsg.topicOk.injEq] at hrest
    obtain ⟨⟨-, htail⟩, rfl⟩ := hrest
    exact .inr ⟨st, hs, hb, htail, fun st' hlive => .live st' rfl hlive hu ha hb hev⟩
  | live st hs hw hu ha hb hd => exact absurd hd hnot

end Steps

section Invariant

def Phase.Connected : Phase B → Prop
  | .serving => True
  | .resubscribing _ => True
  | .catchingUp _ _ => True
  | _ => False

-- A live topic has a cursor and no waiters. On a served connection the others are new.
structure Joined (s : Sys B) : Prop where
  settled : ∀ t st, s.client.topics t = some st → st.live = true → st.pending = [] ∧ st.cursor.isSome
  linked : s.phase.Connected → ∀ t, (s.view t).Linked t
  waits : s.phase = .serving → ∀ t st, s.client.topics t = some st → st.live = false →
    st.pending ≠ [] ∧ st.cursor = none
  caught : ∀ buffered reply, s.phase = .catchingUp buffered reply →
    ∀ t st, s.client.topics t = some st → st.live = true

theorem joined_new : Joined (Sys.new : Sys B) := by
  have hnone : ∀ t, (Sys.new : Sys B).client.topics t = none := fun _ => rfl
  refine ⟨fun t st hst => ?_, fun _ t => .idle rfl rfl ?_ ?_ events_nil, fun _ t st hst => ?_,
    fun _ _ hphase => ?_⟩
  · cases (hnone t).symm.trans hst
  · simp [Sys.view, Sys.new]
  · simp [Sys.view, Sys.new]
  · cases (hnone t).symm.trans hst
  · cases hphase

theorem Joined.of_client (h : Joined s) (hclient : s'.client = s.client) (hphase : s'.phase = s.phase)
    (hlinked : s.phase.Connected → ∀ t, (s'.view t).Linked t) : Joined s' := by
  refine ⟨?_, ?_, ?_, ?_⟩
  · rw [hclient]
    exact h.settled
  · rw [hphase]
    exact hlinked
  · rw [hphase, hclient]
    exact h.waits
  · rw [hphase, hclient]
    exact h.caught

theorem Joined.nodeTakes (h : Joined s) {msg : ClientMsg} {up : List ClientMsg}
    (hfree : s.session.answering = none) (hhead : s.up = msg :: up) :
    Joined ({ s with up := up }.nodeTakes msg) := by
  cases msg with
  | subscribe topic =>
    refine h.of_client rfl rfl fun hconn t => ?_
    have hlinked := h.linked hconn t
    by_cases ht : t = topic
    · subst ht
      have hup : (s.view t).up = .subscribe t :: up.filter fun m => m.topic = t := by
        simp [Sys.view, hhead, ClientMsg.topic]
      have hview : ({ s with up := up }.nodeTakes (.subscribe t)).view t = { s.view t with
          up := up.filter fun m => m.topic = t, answering := True, subscribed := True } := by
        simp [Sys.view, Sys.nodeTakes]
      rw [hview]
      exact hlinked.takesSubscribe hup
    · have hview : ({ s with up := up }.nodeTakes (.subscribe topic)).view t = s.view t := by
        simp [Sys.view, Sys.nodeTakes, hhead, hfree, ClientMsg.topic, Ne.symm ht, ht]
      rw [hview]
      exact hlinked
  | unsubscribe topic =>
    refine h.of_client rfl rfl fun hconn t => ?_
    have hlinked := h.linked hconn t
    by_cases ht : t = topic
    · subst ht
      have hup : (s.view t).up = .unsubscribe t :: up.filter fun m => m.topic = t := by
        simp [Sys.view, hhead, ClientMsg.topic]
      have hview : ({ s with up := up }.nodeTakes (.unsubscribe t)).view t = { s.view t with
          up := up.filter fun m => m.topic = t
          subscribed := False
          down := (s.view t).down ++ [ServerMsg.topicOk t 0] } := by
        simp [Sys.view, Sys.nodeTakes, ServerMsg.topic]
      rw [hview]
      exact hlinked.takesUnsubscribe hup
    · have hview : ({ s with up := up }.nodeTakes (.unsubscribe topic)).view t = s.view t := by
        simp [Sys.view, Sys.nodeTakes, hhead, ClientMsg.topic, ServerMsg.topic, Ne.symm ht, ht]
      rw [hview]
      exact hlinked

theorem Joined.nodeAnswers (h : Joined s) (hbusy : s.session.answering = some topic) :
    Joined (s.nodeAnswers topic) := by
  refine h.of_client rfl rfl fun hconn t => ?_
  have hlinked := h.linked hconn t
  by_cases ht : t = topic
  · subst ht
    have hview : (s.nodeAnswers t).view t = { s.view t with
        answering := False
        down := (s.view t).down ++ [ServerMsg.topicOk t (tailOf (s.log t))]
        reported := tailOf (s.log t) } := by
      simp [Sys.view, Sys.nodeAnswers, ServerMsg.topic]
    rw [hview]
    exact hlinked.answers (by simp [Sys.view, hbusy]) _
  · have hview : (s.nodeAnswers topic).view t = s.view t := by
      simp [Sys.view, Sys.nodeAnswers, hbusy, ServerMsg.topic, Ne.symm ht, ht]
    rw [hview]
    exact hlinked

theorem Joined.nodeForwards (h : Joined s) {e : RecordEvent B} {queue : List (RecordEvent B)}
    (hfree : s.session.answering = none) (hhead : s.session.queue = e :: queue) :
    Joined { s with session := { s.session with queue := queue }, down := s.down ++ [.event e] } := by
  refine h.of_client rfl rfl fun hconn t => ?_
  have hlinked := h.linked hconn t
  by_cases ht : t = e.topic
  · have hqueue : (s.view t).queue = e :: queue.filter fun e => e.topic = t := by
      simp [Sys.view, hhead, ht]
    have hforwards := hlinked.forwards (by simp [Sys.view, hfree]) hqueue
    convert hforwards using 1
    simp [Sys.view, ServerMsg.topic, ht]
  · convert hlinked using 1
    simp [Sys.view, hhead, ServerMsg.topic, Ne.symm ht]

theorem Joined.publish (h : Joined s) (e : RecordEvent B) (publishing : List (RecordEvent B)) :
    Joined ({ s with publishing := publishing }.publish e) := by
  rw [Sys.publish]
  split
  · rename_i hsub
    refine h.of_client rfl rfl fun hconn t => ?_
    have hlinked := h.linked hconn t
    by_cases ht : t = e.topic
    · have hqueues := hlinked.queues (by simpa [Sys.view, ht] using hsub)
        ((s.session.queue ++ [e]).filter fun e => e.topic = t)
      exact hqueues
    · convert hlinked using 1
      simp [Sys.view, Ne.symm ht]
  · exact h.of_client rfl rfl fun hconn t => h.linked hconn t

theorem Client.Moves.back {c c' : Client B} (h : c.Moves c') {st' : TopicState}
    (hst' : c'.topics t = some st') : ∃ st, c.topics t = some st ∧ st.Moves st' := by
  have hrel := h.topics t
  rw [hst'] at hrel
  generalize c.topics t = o at hrel
  cases hrel with
  | some hone => exact ⟨_, rfl, hone⟩

theorem Client.Moves.settled {c c' : Client B} (h : c.Moves c')
    (hsettled : ∀ t st, c.topics t = some st → st.live = true → st.pending = [] ∧ st.cursor.isSome) (t : Topic)
    (st' : TopicState) (hst' : c'.topics t = some st') (hlive : st'.live = true) :
    st'.pending = [] ∧ st'.cursor.isSome := by
  obtain ⟨st, hst, hone⟩ := h.back hst'
  obtain ⟨hpending, hcursor⟩ := hsettled t st hst (hone.live ▸ hlive)
  obtain ⟨cursor, hcursor⟩ := Option.isSome_iff_exists.mp hcursor
  obtain ⟨cursor', hcursor', -⟩ := hone.cursor cursor hcursor
  exact ⟨hone.pending.trans hpending, by rw [hcursor']; rfl⟩

theorem topics_deliver_of_ne {c : Client B} {e : RecordEvent B} (ht : t ≠ e.topic) :
    (c.deliver e).topics t = c.topics t := by
  rw [Client.deliver]
  cases c.topics e.topic with
  | none => rfl
  | some state =>
    cases e.instant with
    | none => exact topics_setTopic.trans (if_neg ht)
    | some instant =>
      simp only
      split
      · rfl
      · exact topics_setTopic.trans (if_neg ht)

theorem View.Linked.live_of_event {v : View B} (h : v.Linked t) {e : RecordEvent B}
    {down : List (ServerMsg B)} (hdown : v.down = .event e :: down) {st : TopicState}
    (hst : v.state = some st) : st.live = true := by
  cases h with
  | idle hs hu ha hb hd => simp [hs] at hst
  | leaving hs hu ha hb hd => simp [hs] at hst
  | left hs hu ha hb hd => simp [hs] at hst
  | asked st hs hw hu ha hb hd hq => simp [hd] at hdown
  | reading st hs hw hu ha hb hd => simp [hd] at hdown
  | answered st hs hw hu ha hb hd =>
    obtain ⟨rest, hrest, -⟩ := hd
    simp [hrest] at hdown
  | live st' hs hw hu ha hb hd =>
    rw [hs, Option.some.injEq] at hst
    exact hst ▸ hw

theorem view_down {msg : ServerMsg B} {down : List (ServerMsg B)} (hhead : s.down = msg :: down)
    (ht : t ≠ msg.topic) : { s with down := down }.view t = s.view t := by
  simp [Sys.view, hhead, Ne.symm ht]

theorem view_down_self {msg : ServerMsg B} {down : List (ServerMsg B)} (hhead : s.down = msg :: down) :
    (s.view msg.topic).down = msg :: down.filter fun m => m.topic = msg.topic := by
  simp [Sys.view, hhead]

theorem Joined.takesEvent (h : Joined s) {e : RecordEvent B} {down : List (ServerMsg B)}
    (hserving : s.phase = .serving) (hhead : s.down = .event e :: down) :
    Joined ({ s with down := down }.clientTakes (.event e)) := by
  have hconn : s.phase.Connected := by rw [hserving]; trivial
  have hmoves := Client.moves_deliver (c := s.client) e
  have hself := view_down_self hhead
  refine ⟨hmoves.settled h.settled, fun _ t => ?_, fun _ t st' hst' hwaits => ?_,
    fun _ _ hcaught => nomatch hserving.symm.trans hcaught⟩
  · have hlinked := h.linked hconn t
    by_cases ht : t = e.topic
    · subst ht
      exact (hlinked.takesEvent hself).restate (hmoves.lives _)
    · have hview := view_down (s := s) hhead ht
      refine View.Linked.restate (v := { s with down := down }.view t) ?_ (hmoves.lives t)
      rw [hview]
      exact hlinked
  · obtain ⟨st, hst, hone⟩ := hmoves.back hst'
    by_cases ht : t = e.topic
    · subst ht
      have hlive := (h.linked hconn _).live_of_event hself hst
      rw [← hone.live, hwaits] at hlive
      cases hlive
    · refine h.waits hserving t st' ?_ hwaits
      exact (topics_deliver_of_ne ht).symm.trans hst'

def TopicState.acked (st : TopicState) (tail : Nat) : TopicState :=
  { st with live := true, cursor := some (st.cursor.getD tail), pending := [] }

theorem topics_ackTopic {c : Client B} {tail : Nat} :
    (c.ackTopic topic tail).topics t =
      if t = topic then (c.topics t).map fun st => st.acked tail else c.topics t := by
  rw [Client.ackTopic]
  by_cases ht : t = topic
  · subst ht
    rw [if_pos rfl]
    cases hstate : c.topics t with
    | none => exact hstate
    | some st => exact topics_setTopic.trans (if_pos rfl)
  · rw [if_neg ht]
    cases c.topics topic with
    | none => rfl
    | some st => exact topics_setTopic.trans (if_neg ht)

theorem Joined.takesOk (h : Joined s) {tail : Nat} {down : List (ServerMsg B)}
    (hconn : s.phase.Connected) (hhead : s.down = .topicOk topic tail :: down) :
    Joined { s with down := down, client := s.client.ackTopic topic tail } := by
  have hself := view_down_self hhead
  refine ⟨fun t st' hst' hlive => ?_, fun _ t => ?_, fun hserving t st' hst' hwaits => ?_,
    fun buffered reply hcaught t st' hst' => ?_⟩
  · rw [topics_ackTopic] at hst'
    split at hst'
    · obtain ⟨st, -, rfl⟩ := Option.map_eq_some_iff.mp hst'
      exact ⟨rfl, rfl⟩
    · exact h.settled t st' hst' hlive
  · have hlinked := h.linked hconn t
    by_cases ht : t = topic
    · subst ht
      have hview : ({ s with down := down, client := s.client.ackTopic t tail } : Sys B).view t =
          { s.view t with
            down := down.filter fun m => m.topic = t
            state := (s.client.topics t).map fun st => st.acked tail } := by
        simp [Sys.view, topics_ackTopic]
      rw [hview]
      rcases hlinked.takesOk hself with ⟨hnone, hidle⟩ | ⟨st, hst, -, -, hlive⟩
      · have hnone' : s.client.topics t = none := hnone
        have hsame : (s.client.topics t).map (fun st => st.acked tail) = (s.view t).state := by
          rw [hnone', hnone]
          rfl
        rw [hsame]
        exact hidle
      · have hst' : s.client.topics t = some st := hst
        rw [hst']
        exact hlive _ rfl
    · have hview : ({ s with down := down, client := s.client.ackTopic topic tail } : Sys B).view t =
          s.view t := by
        simp [Sys.view, topics_ackTopic, ht, hhead, ServerMsg.topic, Ne.symm ht]
      rw [hview]
      exact hlinked
  · rw [topics_ackTopic] at hst'
    split at hst'
    · obtain ⟨st, -, rfl⟩ := Option.map_eq_some_iff.mp hst'
      cases hwaits
    · exact h.waits hserving t st' hst' hwaits
  · rw [topics_ackTopic] at hst'
    split at hst'
    · obtain ⟨st, -, rfl⟩ := Option.map_eq_some_iff.mp hst'
      rfl
    · exact h.caught buffered reply hcaught t st' hst'

theorem Joined.commands (h : Joined s) (hserving : s.phase = .serving) {c : Client B} {sent : List ClientMsg}
    {watches : Nat} {state : Option TopicState} (htopics : c.topics = Function.update s.client.topics topic state)
    (hsent : ∀ m ∈ sent, m.topic = topic)
    (hsettled : ∀ st, state = some st → st.live = true → st.pending = [] ∧ st.cursor.isSome)
    (hwaits : ∀ st, state = some st → st.live = false → st.pending ≠ [] ∧ st.cursor = none)
    (hlinked : { s.view topic with state := state, up := (s.view topic).up ++ sent }.Linked topic) :
    Joined { s with client := c, up := s.up ++ sent, watches := watches } := by
  have hconn : s.phase.Connected := by rw [hserving]; trivial
  have hself : c.topics topic = state := by rw [htopics, Function.update_self]
  have hother : ∀ t, t ≠ topic → c.topics t = s.client.topics t := fun t ht => by
    rw [htopics, Function.update_of_ne ht]
  refine ⟨fun t st hst hlive => ?_, fun _ t => ?_, fun _ t st hst hnot => ?_,
    fun _ _ hcaught => nomatch hserving.symm.trans hcaught⟩
  · by_cases ht : t = topic
    · subst ht
      exact hsettled st (hself.symm.trans hst) hlive
    · exact h.settled t st ((hother t ht).symm.trans hst) hlive
  · by_cases ht : t = topic
    · subst ht
      convert hlinked using 1
      have hall : sent.filter (fun m => m.topic = t) = sent :=
        List.filter_eq_self.mpr fun m hm => by simp [hsent m hm]
      simp [Sys.view, hall, hself]
    · convert h.linked hconn t using 1
      have hnone : sent.filter (fun m => m.topic = t) = [] :=
        List.filter_eq_nil_iff.mpr fun m hm => by simp [hsent m hm, Ne.symm ht]
      simp [Sys.view, hnone, hother t ht]
  · by_cases ht : t = topic
    · subst ht
      exact hwaits st (hself.symm.trans hst) hnot
    · exact h.waits hserving t st ((hother t ht).symm.trans hst) hnot

theorem Joined.subscribe_new (h : Joined s) (hserving : s.phase = .serving)
    (hstate : s.client.topics topic = none) (hstill : (s.view topic).Still) :
    Joined { s with
      client := (s.client.subscribe topic s.watches).1
      up := s.up ++ (s.client.subscribe topic s.watches).2
      watches := s.watches + 1 } := by
  have hlinked := h.linked (by rw [hserving]; trivial) topic
  obtain ⟨hup, hans, hdown, hqueue⟩ := hstill
  have hnew : s.client.subscribe topic s.watches =
      ((s.client.joins s.watches {}).setTopic topic
        (some { subs := [s.watches], pending := [s.watches] }), [.subscribe topic]) := by
    rw [Client.subscribe, hstate]
    rfl
  have hfree : ¬(s.view topic).subscribed := by
    cases hlinked with
    | idle hs hu ha hb hd => exact hb
    | leaving hs hu ha hb hd => simp [hu] at hup
    | left hs hu ha hb hd => exact hb
    | asked st hs hw hu ha hb hd hq => exact hb
    | reading st hs hw hu ha hb hd => exact absurd ha hans
    | answered st hs hw hu ha hb hd => exact nomatch hstate.symm.trans hs
    | live st hs hw hu ha hb hd => exact nomatch hstate.symm.trans hs
  rw [hnew]
  refine h.commands hserving rfl (by simp [ClientMsg.topic]) (fun st hst hlive => ?_)
    (fun st hst _ => ?_) (.asked _ rfl rfl ?_ hans hfree hdown hqueue)
  · cases hst
    cases hlive
  · cases hst
    exact ⟨by simp, rfl⟩
  · rw [hup]
    rfl

theorem Joined.subscribe_known (h : Joined s) (hserving : s.phase = .serving) {st : TopicState}
    (hstate : s.client.topics topic = some st) :
    Joined { s with
      client := (s.client.subscribe topic s.watches).1
      up := s.up ++ (s.client.subscribe topic s.watches).2
      watches := s.watches + 1 } := by
  have hlinked := h.linked (by rw [hserving]; trivial) topic
  have hkept : ∀ st' : TopicState, st'.live = st.live →
      { s.view topic with state := some st' }.Linked topic := fun st' hlive =>
    hlinked.restate (by rw [show (s.view topic).state = some st from hstate]; exact .some hlive)
  cases hlive : st.live with
  | true =>
    have hnew : s.client.subscribe topic s.watches =
        ({ (s.client.joins s.watches st).setTopic topic
          (some { st with subs := st.subs ++ [s.watches] }) with
          acked := s.client.acked ++ [(s.watches, topic)] }, []) := by
      simp only [Client.subscribe, hstate, Option.getD_some, hlive, if_true]
      rfl
    rw [hnew]
    refine h.commands hserving rfl (by simp) (fun st' hst' _ => ?_) (fun st' hst' hnot => ?_) ?_
    · cases hst'
      exact h.settled topic st hstate hlive
    · cases hst'
      exact Bool.noConfusion (hlive.symm.trans hnot)
    · rw [List.append_nil]
      exact hkept _ rfl
  | false =>
    obtain ⟨hpending, hcursor⟩ := h.waits hserving topic st hstate hlive
    have hnew : s.client.subscribe topic s.watches =
        ((s.client.joins s.watches st).setTopic topic (some { st with
          subs := st.subs ++ [s.watches], pending := st.pending ++ [s.watches] }), []) := by
      simp only [Client.subscribe, hstate, Option.getD_some, hlive, Bool.false_eq_true, if_false,
        List.isEmpty_iff, hpending]
    rw [hnew]
    refine h.commands hserving rfl (by simp) (fun st' hst' hnot => ?_) (fun st' hst' _ => ?_) ?_
    · cases hst'
      exact Bool.noConfusion (hlive.symm.trans hnot)
    · cases hst'
      exact ⟨by simp, hcursor⟩
    · rw [List.append_nil]
      exact hkept _ rfl

theorem Joined.unsubscribe (h : Joined s) (hserving : s.phase = .serving) (watch : Nat) :
    Joined { s with
      client := (s.client.unsubscribe topic watch).1
      up := s.up ++ (s.client.unsubscribe topic watch).2 } := by
  have hlinked := h.linked (by rw [hserving]; trivial) topic
  rw [Client.unsubscribe]
  cases hstate : s.client.topics topic with
  | none => exact h.of_client rfl rfl fun hconn t => by simpa [Sys.view] using h.linked hconn t
  | some st =>
    have hview : (s.view topic).state = some st := hstate
    simp only
    by_cases hempty : ((st.subs.filter (· ≠ watch)).isEmpty && st.pending.isEmpty) = true
    · -- Nobody waits, so the topic is live.
      rw [if_pos hempty]
      have hlive : st.live = true := by
        by_contra hnot
        refine (h.waits hserving topic st hstate (by simpa using hnot)).1 ?_
        simpa using (Bool.and_eq_true_iff.mp hempty).2
      refine h.commands hserving rfl (by simp [ClientMsg.topic]) nofun nofun ?_
      cases hlinked with
      | live st' hs hw hu ha hb hd => exact .leaving rfl (by rw [hu]; rfl) ha hb hd
      | idle hs hu ha hb hd => exact nomatch hview.symm.trans hs
      | leaving hs hu ha hb hd => exact nomatch hview.symm.trans hs
      | left hs hu ha hb hd => exact nomatch hview.symm.trans hs
      | asked st' hs hw hu ha hb hd hq =>
        cases hview.symm.trans hs
        exact Bool.noConfusion (hlive.symm.trans hw)
      | reading st' hs hw hu ha hb hd =>
        cases hview.symm.trans hs
        exact Bool.noConfusion (hlive.symm.trans hw)
      | answered st' hs hw hu ha hb hd =>
        cases hview.symm.trans hs
        exact Bool.noConfusion (hlive.symm.trans hw)
    · rw [if_neg hempty]
      refine h.commands hserving rfl (by simp) (fun st' hst' hlive => ?_) (fun st' hst' hnot => ?_) ?_
      · cases hst'
        exact h.settled topic st hstate hlive
      · cases hst'
        exact h.waits hserving topic st hstate hnot
      · rw [List.append_nil]
        exact hlinked.restate (by rw [hview]; exact .some rfl)

theorem Joined.buffersEvent (h : Joined s) {e : RecordEvent B} {down : List (ServerMsg B)}
    {buffered : List (RecordEvent B)} (hphase : s.phase = .resubscribing buffered)
    (hhead : s.down = .event e :: down) :
    Joined ({ s with down := down }.clientBuffers buffered (.event e)) := by
  have hself := view_down_self hhead
  refine ⟨h.settled, fun _ t => ?_, nofun, nofun⟩
  have hlinked := h.linked (by rw [hphase]; trivial) t
  by_cases ht : t = e.topic
  · subst ht
    exact hlinked.takesEvent hself
  · have hview := view_down (s := s) hhead ht
    change ({ s with down := down }.view t).Linked t
    rw [hview]
    exact hlinked

theorem Joined.offline {c : Client B} (hphase : s.phase = .offline ∨ s.phase = .ended) (hclient : s.client = c)
    (hsettled : ∀ t st, c.topics t = some st → st.live = true → st.pending = [] ∧ st.cursor.isSome) :
    Joined s := by
  refine ⟨hclient ▸ hsettled, ?_, ?_, ?_⟩
  · rcases hphase with hphase | hphase <;>
    · rw [hphase]
      exact False.elim
  · rcases hphase with hphase | hphase <;>
    · rw [hphase]
      exact nofun
  · rcases hphase with hphase | hphase <;>
    · rw [hphase]
      exact nofun

theorem Joined.applySubscribe (h : Joined s) (hphase : s.phase = .offline) (topic : Topic) (watches : Nat) :
    Joined { s with client := s.client.applySubscribe topic s.watches, watches := watches } := by
  refine .offline (.inl hphase) rfl fun t st hst hlive => ?_
  rw [Client.applySubscribe, topics_setTopic] at hst
  split at hst
  · cases hst
    cases hlive
  · exact h.settled t st hst hlive

theorem Joined.applyUnsubscribe (h : Joined s) (hphase : s.phase = .offline) (topic : Topic) (watch : Nat) :
    Joined { s with client := s.client.applyUnsubscribe topic watch } := by
  refine .offline (.inl hphase) rfl fun t st hst hlive => ?_
  rw [Client.applyUnsubscribe] at hst
  cases hstate : s.client.topics topic with
  | none =>
    rw [hstate] at hst
    exact h.settled t st hst hlive
  | some st₀ =>
    rw [hstate] at hst
    simp only at hst
    split at hst
    · rw [topics_setTopic] at hst
      split at hst
      · cases hst
      · exact h.settled t st hst hlive
    · rw [topics_setTopic] at hst
      split at hst
      · cases hst
        exact h.settled topic st₀ hstate hlive
      · exact h.settled t st hst hlive

theorem Joined.dials {order : List Topic} (honce : order.Nodup)
    (hall : ∀ topic, topic ∈ order ↔ (s.client.topics topic).isSome) : Joined (s.dialed order) := by
  have hback : ∀ t st, s.client.unacked.topics t = some st → st.live = false := by
    intro t st hst
    obtain ⟨st₀, -, rfl⟩ := Option.map_eq_some_iff.mp hst
    rfl
  refine ⟨fun t st hst hlive => ?_, fun _ t => ?_, nofun, nofun⟩
  · cases (hback t st hst).symm.trans hlive
  · have hup : ((s.dialed order).view t).up = if t ∈ order then [.subscribe t] else [] := by
      change (order.map ClientMsg.subscribe).filter (fun msg => decide (msg.topic = t)) = _
      rw [List.filter_map]
      have hcomp : ((fun msg : ClientMsg => decide (msg.topic = t)) ∘ ClientMsg.subscribe) =
          fun t' => decide (t' = t) := rfl
      rw [hcomp]
      split
      · rename_i ht
        rw [List.filter_eq, honce.count, if_pos ht]
        rfl
      · rename_i ht
        rw [List.filter_eq, honce.count, if_neg ht]
        rfl
    cases hstate : s.client.topics t with
    | none =>
      have hnot : t ∉ order := fun hmem => by simpa [hstate] using (hall t).mp hmem
      rw [if_neg hnot] at hup
      refine .idle ?_ hup (by simp [Sys.view, Sys.dialed]) (by simp [Sys.view, Sys.dialed]) events_nil
      simp [Sys.view, Sys.dialed, Client.unacked, hstate]
    | some st =>
      have hmem : t ∈ order := (hall t).mpr (by rw [hstate]; rfl)
      rw [if_pos hmem] at hup
      refine .asked { st with live := false } ?_ rfl hup (by simp [Sys.view, Sys.dialed])
        (by simp [Sys.view, Sys.dialed]) rfl rfl
      simp [Sys.view, Sys.dialed, Client.unacked, hstate]

theorem Joined.catchesUp (h : Joined s) {buffered : List (RecordEvent B)} {reply : SyncReply B}
    (hphase : s.phase = .catchingUp buffered (some reply)) : Joined (s.caughtUp buffered reply) := by
  have hmoves : s.client.Moves (s.caughtUp buffered reply).client :=
    ((Client.moves_delivers reply.events).trans (Client.moves_raises reply.cursors)).trans
      (Client.moves_delivers buffered)
  refine ⟨hmoves.settled h.settled, fun _ t => ?_, fun _ t st' hst' hnot => ?_, nofun⟩
  · exact (h.linked (by rw [hphase]; trivial) t).restate (hmoves.lives t)
  · obtain ⟨st, hst, hone⟩ := hmoves.back hst'
    have hlive := h.caught buffered (some reply) hphase t st hst
    rw [← hone.live, hnot] at hlive
    cases hlive

theorem Joined.step {a : Action B} (h : Joined s) (hpatient : Patient s a) (hstep : Step s a s') :
    Joined s' := by
  cases hstep with
  | @subscribe topic hphase =>
    cases hstate : s.client.topics topic with
    | none => exact h.subscribe_new hphase hstate (hpatient hphase hstate)
    | some st => exact h.subscribe_known hphase hstate
  | unsubscribe hphase => exact h.unsubscribe hphase _
  | subscribeOffline hphase => exact h.applySubscribe hphase _ _
  | unsubscribeOffline hphase => exact h.applyUnsubscribe hphase _ _
  | close => exact ⟨h.settled, h.linked, h.waits, h.caught⟩
  | nodeReads hfree hhead => exact h.nodeTakes hfree hhead
  | nodeAnswers hbusy => exact h.nodeAnswers hbusy
  | nodeForwards hfree hhead => exact h.nodeForwards hfree hhead
  | commits hhas hlater => exact ⟨h.settled, h.linked, h.waits, h.caught⟩
  | publishes hhead => exact h.publish _ _
  | @clientReads msg down hphase hhead =>
    cases msg with
    | topicOk topic tail => exact h.takesOk (by rw [hphase]; trivial) hhead
    | event e => exact h.takesEvent hphase hhead
  | @clientBuffers msg down buffered hphase hhead =>
    cases msg with
    | topicOk topic tail => exact h.takesOk (by rw [hphase]; trivial) hhead
    | event e => exact h.buffersEvent hphase hhead
  | drops => exact .offline (.inl rfl) rfl h.settled
  | dialFails => exact h
  | dials hphase honce hall => exact .dials honce hall
  | resubscribeFails => exact .offline (.inl rfl) rfl h.settled
  | syncs hphase hlive =>
    exact ⟨h.settled, fun _ => h.linked (by rw [hphase]; trivial), nofun, fun _ _ _ => hlive⟩
  | navigates hphase =>
    exact ⟨h.settled, fun _ => h.linked (by rw [hphase]; trivial), nofun,
      fun _ _ _ => h.caught _ _ hphase⟩
  | syncFails => exact .offline (.inl rfl) rfl h.settled
  | catchesUp hphase => exact h.catchesUp hphase
  | refused => exact .offline (.inr rfl) rfl h.settled

end Invariant

end WaveDb.Watch
