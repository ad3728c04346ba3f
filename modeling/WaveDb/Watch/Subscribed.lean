import WaveDb.Watch.Flow

-- The topics a node holds for a connection, and the watches they are held for.
namespace WaveDb.Watch

open WaveDb.Lib WaveDb.Core WaveDb.Net

variable {B : Type} {s s' : Sys B} {t topic : Topic} {c c' : Client B} {ws : List (Nat × Topic)}

section Watches

def attend (s : Sys B) (ws : List (Nat × Topic)) : Action B → List (Nat × Topic)
  | .subscribe topic => (s.watches, topic) :: ws
  | .unsubscribe topic watch => ws.filter (· ≠ (watch, topic))
  | _ => ws

def Attended (p : Sys B × List (Nat × Topic)) (a : Action B) (p' : Sys B × List (Nat × Topic)) : Prop :=
  Step p.1 a p'.1 ∧ p'.2 = attend p.1 p.2 a

-- The last listed watch of a topic leaves when nobody waits for the node's
-- answer any more, and no other watch was pruned while it still counts.
def Orderly (p : Sys B × List (Nat × Topic)) : Action B → Prop
  | .unsubscribe topic watch => ∀ st, p.1.client.topics topic = some st → (∀ w ∈ st.subs, w = watch) →
      st.pending = [] ∧ ∀ w, (w, topic) ∈ p.2 → w = watch
  | _ => True

def Wanted (ws : List (Nat × Topic)) (t : Topic) : Prop := ∃ w, (w, t) ∈ ws

structure Sys.Answered (s : Sys B) : Prop where
  up : s.up = []
  free : s.session.answering = none
  down : ∀ topic tail, .topicOk topic tail ∉ s.down

end Watches

section Commands

theorem subscribe_adds (c : Client B) (topic : Topic) (watch : Nat) :
    ∃ st, (c.subscribe topic watch).1.topics = Function.update c.topics topic (some st) ∧
      st.subs = ((c.topics topic).getD {}).subs ++ [watch] ∧
      ((c.subscribe topic watch).2 = [.subscribe topic] ∨
        (c.subscribe topic watch).2 = [] ∧ c.topics topic ≠ none) := by
  cases htopic : c.topics topic with
  | none =>
    refine ⟨{ subs := [watch], pending := [watch] }, ?_, rfl, .inl ?_⟩ <;>
      simp [Client.subscribe, htopic, Client.setTopic, Client.joins]
  | some st =>
    have hknown : some st ≠ none := Option.some_ne_none st
    cases hlive : st.live with
    | true =>
      refine ⟨{ st with subs := st.subs ++ [watch] }, ?_, rfl, .inr ⟨?_, hknown⟩⟩ <;>
        simp [Client.subscribe, htopic, hlive, Client.setTopic, Client.joins]
    | false =>
      refine ⟨{ st with subs := st.subs ++ [watch], pending := st.pending ++ [watch] }, ?_, rfl, ?_⟩
      · simp [Client.subscribe, htopic, hlive, Client.setTopic, Client.joins]
      · by_cases hpending : st.pending = []
        · exact .inl (by simp [Client.subscribe, htopic, hlive, hpending])
        · exact .inr ⟨by simp [Client.subscribe, htopic, hlive, hpending], hknown⟩

theorem topics_applySubscribe (c : Client B) (topic : Topic) (watch : Nat) :
    ∃ st, (c.applySubscribe topic watch).topics = Function.update c.topics topic (some st) ∧
      st.subs = ((c.topics topic).getD {}).subs ++ [watch] :=
  ⟨_, rfl, rfl⟩

theorem unsubscribe_cases (c : Client B) (topic : Topic) (watch : Nat) :
    c.unsubscribe topic watch = (c, []) ∧ c.topics topic = none ∨
    ∃ st, c.topics topic = some st ∧
      ((∀ w ∈ st.subs, w = watch) ∧ st.pending = [] ∧
          c.unsubscribe topic watch = (c.setTopic topic none, [.unsubscribe topic]) ∨
        ¬((∀ w ∈ st.subs, w = watch) ∧ st.pending = []) ∧
          c.unsubscribe topic watch =
            (c.setTopic topic (some { st with subs := st.subs.filter (· ≠ watch) }), [])) := by
  cases htopic : c.topics topic with
  | none => exact .inl ⟨by rw [Client.unsubscribe, htopic], rfl⟩
  | some st =>
    have hempty : (st.subs.filter (· ≠ watch)).isEmpty = true ↔ ∀ w ∈ st.subs, w = watch := by
      simp
    refine .inr ⟨st, rfl, ?_⟩
    by_cases hlast : (∀ w ∈ st.subs, w = watch) ∧ st.pending = []
    · refine .inl ⟨hlast.1, hlast.2, ?_⟩
      simp only [Client.unsubscribe, htopic, hempty.mpr hlast.1, hlast.2, List.isEmpty_nil, Bool.and_self,
        if_true]
    · refine .inr ⟨hlast, ?_⟩
      have hkeep : ¬((st.subs.filter (· ≠ watch)).isEmpty && st.pending.isEmpty) = true := by
        rw [Bool.and_eq_true, hempty, List.isEmpty_iff]
        exact hlast
      simp only [Client.unsubscribe, htopic]
      rw [if_neg hkeep]

theorem applyUnsubscribe_eq (c : Client B) (topic : Topic) (watch : Nat) :
    c.applyUnsubscribe topic watch = (c.unsubscribe topic watch).1 := by
  rw [Client.applyUnsubscribe, Client.unsubscribe]
  cases c.topics topic with
  | none => rfl
  | some st =>
    dsimp only
    split <;> rfl

end Commands

section Thins

def Client.Thins (c c' : Client B) : Prop :=
  ∀ t, Option.Rel (fun st st' : TopicState => st'.subs ⊆ st.subs) (c.topics t) (c'.topics t)

theorem Client.Thins.refl (c : Client B) : c.Thins c := by
  intro t
  cases c.topics t with
  | none => exact .none
  | some st => exact .some (List.Subset.refl _)

theorem Client.Thins.trans {c'' : Client B} (h : c.Thins c') (h' : c'.Thins c'') : c.Thins c'' := by
  intro t
  have ht := h t
  have ht' := h' t
  generalize c.topics t = o at ht
  generalize c'.topics t = o' at ht ht'
  generalize c''.topics t = o'' at ht'
  cases ht with
  | none => exact ht'
  | some hsubs =>
    cases ht' with
    | some hsubs' => exact .some (List.Subset.trans hsubs' hsubs)

theorem Client.Thins.none_iff (h : c.Thins c') (t : Topic) : c'.topics t = none ↔ c.topics t = none := by
  have ht := h t
  generalize c.topics t = o at ht ⊢
  generalize c'.topics t = o' at ht ⊢
  cases ht with
  | none => exact Iff.rfl
  | some _ => exact iff_of_false nofun nofun

theorem Client.thins_update {st st' : TopicState} (htopic : c.topics topic = some st)
    (htopics : c'.topics = Function.update c.topics topic (some st')) (hsubs : st'.subs ⊆ st.subs) :
    c.Thins c' := by
  intro t
  rw [htopics]
  by_cases ht : t = topic
  · rw [ht, Function.update_self, htopic]
    exact .some hsubs
  · rw [Function.update_of_ne ht]
    exact Client.Thins.refl c t

theorem Client.thins_deliver (c : Client B) (e : RecordEvent B) : c.Thins (c.deliver e) := by
  rw [Client.deliver]
  cases htopic : c.topics e.topic with
  | none => exact .refl c
  | some st =>
    cases e.instant with
    | none => exact Client.thins_update htopic rfl (List.filter_subset_self _)
    | some instant =>
      dsimp only
      split
      · exact .refl c
      · exact Client.thins_update htopic rfl (List.filter_subset_self _)

theorem Client.thins_raise (c : Client B) (topic : Topic) (cursor : Nat) : c.Thins (c.raise topic cursor) := by
  rw [Client.raise]
  cases htopic : c.topics topic with
  | none => exact .refl c
  | some st => exact Client.thins_update htopic rfl (List.Subset.refl _)

theorem Client.thins_ackTopic (c : Client B) (topic : Topic) (tail : Nat) :
    c.Thins (c.ackTopic topic tail) := by
  rw [Client.ackTopic]
  cases htopic : c.topics topic with
  | none => exact .refl c
  | some st => exact Client.thins_update htopic rfl (List.Subset.refl _)

theorem Client.thins_unacked (c : Client B) : c.Thins c.unacked := by
  intro t
  rw [Client.unacked]
  dsimp only
  cases c.topics t with
  | none => exact .none
  | some st => exact .some (List.Subset.refl _)

theorem Client.thins_foldl {α : Type} {f : Client B → α → Client B} (hf : ∀ (c : Client B) a, c.Thins (f c a)) (l : List α)
    (c : Client B) : c.Thins (l.foldl f c) := by
  induction l generalizing c with
  | nil => exact .refl c
  | cons a l ih => exact (hf c a).trans (ih _)

theorem thins_caughtUp (s : Sys B) (buffered : List (RecordEvent B)) (reply : SyncReply B) :
    s.client.Thins (s.caughtUp buffered reply).client :=
  ((Client.thins_foldl Client.thins_deliver _ _).trans
    (Client.thins_foldl (fun c (x : Topic × Nat) => c.thins_raise x.1 x.2) _ _)).trans
    (Client.thins_foldl Client.thins_deliver _ _)

end Thins

section Kept

-- The client has the topics with a watch, and lists only watches.
structure Kept (c : Client B) (ws : List (Nat × Topic)) : Prop where
  known : ∀ t w, (w, t) ∈ ws → c.topics t ≠ none
  wanted : ∀ t st, c.topics t = some st → Wanted ws t
  listed : ∀ t st, c.topics t = some st → ∀ w ∈ st.subs, (w, t) ∈ ws

theorem Kept.iff (h : Kept c ws) (t : Topic) : c.topics t ≠ none ↔ Wanted ws t := by
  constructor
  · intro hne
    obtain ⟨st, hst⟩ := Option.ne_none_iff_exists'.mp hne
    exact h.wanted t st hst
  · rintro ⟨w, hw⟩
    exact h.known t w hw

theorem Kept.thins (h : Kept c ws) (hthins : c.Thins c') : Kept c' ws := by
  have hback : ∀ t st', c'.topics t = some st' → ∃ st, c.topics t = some st ∧ st'.subs ⊆ st.subs := by
    intro t st' hst'
    have ht := hthins t
    rw [hst'] at ht
    generalize c.topics t = o at ht
    cases ht with
    | some hsubs => exact ⟨_, rfl, hsubs⟩
  refine ⟨fun t w hw hnone => ?_, fun t st' hst' => ?_, fun t st' hst' w hw => ?_⟩
  · exact h.known t w hw ((hthins.none_iff t).mp hnone)
  · obtain ⟨st, hst, -⟩ := hback t st' hst'
    exact h.wanted t st hst
  · obtain ⟨st, hst, hsubs⟩ := hback t st' hst'
    exact h.listed t st hst w (hsubs hw)

theorem Kept.adds (h : Kept c ws) {watch : Nat} {st : TopicState}
    (htopics : c'.topics = Function.update c.topics topic (some st))
    (hsubs : st.subs = ((c.topics topic).getD {}).subs ++ [watch]) : Kept c' ((watch, topic) :: ws) := by
  have hcases : ∀ t st', c'.topics t = some st' → t = topic ∧ st' = st ∨ t ≠ topic ∧ c.topics t = some st' := by
    intro t st' hst'
    rw [htopics] at hst'
    by_cases ht : t = topic
    · rw [ht, Function.update_self] at hst'
      exact .inl ⟨ht, (Option.some.inj hst').symm⟩
    · rw [Function.update_of_ne ht] at hst'
      exact .inr ⟨ht, hst'⟩
  refine ⟨fun t w hw => ?_, fun t st' hst' => ?_, fun t st' hst' w hw => ?_⟩
  · rw [htopics]
    by_cases ht : t = topic
    · rw [ht, Function.update_self]
      exact Option.some_ne_none st
    · rw [Function.update_of_ne ht]
      rcases List.mem_cons.mp hw with heq | hw
      · cases heq
        exact absurd rfl ht
      · exact h.known t w hw
  · rcases hcases t st' hst' with ⟨rfl, rfl⟩ | ⟨-, hst⟩
    · exact ⟨watch, List.mem_cons_self⟩
    · obtain ⟨w, hw⟩ := h.wanted t st' hst
      exact ⟨w, List.mem_cons_of_mem _ hw⟩
  · rcases hcases t st' hst' with ⟨rfl, rfl⟩ | ⟨-, hst⟩
    · rw [hsubs] at hw
      rcases List.mem_append.mp hw with hw | hw
      · cases htopic : c.topics t with
        | none =>
          rw [htopic] at hw
          cases hw
        | some old =>
          rw [htopic] at hw
          exact List.mem_cons_of_mem _ (h.listed t old htopic w hw)
      · rw [List.mem_singleton.mp hw]
        exact List.mem_cons_self
    · exact List.mem_cons_of_mem _ (h.listed t st' hst w hw)

theorem Kept.leaves (h : Kept c ws) (watch : Nat)
    (horderly : ∀ st, c.topics topic = some st → (∀ w ∈ st.subs, w = watch) →
      st.pending = [] ∧ ∀ w, (w, topic) ∈ ws → w = watch) :
    Kept (c.unsubscribe topic watch).1 (ws.filter (· ≠ (watch, topic))) := by
  have hmem : ∀ w t, (w, t) ∈ ws.filter (· ≠ (watch, topic)) ↔ (w, t) ∈ ws ∧ ¬(w = watch ∧ t = topic) := by
    intro w t
    rw [List.mem_filter, decide_eq_true_iff, Ne, Prod.mk.injEq]
  -- Nothing changes for the other topics.
  have hother : ∀ t w, t ≠ topic → ((w, t) ∈ ws.filter (· ≠ (watch, topic)) ↔ (w, t) ∈ ws) := by
    intro t w ht
    rw [hmem]
    exact and_iff_left fun hand => ht hand.2
  have hset : ∀ state : Option TopicState,
      (∀ w, (w, topic) ∈ ws → w ≠ watch → state ≠ none) →
      (∀ st, state = some st → (∃ w, (w, topic) ∈ ws ∧ w ≠ watch) ∧
        ∀ w ∈ st.subs, (w, topic) ∈ ws ∧ w ≠ watch) →
      Kept (c.setTopic topic state) (ws.filter (· ≠ (watch, topic))) := by
    intro state hknown hstate
    refine ⟨fun t w hw => ?_, fun t st hst => ?_, fun t st hst w hw => ?_⟩
    · rw [topics_setTopic]
      split
      · rename_i ht
        subst ht
        obtain ⟨hw, hne⟩ := (hmem w t).mp hw
        exact hknown w hw fun heq => hne ⟨heq, rfl⟩
      · rename_i ht
        exact h.known t w ((hother t w ht).mp hw)
    · rw [topics_setTopic] at hst
      split at hst
      · rename_i ht
        subst ht
        obtain ⟨⟨w, hw, hne⟩, -⟩ := hstate st hst
        exact ⟨w, (hmem w t).mpr ⟨hw, fun hand => hne hand.1⟩⟩
      · rename_i ht
        obtain ⟨w, hw⟩ := h.wanted t st hst
        exact ⟨w, (hother t w ht).mpr hw⟩
    · rw [topics_setTopic] at hst
      split at hst
      · rename_i ht
        subst ht
        obtain ⟨hin, hne⟩ := (hstate st hst).2 w hw
        exact (hmem w t).mpr ⟨hin, fun hand => hne hand.1⟩
      · rename_i ht
        exact (hother t w ht).mpr (h.listed t st hst w hw)
  rcases unsubscribe_cases c topic watch with ⟨heq, hnone⟩ | ⟨st, hst, hcase⟩
  · have hall : ws.filter (· ≠ (watch, topic)) = ws := by
      refine List.filter_eq_self.mpr fun x hx => decide_eq_true fun hwatch => ?_
      rw [hwatch] at hx
      exact h.known topic watch hx hnone
    rw [heq, hall]
    exact h
  · rcases hcase with ⟨hlast, -, heq⟩ | ⟨hnot, heq⟩
    · rw [heq]
      obtain ⟨-, honly⟩ := horderly st hst hlast
      exact hset none (fun w hw hne => absurd (honly w hw) hne) nofun
    · rw [heq]
      have hsome : ∃ w ∈ st.subs, w ≠ watch := by
        by_contra hall
        have hlast : ∀ w ∈ st.subs, w = watch := fun w hw =>
          not_not.mp fun hne => hall ⟨w, hw, hne⟩
        exact hnot ⟨hlast, (horderly st hst hlast).1⟩
      refine hset _ (fun _ _ _ => Option.some_ne_none _) fun st' hst' => ?_
      cases hst'
      obtain ⟨w, hw, hne⟩ := hsome
      refine ⟨⟨w, h.listed topic st hst w hw, hne⟩, fun w hw => ?_⟩
      obtain ⟨hw, hne⟩ := List.mem_filter.mp hw
      exact ⟨h.listed topic st hst w hw, of_decide_eq_true hne⟩

end Kept

section Told

def heeds (topics : Finset Topic) : ClientMsg → Finset Topic
  | .subscribe topic => insert topic topics
  | .unsubscribe topic => topics.erase topic

def Sys.promised (s : Sys B) : Finset Topic := s.up.foldl heeds s.session.topics

def Told (s : Sys B) : Prop := s.phase.Connected → ∀ t, t ∈ s.promised ↔ s.client.topics t ≠ none

theorem told_new : Told (Sys.new : Sys B) := fun _ t => iff_of_false (Finset.notMem_empty t) fun h => h rfl

theorem Told.thins (h : Told s) (hpromised : s'.promised = s.promised) (hthins : s.client.Thins s'.client)
    (hphase : s'.phase.Connected → s.phase.Connected) : Told s' := by
  intro hconn t
  rw [hpromised, h (hphase hconn) t]
  exact not_congr (hthins.none_iff t).symm

theorem promised_nodeTakes {msg : ClientMsg} {up : List ClientMsg} (hhead : s.up = msg :: up) :
    ({ s with up := up }.nodeTakes msg).promised = s.promised := by
  rw [Sys.promised, Sys.promised, hhead, List.foldl_cons]
  cases msg <;> rfl

theorem Told.subscribe (h : Told s) (topic : Topic) (watch watches : Nat) :
    Told { s with
      client := (s.client.subscribe topic watch).1
      up := s.up ++ (s.client.subscribe topic watch).2
      watches := watches } := by
  intro hconn t
  obtain ⟨st, htopics, -, hsent⟩ := subscribe_adds s.client topic watch
  have hbefore := h hconn t
  rw [Sys.promised] at hbefore ⊢
  dsimp only
  rw [htopics, List.foldl_append]
  by_cases ht : t = topic
  · subst ht
    rw [Function.update_self]
    refine iff_of_true ?_ (Option.some_ne_none st)
    rcases hsent with hsent | ⟨hsent, hknown⟩
    · rw [hsent]
      exact Finset.mem_insert_self _ _
    · rw [hsent]
      exact hbefore.mpr hknown
  · rw [Function.update_of_ne ht, ← hbefore]
    rcases hsent with hsent | ⟨hsent, -⟩
    · rw [hsent]
      exact Finset.mem_insert.trans (or_iff_right ht)
    · rw [hsent]
      exact Iff.rfl

theorem Told.unsubscribe (h : Told s) (topic : Topic) (watch : Nat) :
    Told { s with
      client := (s.client.unsubscribe topic watch).1
      up := s.up ++ (s.client.unsubscribe topic watch).2 } := by
  intro hconn t
  have hbefore := h hconn t
  rw [Sys.promised] at hbefore ⊢
  dsimp only
  rw [List.foldl_append]
  rcases unsubscribe_cases s.client topic watch with ⟨heq, -⟩ | ⟨st, hst, ⟨-, -, heq⟩ | ⟨-, heq⟩⟩
  · rw [heq]
    exact hbefore
  · rw [heq, topics_setTopic]
    by_cases ht : t = topic
    · rw [if_pos ht, ht]
      exact iff_of_false (Finset.notMem_erase _ _) fun hne => hne rfl
    · rw [if_neg ht, ← hbefore]
      exact Finset.mem_erase.trans (and_iff_right ht)
  · rw [heq, topics_setTopic]
    refine hbefore.trans ?_
    by_cases ht : t = topic
    · rw [if_pos ht, ht, hst]
      exact iff_of_true (Option.some_ne_none _) (Option.some_ne_none _)
    · rw [if_neg ht]

theorem foldl_subscribe (order : List Topic) (topics : Finset Topic) :
    (order.map ClientMsg.subscribe).foldl heeds topics = topics ∪ order.toFinset := by
  induction order generalizing topics with
  | nil => simp
  | cons topic order ih =>
    rw [List.map_cons, List.foldl_cons, ih, List.toFinset_cons, heeds, Finset.insert_union,
      Finset.union_insert]

theorem Told.dials {order : List Topic} (hall : ∀ t, t ∈ order ↔ (s.client.topics t).isSome) :
    Told (s.dialed order) := by
  intro _ t
  have hpromised : (s.dialed order).promised = ∅ ∪ order.toFinset := foldl_subscribe order ∅
  rw [hpromised, Finset.empty_union, List.mem_toFinset, hall, Option.isSome_iff_ne_none]
  exact not_congr (s.client.thins_unacked.none_iff t).symm

end Told

section Run

theorem Kept.step {a : Action B} (h : Kept s.client ws) (horderly : Orderly (s, ws) a) (hstep : Step s a s') :
    Kept s'.client (attend s ws a) := by
  cases hstep with
  | subscribe =>
    obtain ⟨st, htopics, hsubs, -⟩ := subscribe_adds s.client _ s.watches
    exact h.adds htopics hsubs
  | unsubscribe => exact h.leaves _ horderly
  | subscribeOffline =>
    obtain ⟨st, htopics, hsubs⟩ := topics_applySubscribe s.client _ s.watches
    exact h.adds htopics hsubs
  | unsubscribeOffline =>
    dsimp only
    rw [applyUnsubscribe_eq]
    exact h.leaves _ horderly
  | close => exact h.thins (Client.Thins.refl s.client)
  | @nodeReads msg _ _ _ => cases msg <;> exact h
  | publishes =>
    rw [publish_eq]
    exact h
  | @clientReads msg _ _ _ =>
    cases msg with
    | topicOk topic tail => exact h.thins (s.client.thins_ackTopic topic tail)
    | event e => exact h.thins (s.client.thins_deliver e)
  | @clientBuffers msg _ _ _ _ =>
    cases msg with
    | topicOk topic tail => exact h.thins (s.client.thins_ackTopic topic tail)
    | event e => exact h
  | dials => exact h.thins s.client.thins_unacked
  | catchesUp => exact h.thins (thins_caughtUp s _ _)
  | nodeAnswers | nodeForwards | commits | drops | dialFails | resubscribeFails | syncs | navigates |
      syncFails | refused => exact h

theorem Told.step {a : Action B} (h : Told s) (hstep : Step s a s') : Told s' := by
  have hsame := Client.Thins.refl s.client
  cases hstep with
  | subscribe hserving => exact h.subscribe _ _ _
  | unsubscribe => exact h.unsubscribe _ _
  | subscribeOffline hphase | unsubscribeOffline hphase =>
    intro hconn
    rw [show Phase.Connected _ ↔ Phase.Connected Phase.offline by rw [hphase]] at hconn
    exact absurd hconn id
  | close => exact h.thins rfl hsame id
  | @nodeReads msg _ _ hhead =>
    have hpromised := promised_nodeTakes hhead
    cases msg <;> exact h.thins hpromised hsame id
  | publishes =>
    rw [publish_eq]
    exact h.thins rfl hsame id
  | @clientReads msg _ _ _ =>
    cases msg with
    | topicOk topic tail => exact h.thins rfl (s.client.thins_ackTopic topic tail) id
    | event e => exact h.thins rfl (s.client.thins_deliver e) id
  | @clientBuffers msg _ _ hphase _ =>
    have hconn : s.phase.Connected := by
      rw [hphase]
      trivial
    cases msg with
    | topicOk topic tail => exact h.thins rfl (s.client.thins_ackTopic topic tail) id
    | event e => exact h.thins rfl hsame fun _ => hconn
  | dials _ _ hall => exact Told.dials hall
  | syncs hphase _ | navigates hphase _ =>
    refine h.thins rfl hsame fun _ => ?_
    rw [hphase]
    trivial
  | catchesUp hphase =>
    refine h.thins rfl (thins_caughtUp s _ _) fun _ => ?_
    rw [hphase]
    trivial
  | nodeAnswers | nodeForwards | commits | dialFails => exact h.thins rfl hsame id
  | drops | resubscribeFails | syncFails | refused => exact fun hconn => absurd hconn id

-- A topic has a state exactly while it is watched, and once every request has been
-- answered the node holds exactly these topics.
theorem subscribed_while_watched {p : Sys B × List (Nat × Topic)} (h : Leads Attended Orderly (Sys.new, []) p) :
    (p.1.phase ≠ .ended → ∀ t, (p.1.client.topics t).isSome ↔ Wanted p.2 t) ∧
    (p.1.phase.Connected → p.1.Answered → ∀ t, t ∈ p.1.session.topics ↔ Wanted p.2 t) := by
  have hnew : Kept (Sys.new : Sys B).client [] ∧ Told (Sys.new : Sys B) :=
    ⟨⟨nofun, nofun, nofun⟩, told_new⟩
  have hstep : ∀ (p : Sys B × List (Nat × Topic)) (a : Action B) (p' : Sys B × List (Nat × Topic)),
      Kept p.1.client p.2 ∧ Told p.1 → Orderly p a → Attended p a p' → Kept p'.1.client p'.2 ∧ Told p'.1 := by
    rintro p a p' ⟨hkept, htold⟩ horderly ⟨hnext, hws⟩
    rw [hws]
    exact ⟨hkept.step horderly hnext, htold.step hnext⟩
  obtain ⟨hkept, htold⟩ := h.invariant hnew hstep
  refine ⟨fun _ t => ?_, fun hconn hanswered t => ?_⟩
  · rw [Option.isSome_iff_ne_none]
    exact hkept.iff t
  · have ht := htold hconn t
    rw [Sys.promised, hanswered.up] at ht
    exact ht.trans (hkept.iff t)

theorem Attended.leads {ok : Sys B × List (Nat × Topic) → Action B → Prop} {start : Sys B × List (Nat × Topic)}
    (h : Leads Attended ok start (s, ws)) (a : Action B) (hstep : Step s a s') (hmeets : ok (s, ws) a) :
    Leads Attended ok start (s', attend s ws a) :=
  h.step hmeets ⟨hstep, rfl⟩

def sharedTopic : Topic := ⟨7, none⟩

-- A watch joins another one, which then leaves.
theorem subscribed_while_watched_sample : ∃ p : Sys Nat × List (Nat × Topic),
    Leads Attended Orderly (Sys.new, []) p ∧ p.1.Answered ∧ p.2 = [(1, sharedTopic)] ∧
      sharedTopic ∈ p.1.session.topics := by
  have hstart : Leads Attended Orderly ((Sys.new : Sys Nat), []) (Sys.new, []) := .start
  have hcame := Attended.leads hstart (.subscribe sharedTopic) (.subscribe rfl) trivial
  have hread := Attended.leads hcame .nodeReads (.nodeReads rfl rfl) trivial
  have hanswered := Attended.leads hread .nodeAnswers (.nodeAnswers rfl) trivial
  have hlive := Attended.leads hanswered .clientReads (.clientReads rfl rfl) trivial
  have hjoined := Attended.leads hlive (.subscribe sharedTopic) (.subscribe rfl) trivial
  have hleft := Attended.leads hjoined (.unsubscribe sharedTopic 0) (.unsubscribe rfl) fun st hst hlast => by
    cases hst
    exact absurd (hlast 1 (by decide)) (by decide)
  have hheld := (subscribed_while_watched hleft).2 trivial ⟨rfl, rfl, nofun⟩ sharedTopic
  exact ⟨_, hleft, ⟨rfl, rfl, nofun⟩, rfl, hheld.mpr ⟨1, by decide⟩⟩

-- The only watch leaves before the node's answer, which makes the topic live for
-- nobody.
theorem left_before_answer : ∃ p : Sys Nat × List (Nat × Topic),
    Leads Attended (fun _ _ => True) (Sys.new, []) p ∧ p.1.phase = .serving ∧ p.1.Answered ∧ p.2 = [] ∧
      sharedTopic ∈ p.1.session.topics ∧
      p.1.client.topics sharedTopic = some { live := true, subs := [], pending := [], cursor := some 0 } := by
  have hstart : Leads Attended (fun _ _ => True) ((Sys.new : Sys Nat), []) (Sys.new, []) := .start
  have hcame := Attended.leads hstart (.subscribe sharedTopic) (.subscribe rfl) trivial
  have hleft := Attended.leads hcame (.unsubscribe sharedTopic 0) (.unsubscribe rfl) trivial
  have hread := Attended.leads hleft .nodeReads (.nodeReads rfl rfl) trivial
  have hanswered := Attended.leads hread .nodeAnswers (.nodeAnswers rfl) trivial
  have hlive := Attended.leads hanswered .clientReads (.clientReads rfl rfl) trivial
  exact ⟨_, hlive, rfl, ⟨rfl, rfl, nofun⟩, rfl, Finset.mem_insert_self _ _, rfl⟩

end Run

end WaveDb.Watch
