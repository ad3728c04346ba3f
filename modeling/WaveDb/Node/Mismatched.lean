import WaveDb.Node.Live

-- What a token shows its bearer when its user is not its tenant.
namespace WaveDb.Node

open WaveDb.Net

variable {S : Type} {registry : Registry S} {caller : Caller} {codec : Codec} {hash : Nat}

section Refused

def Registry.NoFn (registry : Registry S) (hash : Nat) : Prop := ∀ hash' f, registry.find hash ≠ some (.fn hash' f)

-- One user for each tenant, as in the generated steps.
def Registry.OneUser (registry : Registry S) : Prop :=
  ∀ hash ops command target, .struct hash ops ∈ registry → ops command = .overridden target →
    ∀ caller payload, caller.user ≠ caller.tenant → ∃ err, ∀ store, target store caller payload = (.error err, store)

theorem opFn_refuses (body : Step S) (hne : caller.user ≠ caller.tenant) (payload : Bytes) :
    ∃ err, ∀ store, opFn body store caller payload = (.error err, store) := by
  unfold opFn
  by_cases hanonymous : caller.isAnonymous
  · exact ⟨_, fun store => if_pos hanonymous⟩
  · simp only [if_neg hanonymous, if_pos hne]
    exact ⟨_, fun store => rfl⟩

theorem Registry.OneUser.refuses (h : registry.OneUser) (hne : caller.user ≠ caller.tenant)
    (hfn : registry.NoFn hash) : registry.Refuses caller hash := by
  intro command payload
  simp only [Registry.execute]
  cases hfind : registry.find hash with
  | none => exact ⟨_, fun _ => rfl⟩
  | some e =>
    have hmem : e ∈ registry := List.mem_of_find?_eq_some hfind
    cases e with
    | fn hash' f => exact absurd hfind (hfn hash' f)
    | store hash' => exact ⟨_, fun _ => rfl⟩
    | struct hash' ops =>
      simp only [Entry.execute]
      cases hop : ops command with
      | generated body => exact opFn_refuses body hne payload
      | overridden target => exact h hash' ops command target hmem hop caller payload hne
      | never => exact ⟨_, fun _ => rfl⟩

end Refused

section Named

-- The hashes that a request, and a message of a socket, name are not those of
-- functions.
def Request.StructsOnly (codec : Codec) (registry : Registry S) (request : Request) : Prop :=
  registry.NoFn request.frame.structHash ∧
    (∀ declared ∈ request.sync, registry.NoFn declared.topic.structHash) ∧
    (request.frame.structHash = syncStructHash → ∀ topics, codec.syncRequest request.frame.payload = .ok topics →
      ∀ declared ∈ topics, registry.NoFn declared.topic.structHash)

def Incoming.StructsOnly (registry : Registry S) : Incoming → Prop
  | .call frame => registry.NoFn frame.structHash
  | .subscribe topic => registry.NoFn topic.structHash
  | .event _ => False
  | _ => True

theorem handle_refuses (h : registry.OneUser) (hne : caller.user ≠ caller.tenant) {now : Nat} {request : Request}
    (hcaller : ∀ c, identify now request.auth = some c → c = caller) (hnames : request.StructsOnly codec registry) :
    ∃ answer, ∀ store, handle codec registry now store request = (answer, store) := by
  obtain ⟨hframe, hsync, hpoll⟩ := hnames
  unfold handle
  cases hid : identify now request.auth with
  | none => exact ⟨_, fun store => rfl⟩
  | some c =>
    cases hcaller c hid
    by_cases hhash : request.frame.structHash = syncStructHash
    · have hpolled : ∃ response, ∀ store,
          syncPoll codec registry store caller request.frame.payload = (response, store) :=
        syncPoll_refuses fun topics htopics declared hmem =>
          h.refuses hne (hpoll hhash topics htopics declared hmem)
      obtain ⟨response, hresponse⟩ := hpolled
      exact ⟨⟨response, none⟩, fun store => by simp only [if_pos hhash, hresponse store]⟩
    · obtain ⟨refusal, hrefusal⟩ := execute_refuses (h.refuses hne hframe)
      have hdelta : ∀ store, piggyback codec registry store caller request.sync = (none, store) :=
        piggyback_none fun declared hmem => h.refuses hne (hsync declared hmem)
      exact ⟨⟨refusal, none⟩, fun store => by simp only [if_neg hhash, hrefusal store, hdelta store]⟩

theorem handleClient_refuses (h : registry.OneUser) (hne : caller.user ≠ caller.tenant) {item : Incoming}
    (hnames : item.StructsOnly registry) (topics : Finset Topic) :
    ∃ out topics', ∀ store, handleClient codec registry caller store topics item = (out, topics', store) := by
  cases item with
  | hello auth => exact ⟨_, _, fun store => rfl⟩
  | unsubscribe topic => exact ⟨_, _, fun store => rfl⟩
  | ping payload => exact ⟨_, _, fun store => rfl⟩
  | event e => exact hnames.elim
  | call frame =>
    obtain ⟨refusal, hrefusal⟩ := execute_refuses (h.refuses hne hnames)
    exact ⟨[.reply refusal], some topics, fun store => by simp only [handleClient, hrefusal store]⟩
  | subscribe topic =>
    have htail : ∀ store, topicTail codec registry store caller topic = (0, store) :=
      topicTail_refuses (h.refuses hne hnames)
    by_cases hanonymous : caller.isAnonymous
    · exact ⟨[.close], none, fun store => by simp only [handleClient, if_pos hanonymous]⟩
    · exact ⟨[.topicOk topic 0], some (insert topic topics), fun store => by
        simp only [handleClient, if_neg hanonymous, htail store]⟩

end Named

section Runs

def Happening.Of (codec : Codec) (registry : Registry S) (caller : Caller) : Happening S → Prop
  | .request now asked =>
    (∀ c, identify now asked.auth = some c → c = caller) ∧ asked.StructsOnly codec registry
  | .opened now first => ∀ auth c, first = .hello auth → identify now auth = some c → c = caller
  | .message _ item => item.StructsOnly registry
  | .closed _ => True
  | .wrote _ _ => True

def Happening.isWrite : Happening S → Bool
  | .wrote _ _ => true
  | _ => false

def Unheard (caller : Caller) (items : List (Happening S)) : Prop :=
  ∀ store published, .wrote store published ∈ items → ∀ m ∈ published, m.tenant = caller.tenant →
    ∀ conn, .message conn (.subscribe m.event.topic) ∉ items

-- All sessions are the caller's, and the topics in the table are among `T`.
structure LiveNode.Watches (caller : Caller) (T : Set Topic) (node : LiveNode S) : Prop where
  subs : ∀ sub ∈ node.subs, sub.topic ∈ T ∧ sub.tenant = caller.tenant
  sessions : ∀ conn session, node.sessions conn = some session → session.caller = caller

def LiveNode.withStore (node : LiveNode S) (store : S) : LiveNode S := { node with store }

variable {T : Set Topic} {node : LiveNode S}

namespace LiveNode.Watches

theorem session (h : node.Watches caller T) {session : Session} (hsession : session.caller = caller) (conn : Nat) :
    ∀ conn' session', Function.update node.sessions conn (some session) conn' = some session' →
      session'.caller = caller := by
  intro conn' session' hsome
  by_cases heq : conn' = conn
  · subst heq
    rw [Function.update_self] at hsome
    cases hsome
    exact hsession
  · rw [Function.update_of_ne heq] at hsome
    exact h.sessions conn' session' hsome

theorem close (h : node.Watches caller T) (conn : Nat) (session : Session) :
    (node.close conn session).Watches caller T where
  subs sub hsub := h.subs sub (List.mem_of_mem_filter hsub)
  sessions conn' session' hsome := by
    rw [LiveNode.close] at hsome
    by_cases heq : conn' = conn
    · subst heq
      simp at hsome
    · exact h.sessions conn' session' (by simpa [heq] using hsome)

theorem resubscribe (h : node.Watches caller T) {session : Session} (hsession : session.caller = caller)
    {item : Incoming} (hT : ∀ topic, item = .subscribe topic → topic ∈ T) (conn : Nat) :
    ∀ sub ∈ LiveNode.resubscribe node.subs conn session item, sub.topic ∈ T ∧ sub.tenant = caller.tenant := by
  intro sub hsub
  cases item with
  | subscribe topic =>
    rw [LiveNode.resubscribe] at hsub
    split at hsub
    · exact h.subs sub hsub
    · rcases List.mem_append.mp hsub with hold | hnew
      · exact h.subs sub hold
      · rw [List.mem_singleton.mp hnew, hsession]
        exact ⟨hT topic rfl, rfl⟩
  | unsubscribe topic =>
    rw [LiveNode.resubscribe] at hsub
    split at hsub
    · exact h.subs sub (SubTable.mem_unsubscribe hsub)
    · exact h.subs sub hsub
  | hello auth => exact h.subs sub hsub
  | call frame => exact h.subs sub hsub
  | ping payload => exact h.subs sub hsub
  | event e => exact h.subs sub hsub

theorem receive (h : node.Watches caller T) (hone : registry.OneUser) (hne : caller.user ≠ caller.tenant)
    {item : Incoming} (hnames : item.StructsOnly registry) (hT : ∀ topic, item = .subscribe topic → topic ∈ T)
    (conn : Nat) :
    ∃ (out : List Delivery) (next : LiveNode S), next.Watches caller T ∧
      ∀ store, (node.withStore store).receive codec registry conn item = (out, next.withStore store) := by
  cases hsession : node.sessions conn with
  | none =>
    refine ⟨[], node, h, fun store => ?_⟩
    simp only [LiveNode.receive, LiveNode.withStore, hsession]
  | some session =>
    have hcaller := h.sessions conn session hsession
    have hhandled : ∃ out topics', ∀ store,
        handleClient codec registry caller store session.topics item = (out, topics', store) :=
      handleClient_refuses hone hne hnames session.topics
    obtain ⟨out, topics', hhandled⟩ := hhandled
    cases topics' with
    | none =>
      refine ⟨out.map (.socket conn), node.close conn session, h.close conn session, fun store => ?_⟩
      simp only [LiveNode.receive, LiveNode.withStore, hsession, hcaller, hhandled store]
      rfl
    | some topics =>
      refine ⟨out.map (.socket conn), { node with
        subs := LiveNode.resubscribe node.subs conn session item
        sessions := Function.update node.sessions conn (some { session with topics }) },
        ⟨h.resubscribe hcaller hT conn, h.session (show { session with topics }.caller = caller from hcaller) conn⟩,
        fun store => ?_⟩
      simp only [LiveNode.receive, LiveNode.withStore, hsession, hcaller, hhandled store]

theorem step (h : node.Watches caller T) (hone : registry.OneUser) (hne : caller.user ≠ caller.tenant)
    {item : Happening S} (hof : item.Of codec registry caller) (hclient : item.isWrite = false)
    (hT : ∀ conn topic, item = .message conn (.subscribe topic) → topic ∈ T) :
    ∃ (out : List Delivery) (next : LiveNode S), next.Watches caller T ∧
      ∀ store, (node.withStore store).step codec registry item = (out, next.withStore store) := by
  cases item with
  | wrote store published => cases hclient
  | message conn message =>
    exact h.receive hone hne hof (fun topic htopic => hT conn topic (congrArg _ htopic)) conn
  | request now asked =>
    have hhandled : ∃ answer, ∀ store, handle codec registry now store asked = (answer, store) :=
      handle_refuses hone hne hof.1 hof.2
    obtain ⟨answer, hanswer⟩ := hhandled
    refine ⟨[.answer answer], node, h, fun store => ?_⟩
    simp only [LiveNode.step, LiveNode.withStore, hanswer store]
  | closed conn =>
    cases hsession : node.sessions conn with
    | none =>
      refine ⟨[], node, h, fun store => ?_⟩
      simp only [LiveNode.step, LiveNode.withStore, hsession]
    | some session =>
      refine ⟨[], node.close conn session, h.close conn session, fun store => ?_⟩
      simp only [LiveNode.step, LiveNode.withStore, hsession]
      rfl
  | opened now first =>
    cases first with
    | hello auth =>
      cases hid : identify now auth with
      | none =>
        refine ⟨[.socket node.nextConn .close], node, h, fun store => ?_⟩
        simp only [LiveNode.step, LiveNode.withStore, hid]
      | some c =>
        refine ⟨[.socket node.nextConn .helloOk], { node with
          nextConn := node.nextConn + 1
          sessions := Function.update node.sessions node.nextConn (some ⟨c, ∅⟩) },
          ⟨h.subs, h.session (hof auth c rfl hid) node.nextConn⟩, fun store => ?_⟩
        simp only [LiveNode.step, LiveNode.withStore, hid]
    | call frame => exact ⟨[.socket node.nextConn .close], node, h, fun store => rfl⟩
    | subscribe topic => exact ⟨[.socket node.nextConn .close], node, h, fun store => rfl⟩
    | unsubscribe topic => exact ⟨[.socket node.nextConn .close], node, h, fun store => rfl⟩
    | ping payload => exact ⟨[.socket node.nextConn .close], node, h, fun store => rfl⟩
    | event e => exact ⟨[.socket node.nextConn .close], node, h, fun store => rfl⟩

theorem wrote (h : node.Watches caller T) {published : List Mutation}
    (hT : ∀ m ∈ published, m.tenant = caller.tenant → m.event.topic ∉ T) (store store' : S) :
    (node.withStore store).step codec registry (.wrote store' published) = ([], node.withStore store') := by
  have hnone : published.flatMap node.subs.publish = [] := by
    rw [List.flatMap_eq_nil_iff]
    intro m hm
    refine SubTable.publish_eq_nil fun sub hsub htenant htopic => ?_
    obtain ⟨hmem, hown⟩ := h.subs sub hsub
    exact hT m hm (htenant.symm.trans hown) (htopic ▸ hmem)
  simp only [LiveNode.step, LiveNode.withStore, hnone, List.map_nil]

theorem run (h : node.Watches caller T) (hone : registry.OneUser) (hne : caller.user ≠ caller.tenant)
    {items : List (Happening S)} (hof : ∀ item ∈ items, item.Of codec registry caller)
    (hT : ∀ conn topic, .message conn (.subscribe topic) ∈ items → topic ∈ T)
    (hquiet : ∀ store published, .wrote store published ∈ items →
      ∀ m ∈ published, m.tenant = caller.tenant → m.event.topic ∉ T) (store store' : S) :
    ((node.withStore store).run codec registry items).1 =
      ((node.withStore store').run codec registry (items.filter (!·.isWrite))).1 := by
  induction items generalizing node store store' with
  | nil => rfl
  | cons item items ih =>
    have htail : ∀ {node : LiveNode S}, node.Watches caller T → ∀ store store',
        ((node.withStore store).run codec registry items).1 =
          ((node.withStore store').run codec registry (items.filter (!·.isWrite))).1 := by
      intro node hnode
      exact ih hnode (fun item hitem => hof item (List.mem_cons_of_mem _ hitem))
        (fun conn topic hmem => hT conn topic (List.mem_cons_of_mem _ hmem))
        (fun store published hmem => hquiet store published (List.mem_cons_of_mem _ hmem))
    cases hwrite : item.isWrite with
    | true =>
      cases item with
      | wrote after published =>
        have hstep : (node.withStore store).step codec registry (.wrote after published) =
            ([], node.withStore after) :=
          h.wrote (hquiet after published List.mem_cons_self) store after
        rw [LiveNode.run, hstep, List.filter_cons_of_neg (by simp [hwrite])]
        exact htail h after store'
      | _ => cases hwrite
    | false =>
      obtain ⟨out, next, hnext, hstep⟩ := h.step hone hne (hof item List.mem_cons_self) hwrite
        fun conn topic heq => hT conn topic (heq ▸ List.mem_cons_self)
      rw [List.filter_cons_of_pos (by simp [hwrite]), LiveNode.run, LiveNode.run, hstep, hstep]
      exact congrArg (out ++ ·) (htail hnext store store')

end LiveNode.Watches

-- Two runs with the same requests of a caller whose user is not its tenant. As long as
-- no write is to a topic that the caller has subscribed to, it receives the same.
theorem mismatched_sees_nothing (codec : Codec) (registry : Registry S) (hone : registry.OneUser) (caller : Caller)
    (hne : caller.user ≠ caller.tenant) (items items' : List (Happening S))
    (hsame : items.filter (!·.isWrite) = items'.filter (!·.isWrite))
    (hof : ∀ item ∈ items, item.Of codec registry caller)
    (hunheard : Unheard caller items) (hunheard' : Unheard caller items') (store store' : S) :
    ((LiveNode.start store).run codec registry items).1 = ((LiveNode.start store').run codec registry items').1 := by
  let T : Set Topic := {topic | ∃ conn, .message conn (.subscribe topic) ∈ items}
  have hstart : (LiveNode.start store).Watches caller T :=
    ⟨fun sub hsub => absurd hsub List.not_mem_nil, fun conn session hsome => nomatch hsome⟩
  -- The caller's part of both runs is one list.
  have hclient : ∀ item : Happening S, item.isWrite = false → (item ∈ items ↔ item ∈ items') := by
    intro item hitem
    have hiff : item ∈ items.filter (!·.isWrite) ↔ item ∈ items'.filter (!·.isWrite) := by rw [hsame]
    simpa [hitem] using hiff
  have hof' : ∀ item ∈ items', item.Of codec registry caller := by
    intro item hitem
    cases hwrite : item.isWrite with
    | false => exact hof item ((hclient item hwrite).mpr hitem)
    | true =>
      cases item with
      | wrote after published => trivial
      | _ => cases hwrite
  have hrun := hstart.run hone hne hof (fun conn topic hmem => ⟨conn, hmem⟩)
    (fun after published hmem m hm htenant ⟨conn, hconn⟩ => hunheard after published hmem m hm htenant conn hconn)
    store store
  have hrun' := hstart.run hone hne hof' (fun conn topic hmem => ⟨conn, (hclient _ rfl).mpr hmem⟩)
    (fun after published hmem m hm htenant ⟨conn, hconn⟩ =>
      hunheard' after published hmem m hm htenant conn ((hclient _ rfl).mp hconn)) store' store
  rw [← hsame] at hrun'
  exact hrun.trans hrun'.symm

-- User 9 under tenant 1, at a node with one struct, whose steps answer with what
-- the store holds.
def strangerAuth : Auth := .token (.signed ⟨9, 1, 100, .access, 0, 0⟩)

def countRegistry : Registry Nat := [.struct 3 fun _ => .generated fun store _ _ => (.ok (.count store), store)]

def idleCodec : Codec where
  syncRequest _ := .ok []
  changesQuery _ _ := []
  change _ := .ok (.cursor 0)
  syncReply _ := []

def ownerWrites (store : Nat) (body : Bytes) : Happening Nat :=
  .wrote store [⟨1, ⟨⟨3, none⟩, ⟨3, 1, 2 ^ 15⟩, .saved, none, body⟩⟩]

def strangerRun (watched : Nat) (store : Nat) (body : Bytes) : List (Happening Nat) :=
  [.opened 0 (.hello strangerAuth), .message 0 (.subscribe ⟨watched, none⟩), ownerWrites store body,
    .request 0 ⟨strangerAuth, ⟨3, .get, []⟩, [⟨⟨3, none⟩, none⟩]⟩]

theorem oneUser_countRegistry : countRegistry.OneUser := by
  intro hash ops command target hmem hop
  cases List.mem_singleton.mp hmem
  cases hop

theorem noFn_countRegistry (hash : Nat) : countRegistry.NoFn hash := by
  intro hash' f hfind
  have hmem := List.mem_of_find?_eq_some hfind
  cases List.mem_singleton.mp hmem

theorem of_strangerRun (watched store : Nat) (body : Bytes) :
    ∀ item ∈ strangerRun watched store body, item.Of idleCodec countRegistry ⟨9, 1⟩ := by
  have hcaller : ∀ c, identify 0 strangerAuth = some c → c = ⟨9, 1⟩ := fun c hc => (Option.some.inj hc).symm
  intro item hitem
  simp only [strangerRun, List.mem_cons, List.not_mem_nil, or_false] at hitem
  rcases hitem with rfl | rfl | rfl | rfl
  · rintro auth c heq hid
    cases heq
    exact hcaller c hid
  · exact noFn_countRegistry watched
  · trivial
  · exact ⟨hcaller, noFn_countRegistry _, fun _ _ => noFn_countRegistry _, fun _ _ _ _ _ => noFn_countRegistry _⟩

theorem mismatched_sees_nothing_sample :
    ((LiveNode.start 0).run idleCodec countRegistry (strangerRun 4 5 [1])).1 =
      ((LiveNode.start 7).run idleCodec countRegistry (strangerRun 4 6 [2])).1 := by
  have hunheard : ∀ store body, Unheard ⟨9, 1⟩ (strangerRun 4 store body) := by
    intro store body after published hmem m hm _ conn hsub
    simp only [strangerRun, ownerWrites, List.mem_cons, List.not_mem_nil, or_false, reduceCtorEq, false_or,
      Happening.wrote.injEq] at hmem
    obtain ⟨rfl, rfl⟩ := hmem
    cases List.mem_singleton.mp hm
    simp [strangerRun, ownerWrites] at hsub
  exact mismatched_sees_nothing idleCodec countRegistry oneUser_countRegistry ⟨9, 1⟩ (by decide)
    (strangerRun 4 5 [1]) (strangerRun 4 6 [2]) rfl (of_strangerRun 4 5 [1]) (hunheard 5 [1]) (hunheard 6 [2]) 0 7

theorem run_strangerRun (body : Bytes) :
    ((LiveNode.start 0).run idleCodec countRegistry (strangerRun 3 5 body)).1.take 3 =
      [.socket 0 .helloOk, .socket 0 (.topicOk ⟨3, none⟩ 0),
        .socket 0 (.event ⟨⟨3, none⟩, ⟨3, 1, 2 ^ 15⟩, .saved, none, body⟩)] := rfl

-- The subscription is taken without a look at the user, and what the owner writes then
-- comes along.
theorem stranger_receives_events :
    identify 0 strangerAuth = some ⟨9, 1⟩ ∧
      (strangerRun 3 5 [1]).filter (!·.isWrite) = (strangerRun 3 5 [2]).filter (!·.isWrite) ∧
      ((LiveNode.start 0).run idleCodec countRegistry (strangerRun 3 5 [1])).1 ≠
        ((LiveNode.start 0).run idleCodec countRegistry (strangerRun 3 5 [2])).1 := by
  refine ⟨rfl, rfl, fun h => ?_⟩
  have h := congrArg (List.take 3) h
  rw [run_strangerRun, run_strangerRun] at h
  simp at h

end Runs

end WaveDb.Node
