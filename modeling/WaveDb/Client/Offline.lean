import WaveDb.Lib.Runs

-- The offline write queue of a client, which every save replays before it sends itself.
namespace WaveDb.Client.Offline

open WaveDb.Lib

section Model

variable {V : Type}

-- A send that faults may have reached the node; a refusal is the node's own answer.
inductive Outcome
  | answered
  | refused
  | faulted (reached : Bool)
  deriving DecidableEq

-- One `Command::Save`. `call` is a history: the number of the call it is from.
structure QueuedOp (V : Type) where
  tenant : Nat
  structHash : Nat
  payload : V
  call : Nat
  deriving DecidableEq

def QueuedOp.key (op : QueuedOp V) : Nat × Nat := (op.tenant, op.structHash)

-- `arrived` is a history of the saves the node has run.
structure Node (V : Type) where
  values : Nat × Nat → Option V
  arrived : List (QueuedOp V)

-- A handle and the node it talks to. `draining` is the guard against a second drain.
-- The numbers of the calls and the saves that returned `Ok` are histories.
structure Db (V : Type) where
  node : Node V
  tenant : Nat
  cache : Option (Nat → Option V)
  queue : List (QueuedOp V)
  draining : Bool
  calls : Nat
  kept : List (QueuedOp V)

inductive SaveError
  | transport
  | node
  deriving DecidableEq

def Node.save (n : Node V) (op : QueuedOp V) : Node V where
  values := Function.update n.values op.key (some op.payload)
  arrived := n.arrived ++ [op]

def Node.send (n : Node V) (op : QueuedOp V) : Outcome → Node V
  | .answered => n.save op
  | .refused => n
  | .faulted reached => if reached then n.save op else n

def nextOutcome (script : List Outcome) : Outcome := script.headD .answered

-- Up to the first transport fault. What the node has answered leaves the queue, a
-- refusal as well.
def drainLoop : List (QueuedOp V) → Node V → List Outcome → List (QueuedOp V) × Node V × List Outcome
  | [], n, script => ([], n, script)
  | op :: queue, n, script =>
    match nextOutcome script with
    | .faulted reached => (op :: queue, n.send op (.faulted reached), script.tail)
    | outcome => drainLoop queue (n.send op outcome) script.tail

-- How many writes have left the queue, and the outcomes still to come.
def drain (db : Db V) (script : List Outcome) : Nat × Db V × List Outcome :=
  if db.draining then (0, db, script)
  else
    let (queue, node, rest) := drainLoop db.queue db.node script
    (db.queue.length - queue.length, { db with queue := queue, node := node }, rest)

def mirrorUnique [DecidableEq V] (db : Db V) (structHash : Nat) (value : V) : Db V :=
  { db with cache := db.cache.map fun local' =>
      if local' structHash = some value then local' else Function.update local' structHash (some value) }

def enqueueOffline (db : Db V) (op : QueuedOp V) : Db V := { db with queue := db.queue ++ [op] }

def sendSave [DecidableEq V] (db : Db V) (op : QueuedOp V) (outcome : Outcome) :
    Except SaveError Unit × Db V :=
  let db := { db with node := db.node.send op outcome, calls := db.calls + 1 }
  match outcome with
  | .answered => (.ok (), mirrorUnique { db with kept := db.kept ++ [op] } op.structHash op.payload)
  | .refused => (.error .node, db)
  | .faulted _ =>
    if db.cache.isSome then
      (.ok (), mirrorUnique (enqueueOffline { db with kept := db.kept ++ [op] } op) op.structHash
        op.payload)
    else (.error .transport, db)

-- `save_unique`: older writes first, and then this one however that ended.
def saveUnique [DecidableEq V] (db : Db V) (structHash : Nat) (value : V) (script : List Outcome) :
    Except SaveError Unit × Db V :=
  let (_, db, rest) := drain db script
  sendSave db ⟨db.tenant, structHash, value, db.calls⟩ (nextOutcome rest)

inductive Call (V : Type)
  | saveUnique (structHash : Nat) (value : V) (script : List Outcome)
  | drainOfflineQueue (script : List Outcome)

def Db.run [DecidableEq V] (db : Db V) : Call V → Db V
  | .saveUnique structHash value script => (saveUnique db structHash value script).2
  | .drainOfflineQueue script => (drain db script).2.1

def Step [DecidableEq V] (db : Db V) (call : Call V) (db' : Db V) : Prop := db' = db.run call

def Db.new (tenant : Nat) (cache : Option (Nat → Option V)) (values : Nat × Nat → Option V) : Db V :=
  ⟨⟨values, []⟩, tenant, cache, [], false, 0, []⟩

end Model

section Queue

variable {V : Type} {db db' : Db V} {op : QueuedOp V} {n : Node V} {script : List Outcome}

def lastAt (ops : List (QueuedOp V)) (key : Nat × Nat) : Option (QueuedOp V) :=
  (ops.filter fun op => op.key = key).getLast?

theorem lastAt_append (a b : List (QueuedOp V)) (key : Nat × Nat) :
    lastAt (a ++ b) key = (lastAt b key).or (lastAt a key) := by
  rw [lastAt, List.filter_append, List.getLast?_append]
  rfl

theorem lastAt_singleton (op : QueuedOp V) (key : Nat × Nat) :
    lastAt [op] key = if op.key = key then some op else none := by
  by_cases hkey : op.key = key
  · simp [lastAt, hkey]
  · simp [lastAt, hkey]

def Node.Replays (n : Node V) (values : Nat × Nat → Option V) : Prop :=
  ∀ key, n.values key = ((lastAt n.arrived key).map (·.payload)).or (values key)

theorem Node.Replays.save {values : Nat × Nat → Option V} (h : n.Replays values) (op : QueuedOp V) :
    (n.save op).Replays values := by
  intro key
  change Function.update n.values op.key (some op.payload) key = ((lastAt (n.arrived ++ [op]) key).map _).or _
  rw [lastAt_append, lastAt_singleton]
  by_cases hkey : op.key = key
  · subst hkey
    simp
  · rw [Function.update_of_ne (Ne.symm hkey), if_neg hkey, h key, Option.none_or]

-- The saves in the order they take effect: those at the node, then the queue.
def Db.line (db : Db V) : List (QueuedOp V) := db.node.arrived ++ db.queue

-- Nothing comes before an older save, and the last of each type is the last
-- one that returned `Ok`.
structure InOrder (values : Nat × Nat → Option V) (db : Db V) : Prop where
  idle : db.draining = false
  ordered : db.line.Pairwise fun a b => a.call ≤ b.call
  made : ∀ op ∈ db.line, op.call < db.calls
  last : ∀ key, lastAt db.line key = lastAt db.kept key
  reach : ∀ op ∈ db.kept, op ∈ db.line
  replays : db.node.Replays values

theorem ordered_repeat {a b : List (QueuedOp V)}
    (h : (a ++ op :: b).Pairwise fun x y => x.call ≤ y.call) :
    (a ++ [op] ++ op :: b).Pairwise fun x y => x.call ≤ y.call := by
  obtain ⟨ha, hb, hab⟩ := List.pairwise_append.mp h
  obtain ⟨hop, hrest⟩ := List.pairwise_cons.mp hb
  rw [List.append_assoc, List.singleton_append]
  refine List.pairwise_append.mpr ⟨ha, List.pairwise_cons.mpr ⟨fun y hy => ?_, hb⟩, fun x hx y hy => ?_⟩
  · rcases List.mem_cons.mp hy with rfl | hy
    · exact le_rfl
    · exact hop y hy
  · rcases List.mem_cons.mp hy with rfl | hy
    · exact hab x hx _ List.mem_cons_self
    · exact hab x hx y hy

theorem lastAt_repeat (a b : List (QueuedOp V)) (op : QueuedOp V) (key : Nat × Nat) :
    lastAt (a ++ [op] ++ op :: b) key = lastAt (a ++ op :: b) key := by
  have hcons : op :: b = [op] ++ b := rfl
  rw [lastAt_append, lastAt_append a [op], lastAt_append a, hcons, lastAt_append [op] b,
    lastAt_singleton]
  by_cases hkey : op.key = key
  · simp [hkey]
  · simp [hkey]

-- `done` has been answered, and the first of the rest may have arrived although its
-- send faulted.
structure Drains (queue : List (QueuedOp V)) (n : Node V) (queue' : List (QueuedOp V)) (n' : Node V) :
    Prop where
  line : ∃ done, queue = done ++ queue' ∧ (n'.arrived = n.arrived ++ done ∨
    ∃ op rest, queue' = op :: rest ∧ n'.arrived = n.arrived ++ done ++ [op])
  replays : ∀ values, n.Replays values → n'.Replays values

theorem drains_send {outcome : Outcome} {values : Nat × Nat → Option V} (h : n.Replays values) :
    (n.send op outcome).Replays values := by
  cases outcome with
  | answered => exact h.save op
  | refused => exact h
  | faulted reached =>
    cases reached with
    | true => exact h.save op
    | false => exact h

-- Along the queue: each answered save moves from the queue to the node.
theorem drainLoop_drains {queue : List (QueuedOp V)} (hscript : ∀ o ∈ script, o ≠ .refused) :
    Drains queue n (drainLoop queue n script).1 (drainLoop queue n script).2.1 ∧
      (drainLoop queue n script).2.2 <:+ script := by
  induction queue generalizing n script with
  | nil => exact ⟨⟨⟨[], rfl, .inl (by simp [drainLoop])⟩, fun _ h => h⟩, List.suffix_rfl⟩
  | cons op queue ih =>
    rw [drainLoop]
    cases hnext : nextOutcome script with
    | faulted reached =>
      refine ⟨⟨⟨[], rfl, ?_⟩, fun _ h => drains_send h⟩, List.tail_suffix _⟩
      cases reached with
      | true => exact .inr ⟨op, queue, rfl, by simp [Node.send, Node.save]⟩
      | false => exact .inl (by simp [Node.send])
    | refused =>
      cases script with
      | nil => cases hnext
      | cons o script => exact absurd hnext (hscript o List.mem_cons_self)
    | answered =>
      obtain ⟨⟨⟨done, hdone, harrived⟩, hreplays⟩, hlater⟩ :=
        @ih (n.send op .answered) script.tail fun o ho => hscript o (List.mem_of_mem_tail ho)
      refine ⟨⟨⟨op :: done, ?_, ?_⟩, fun values h => hreplays values (drains_send h)⟩,
        hlater.trans (List.tail_suffix _)⟩
      · rw [List.cons_append, ← hdone]
      · have hsent : (n.send op .answered).arrived = n.arrived ++ [op] := rfl
        rw [hsent] at harrived
        simpa only [List.append_assoc, List.singleton_append] using harrived

theorem InOrder.drains {values : Nat × Nat → Option V} (h : InOrder values db)
    {queue' : List (QueuedOp V)} {n' : Node V} (hd : Drains db.queue db.node queue' n') :
    InOrder values { db with queue := queue', node := n' } := by
  obtain ⟨⟨done, hdone, harrived⟩, hreplays⟩ := hd
  have hline : db.line = db.node.arrived ++ done ++ queue' := by
    rw [Db.line, hdone, List.append_assoc]
  have hordered := hline ▸ h.ordered
  have hmade := hline ▸ h.made
  have hlast := hline ▸ h.last
  have hreach := hline ▸ h.reach
  rcases harrived with harrived | ⟨op, rest, rfl, harrived⟩
  · have hline' : ({ db with queue := queue', node := n' } : Db V).line =
        db.node.arrived ++ done ++ queue' := by rw [Db.line, harrived]
    refine ⟨h.idle, ?_, ?_, ?_, ?_, hreplays _ h.replays⟩
    · rw [hline']
      exact hordered
    · rw [hline']
      exact hmade
    · rw [hline']
      exact hlast
    · rw [hline']
      exact hreach
  · have hline' : ({ db with queue := op :: rest, node := n' } : Db V).line =
        db.node.arrived ++ done ++ [op] ++ op :: rest := by rw [Db.line, harrived]
    have hmem : ∀ x, x ∈ db.node.arrived ++ done ++ [op] ++ op :: rest ↔
        x ∈ db.node.arrived ++ done ++ op :: rest := by
      intro x
      simp only [List.mem_append, List.mem_cons, List.not_mem_nil, or_false]
      tauto
    refine ⟨h.idle, ?_, ?_, ?_, ?_, hreplays _ h.replays⟩
    · rw [hline']
      exact ordered_repeat hordered
    · rw [hline']
      exact fun x hx => hmade x ((hmem x).mp hx)
    · rw [hline']
      intro key
      rw [lastAt_repeat]
      exact hlast key
    · rw [hline']
      exact fun x hx => (hmem x).mpr (hreach x hx)

theorem InOrder.drain {values : Nat × Nat → Option V} (h : InOrder values db)
    (hscript : ∀ o ∈ script, o ≠ .refused) :
    InOrder values (drain db script).2.1 ∧ (drain db script).2.2 <:+ script := by
  rw [Offline.drain, if_neg (by simp [h.idle])]
  obtain ⟨hdrains, hlater⟩ := @drainLoop_drains V db.node script db.queue hscript
  exact ⟨h.drains hdrains, hlater⟩

theorem InOrder.push {values : Nat × Nat → Option V} (h : InOrder values db) (hcall : op.call = db.calls)
    (hidle : db'.draining = false) (hcalls : db'.calls = db.calls + 1) (hkept : db'.kept = db.kept ++ [op])
    (hline : db'.line = db.line ++ [op] ∨ db'.line = db.line ++ [op] ++ [op])
    (hreplays : db'.node.Replays values) : InOrder values db' := by
  have hnew : (db.line ++ [op]).Pairwise fun a b => a.call ≤ b.call := by
    refine List.pairwise_append.mpr ⟨h.ordered, List.pairwise_singleton _ _, fun x hx y hy => ?_⟩
    rw [List.mem_singleton.mp hy, hcall]
    exact (h.made x hx).le
  have hlast : ∀ key, lastAt (db.line ++ [op]) key = lastAt (db.kept ++ [op]) key := by
    intro key
    rw [lastAt_append, lastAt_append, h.last]
  have hmade : ∀ x ∈ db.line ++ [op], x.call < db.calls + 1 := by
    intro x hx
    rcases List.mem_append.mp hx with hx | hx
    · exact (h.made x hx).trans (Nat.lt_succ_self _)
    · rw [List.mem_singleton.mp hx, hcall]
      exact Nat.lt_succ_self _
  have hreach : ∀ x ∈ db.kept ++ [op], x ∈ db.line ++ [op] := by
    intro x hx
    rcases List.mem_append.mp hx with hx | hx
    · exact List.mem_append_left _ (h.reach x hx)
    · exact List.mem_append_right _ hx
  rcases hline with hline | hline
  · refine ⟨hidle, ?_, ?_, ?_, ?_, hreplays⟩
    · rw [hline]
      exact hnew
    · rw [hline, hcalls]
      exact hmade
    · rw [hline, hkept]
      exact hlast
    · rw [hline, hkept]
      exact hreach
  · refine ⟨hidle, ?_, ?_, ?_, ?_, hreplays⟩
    · rw [hline]
      exact ordered_repeat hnew
    · rw [hline, hcalls]
      intro x hx
      refine hmade x ?_
      rcases List.mem_append.mp hx with hx | hx
      · exact hx
      · exact List.mem_append_right _ hx
    · rw [hline, hkept]
      intro key
      rw [lastAt_repeat]
      exact hlast key
    · rw [hline, hkept]
      exact fun x hx => List.mem_append_left _ (hreach x hx)

-- A save that neither returned `Ok` nor reached the node.
theorem InOrder.lose {values : Nat × Nat → Option V} (h : InOrder values db) :
    InOrder values { db with calls := db.calls + 1 } :=
  ⟨h.idle, h.ordered, fun x hx => (h.made x hx).trans (Nat.lt_succ_self _), h.last, h.reach, h.replays⟩

theorem inOrder_new (tenant : Nat) (cache : Option (Nat → Option V)) (values : Nat × Nat → Option V) :
    InOrder values (Db.new tenant cache values) :=
  ⟨rfl, .nil, by simp [Db.line, Db.new], fun _ => rfl, by simp [Db.new], fun _ => by simp [Db.new, lastAt]⟩

end Queue

section Runs

variable {V : Type} [DecidableEq V] {db db' : Db V} {op : QueuedOp V}

-- The save's own send after a drain: when older saves still wait it must not
-- reach the node, and without a cache a fault must not either.
def OwnSend (db : Db V) (outcome : Outcome) : Prop :=
  (db.queue ≠ [] → outcome = .faulted false) ∧ (db.cache = none → outcome ≠ .faulted true)

def Steady (db : Db V) : Call V → Prop
  | .saveUnique _ _ script => (∀ o ∈ script, o ≠ .refused) ∧
      OwnSend (drain db script).2.1 (nextOutcome (drain db script).2.2)
  | .drainOfflineQueue script => ∀ o ∈ script, o ≠ .refused

theorem nextOutcome_ne_refused {script : List Outcome} (h : ∀ o ∈ script, o ≠ .refused) :
    nextOutcome script ≠ .refused := by
  cases script with
  | nil => exact nofun
  | cons o script => exact h o List.mem_cons_self

theorem InOrder.sendSave {values : Nat × Nat → Option V} (h : InOrder values db) {outcome : Outcome}
    (hcall : op.call = db.calls) (hown : OwnSend db outcome) (hrefused : outcome ≠ .refused) :
    InOrder values (sendSave db op outcome).2 := by
  cases outcome with
  | answered =>
    have hqueue : db.queue = [] := by
      by_contra hne
      cases hown.1 hne
    refine h.push hcall h.idle rfl rfl (.inl ?_) (h.replays.save op)
    change db.node.arrived ++ [op] ++ db.queue = db.node.arrived ++ db.queue ++ [op]
    rw [hqueue, List.append_nil, List.append_nil]
  | refused => exact absurd rfl hrefused
  | faulted reached =>
    rw [Offline.sendSave]
    by_cases hcache : db.cache.isSome
    · rw [if_pos hcache]
      cases reached with
      | false =>
        refine h.push hcall h.idle rfl rfl (.inl ?_) h.replays
        exact (List.append_assoc _ _ _).symm
      | true =>
        have hqueue : db.queue = [] := by
          by_contra hne
          cases hown.1 hne
        refine h.push hcall h.idle rfl rfl (.inr ?_) (h.replays.save op)
        change db.node.arrived ++ [op] ++ (db.queue ++ [op]) =
          db.node.arrived ++ db.queue ++ [op] ++ [op]
        rw [hqueue, List.append_nil, List.nil_append]
    · rw [if_neg hcache]
      cases reached with
      | false => exact h.lose
      | true => exact absurd rfl (hown.2 (by simpa using hcache))

theorem InOrder.run {values : Nat × Nat → Option V} (h : InOrder values db) {call : Call V}
    (hsteady : Steady db call) : InOrder values (db.run call) := by
  cases call with
  | saveUnique structHash value script =>
    obtain ⟨hscript, hown⟩ := hsteady
    obtain ⟨hdrain, hlater⟩ := h.drain hscript
    exact hdrain.sendSave rfl hown
      (nextOutcome_ne_refused fun o ho => hscript o (hlater.subset ho))
  | drainOfflineQueue script => exact (h.drain hsteady).1

-- Saves reach the node in the order of their calls. Once the queue is empty every save
-- that returned `Ok` has, and the last of each type stands.
theorem offline_saves_in_order {tenant : Nat} {cache : Option (Nat → Option V)}
    {values : Nat × Nat → Option V} (h : Leads Step Steady (Db.new tenant cache values) db) :
    (db.node.arrived.Pairwise fun a b => a.call ≤ b.call) ∧
      (db.queue = [] → (∀ op ∈ db.kept, op ∈ db.node.arrived) ∧
        ∀ key, db.node.values key = ((lastAt db.kept key).map (·.payload)).or (values key)) := by
  have hinv : InOrder values db := h.invariant (inOrder_new tenant cache values)
    fun s call s' hs hmeets hstep => hstep ▸ hs.run hmeets
  refine ⟨(List.pairwise_append.mp hinv.ordered).1, fun hqueue => ?_⟩
  have hline : db.line = db.node.arrived := by rw [Db.line, hqueue, List.append_nil]
  refine ⟨fun op hop => hline ▸ hinv.reach op hop, fun key => ?_⟩
  rw [hinv.replays key, ← hline, hinv.last]

def sampleDb : Db Nat := .new 1 (some fun _ => none) fun _ => none

theorem offline_saves_in_order_sample :
    ∃ db, Leads Step Steady sampleDb db ∧ db.queue = [] ∧ db.kept.length = 2 ∧
      db.node.values (1, 7) = some 6 := by
  have hone : Steady sampleDb (.saveUnique 7 5 [.faulted true]) := ⟨by simp, by decide, by decide⟩
  have htwo : Steady (sampleDb.run (.saveUnique 7 5 [.faulted true])) (.saveUnique 7 6 []) :=
    ⟨by simp, by decide, nofun⟩
  have hrun : Leads Step Steady sampleDb ((sampleDb.run (.saveUnique 7 5 [.faulted true])).run
      (.saveUnique 7 6 [])) := .step (.step .start hone rfl) htwo rfl
  exact ⟨_, hrun, rfl, rfl, ((offline_saves_in_order hrun).2 rfl).2 (1, 7)⟩

-- The replay of the first save faults, the second is answered, and the first reaches
-- the node after it.
theorem offline_saves_reordered :
    ∃ db, Leads Step (fun _ _ => True) sampleDb db ∧ db.queue = [] ∧
      (lastAt db.kept (1, 7)).map (·.payload) = some 6 ∧ db.node.values (1, 7) = some 5 ∧
      db.node.arrived.map (·.call) = [1, 0] :=
  ⟨_, .step (.step (.step .start trivial rfl) trivial rfl) trivial rfl, (by decide :
    (((sampleDb.run (.saveUnique 7 5 [.faulted false])).run
      (.saveUnique 7 6 [.faulted false, .answered])).run (.drainOfflineQueue [])).queue = []),
    by decide, by decide, by decide⟩

end Runs

end WaveDb.Client.Offline
