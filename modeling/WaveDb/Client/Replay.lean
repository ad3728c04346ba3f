import WaveDb.Lib.Runs
import WaveDb.Node.ServerDb

-- The replay of saves queued offline, seen from the node, whose saves give way to each
-- other at every call to the store.
namespace WaveDb.Client.Replay

open WaveDb.Lib WaveDb.Core WaveDb.Node

section Model

variable {T : Type}

-- A save that waits in a client's queue. Its number and how many saves the
-- node had committed when it was queued are histories.
structure Queued (T : Type) where
  value : T
  call : Nat
  since : Nat

-- A save under way at the node, and the queued save it replays if it is a replay. The
-- commits before its read, and whether it was overtaken, are histories.
structure Task (T : Type) where
  client : Nat
  op : Option (Queued T)
  program : Engine (Stored T) (Collection.Change T)
  readAt : Option Nat
  stale : Bool

structure Landing (T : Type) where
  client : Nat
  op : Queued T
  stale : Bool
  before : Option (Stored T)
  after : Option (Stored T)

structure Ended (T : Type) where
  client : Nat
  op : Queued T
  stale : Bool
  outcome : Outcome Error (Collection.Change T)
  heard : Bool

-- The node and its clients. `sending` is the replay a client's drain waits for.
-- Commits, landings and ended replays are histories.
structure Sys (T : Type) where
  world : World (Stored T)
  tasks : Nat → Option (Task T)
  queue : Nat → List (Queued T)
  sending : Nat → Option Nat
  calls : Nat → Nat
  commits : List Nat
  landings : List (Landing T)
  ended : List (Ended T)

def Sys.new (w : World (Stored T)) : Sys T :=
  ⟨w, fun _ => none, fun _ => [], fun _ => none, fun _ => 0, [], [], []⟩

def overtaken (commits : List Nat) (since client : Nat) : Bool :=
  (commits.drop since).any fun other => other ≠ client

inductive Event (T : Type)
  | queue (client : Nat) (value : T)
  | save (client t : Nat) (value : T)
  | replay (client t : Nat)
  | cut (client : Nat)
  | call (t : Nat)
  | answer (t : Nat)

end Model

section Step

variable {T : Type} [DecidableEq T]

structure Unique where
  hash : Nat
  tenant : Nat
  user : Nat → Nat

def Unique.anchor (u : Unique) : Id := uniqueAnchor u.tenant u.hash

def Unique.saveBy (u : Unique) (client : Nat) (value : T) : Engine (Stored T) (Collection.Change T) :=
  saveUniqueAs u.hash u.tenant (u.user client) value

def Sys.setTask (s : Sys T) (t : Nat) (task : Task T) : Sys T :=
  { s with tasks := Function.update s.tasks t (some task) }

-- The apply of a save: a history of who committed, and of what a replay did.
def Sys.apply (u : Unique) (s : Sys T) (t : Nat) (task : Task T) (batch : List (Write (Stored T)))
    (k : Except Error Unit → Engine (Stored T) (Collection.Change T)) : Sys T :=
  let (answer, world) := World.handle (.apply batch) s.world
  let stale := task.op.any fun op => overtaken s.commits op.since task.client
  { s with
    world := world
    tasks := Function.update s.tasks t (some { task with program := k answer, stale := stale })
    commits := if answer.isOk then s.commits ++ [task.client] else s.commits
    landings := s.landings ++ task.op.toList.map fun op =>
      ⟨task.client, op, stale, s.world.store u.anchor, world.store u.anchor⟩ }

def Sys.call (u : Unique) (s : Sys T) (t : Nat) (task : Task T) : Option (Sys T) :=
  match task.program with
  | .ask (.apply batch) k => some (s.apply u t task batch k)
  | .ask (.getOf _ id) k =>
    some (s.setTask t { task with program := k (s.world.store id), readAt := some s.commits.length })
  | .ask (.mintInstant floor) k =>
    let (instant, world) := World.handle (.mintInstant floor) s.world
    some ({ s with world := world }.setTask t { task with program := k instant })
  | _ => none

def outcomeOf : Engine (Stored T) (Collection.Change T) → Option (Outcome Error (Collection.Change T))
  | .pure change => some (.ok change)
  | .fail e => some (.error e)
  | _ => none

-- The node's answer. A drain that still waits drops the save, whatever the
-- answer was.
def Sys.answer (s : Sys T) (t : Nat) (task : Task T) (outcome : Outcome Error (Collection.Change T)) :
    Sys T :=
  let heard : Bool := s.sending task.client = some t
  { s with
    tasks := Function.update s.tasks t none
    queue := if heard then Function.update s.queue task.client (s.queue task.client).tail else s.queue
    sending := if heard then Function.update s.sending task.client none else s.sending
    ended := s.ended ++ task.op.toList.map fun op => ⟨task.client, op, task.stale, outcome, heard⟩ }

def Sys.queueOffline (s : Sys T) (client : Nat) (value : T) : Sys T :=
  { s with
    queue := Function.update s.queue client
      (s.queue client ++ [⟨value, s.calls client, s.commits.length⟩])
    calls := Function.update s.calls client (s.calls client + 1) }

def Sys.sendFront (u : Unique) (s : Sys T) (client t : Nat) (op : Queued T) : Sys T :=
  { s.setTask t ⟨client, some op, u.saveBy client op.value, none, false⟩ with
    sending := Function.update s.sending client (some t) }

-- The transport fails while a drain waits: the save stays in the queue.
def Sys.cut (s : Sys T) (client : Nat) : Sys T :=
  { s with sending := Function.update s.sending client none }

def Sys.exec (u : Unique) (s : Sys T) : Event T → Option (Sys T)
  | .queue client value => some (s.queueOffline client value)
  | .save client t value =>
    match s.tasks t with
    | none => some (s.setTask t ⟨client, none, u.saveBy client value, none, false⟩)
    | some _ => none
  | .replay client t =>
    match s.tasks t, s.sending client, s.queue client with
    | none, none, op :: _ => some (s.sendFront u client t op)
    | _, _, _ => none
  | .cut client => some (s.cut client)
  | .call t =>
    match s.tasks t with
    | some task => s.call u t task
    | none => none
  | .answer t =>
    match s.tasks t with
    | some task => (outcomeOf task.program).map (s.answer t task)
    | none => none

def Step (u : Unique) (s : Sys T) (e : Event T) (s' : Sys T) : Prop := s.exec u e = some s'

end Step

section Stages

variable {T : Type} {u : Unique} {client : Nat} {value : T}

def landing (u : Unique) (client : Nat) (value : T) (found : Option (Stored T)) (instant : Nat) :
    List (Write (Stored T)) × Metadata :=
  let plan := uniquePlan u.hash u.tenant (u.user client)
  match found with
  | none => ([.expect u.hash u.anchor none, .put u.anchor (plan.firstMeta instant, value)],
      plan.firstMeta instant)
  | some (old, oldValue) =>
    match old.succession with
    | .next _ => ([], old)
    | .createdAt authored =>
      (.expect u.hash u.anchor (some (old, oldValue)) ::
        (if authored < instant then
          [.put (plan.slot authored) ({ old with succession := .next instant }, oldValue)]
          else []) ++ [.put u.anchor (plan.nextMeta old authored instant, value)],
        plan.nextMeta old authored instant)

def authoredAt : Option (Stored T) → Option Nat
  | none => some 0
  | some (old, _) =>
    match old.succession with
    | .next _ => none
    | .createdAt authored => some (max authored 0)

def afterMint (u : Unique) (client : Nat) (value : T) (found : Option (Stored T)) (instant : Nat) :
    Engine (Stored T) (Collection.Change T) :=
  .ask (.apply (landing u client value found instant).1) fun answer =>
    (Prog.ofExcept answer).bind fun _ => .pure (.saved u.anchor (landing u client value found instant).2 value)

def afterRead (u : Unique) (client : Nat) (value : T) (found : Option (Stored T)) :
    Engine (Stored T) (Collection.Change T) :=
  match authoredAt found with
  | none => .fail (.chainCorrupt u.anchor)
  | some floor => .ask (.mintInstant floor) (afterMint u client value found)

theorem saveBy_eq :
    u.saveBy client value = .ask (.getOf u.hash u.anchor) (afterRead u client value) := by
  refine congrArg (Prog.ask _) (funext fun found => ?_)
  rcases found with _ | ⟨⟨previous, authored | successor, removed, pivotId, user, device, permission⟩, oldValue⟩
  · rfl
  · rfl
  · rfl

def LiveAt (found : Option (Stored T)) : Prop := (authoredAt found).isSome

def rank : Option (Stored T) → Nat
  | none => 0
  | some (header, _) =>
    match header.succession with
    | .createdAt instant => instant + 1
    | .next _ => 0

theorem succession_landing {found : Option (Stored T)} {instant : Nat} (h : LiveAt found) :
    (landing u client value found instant).2.succession = .createdAt instant := by
  rcases found with _ | ⟨old, oldValue⟩
  · rfl
  · cases hold : old.succession with
    | createdAt authored =>
      simp only [landing, hold]
      rfl
    | next successor => simp [LiveAt, authoredAt, hold] at h

theorem rank_lt_landing {found : Option (Stored T)} {floor instant : Nat} (h : authoredAt found = some floor)
    (hlater : floor < instant) :
    rank found < rank (some ((landing u client value found instant).2, value)) := by
  have hlive : LiveAt found := by simp [LiveAt, h]
  have hnew : rank (some ((landing u client value found instant).2, value)) = instant + 1 := by
    simp only [rank, succession_landing hlive]
  rw [hnew]
  rcases found with _ | ⟨old, oldValue⟩
  · exact Nat.succ_pos _
  · cases hold : old.succession with
    | createdAt authored =>
      have hfloor : max authored 0 = floor := by simpa [authoredAt, hold] using h
      have hrank : rank (some (old, oldValue)) = authored + 1 := by simp only [rank, hold]
      rw [hrank]
      omega
    | next successor => simp [authoredAt, hold] at h

variable [DecidableEq T]

theorem conflict_landing {found : Option (Stored T)} (h : LiveAt found) (u : Unique) (client : Nat)
    (value : T) (instant : Nat) (store : Store (Stored T)) :
    store.conflict (landing u client value found instant).1 =
      if store u.anchor = found then none else some u.anchor := by
  rcases found with _ | ⟨old, oldValue⟩
  · rfl
  · cases hold : old.succession with
    | createdAt authored =>
      have hrest : ∀ archive : List (Write (Stored T)), (∀ x ∈ archive, x.isGuard = false) →
          store.conflict (archive ++ [.put u.anchor ((uniquePlan u.hash u.tenant (u.user client)).nextMeta
            old authored instant, value)]) = none := by
        intro archive harchive
        refine Store.conflict_eq_none fun x hx => ?_
        rcases List.mem_append.mp hx with hx | hx
        · exact harchive x hx
        · rw [List.mem_singleton.mp hx]
          rfl
      simp only [landing, hold, List.cons_append, Store.conflict]
      rw [hrest _ (by split <;> simp [Write.isGuard])]
    | next successor => simp [LiveAt, authoredAt, hold] at h

omit [DecidableEq T] in
theorem writes_landing {found : Option (Stored T)} (h : LiveAt found) (u : Unique) (client : Nat)
    (value : T) (instant : Nat) (store : Store (Stored T)) :
    store.writes (landing u client value found instant).1 u.anchor =
      some ((landing u client value found instant).2, value) := by
  rcases found with _ | ⟨old, oldValue⟩
  · simp [landing]
  · cases hold : old.succession with
    | createdAt authored =>
      simp only [landing, hold, List.cons_append, Store.writes_cons, Store.writes_append]
      exact Function.update_self ..
    | next successor => simp [LiveAt, authoredAt, hold] at h

end Stages

section Node

variable {T : Type} {u : Unique} {count : Nat} {now now' : Option (Stored T)} {task : Task T}

-- What a save read, and that every commit since has raised the rank.
structure Seen (count : Nat) (now found : Option (Stored T)) (n : Nat) : Prop where
  past : n ≤ count
  below : rank found ≤ rank now
  later : n < count → rank found < rank now

-- Where a save stands. A stale one that is done was refused.
inductive Stage (u : Unique) (count : Nat) (now : Option (Stored T)) (task : Task T) : Prop
  | fresh (value : T) (hprogram : task.program = u.saveBy task.client value)
  | read (value : T) (found : Option (Stored T)) (floor n : Nat)
      (hprogram : task.program = .ask (.mintInstant floor) (afterMint u task.client value found))
      (hfloor : authoredAt found = some floor) (hread : task.readAt = some n)
      (hseen : Seen count now found n)
  | planned (value : T) (found : Option (Stored T)) (floor instant n : Nat)
      (hprogram : task.program = afterMint u task.client value found instant)
      (hfloor : authoredAt found = some floor) (hlater : floor < instant)
      (hread : task.readAt = some n) (hseen : Seen count now found n)
  | done (outcome : Outcome Error (Collection.Change T)) (hdone : outcomeOf task.program = some outcome)
      (hrefused : task.stale = true → outcome = .error (.conflict u.anchor))

theorem Seen.commit {found : Option (Stored T)} {n : Nat} (h : Seen count now found n)
    (hrank : rank now < rank now') : Seen (count + 1) now' found n :=
  ⟨h.past.trans (Nat.le_succ _), h.below.trans hrank.le, fun _ => h.below.trans_lt hrank⟩

theorem Stage.commit (h : Stage u count now task) (hrank : rank now < rank now') :
    Stage u (count + 1) now' task := by
  cases h with
  | fresh value hprogram => exact .fresh value hprogram
  | read value found floor n hprogram hfloor hread hseen =>
    exact .read value found floor n hprogram hfloor hread (hseen.commit hrank)
  | planned value found floor instant n hprogram hfloor hlater hread hseen =>
    exact .planned value found floor instant n hprogram hfloor hlater hread (hseen.commit hrank)
  | done outcome hdone hrefused => exact .done outcome hdone hrefused

-- The node: the anchor is live, every save is at one of its stages, and no
-- stale replay has changed the anchor or was told otherwise than by a conflict.
structure Guarded (u : Unique) (s : Sys T) : Prop where
  live : LiveAt (s.world.store u.anchor)
  stage : ∀ t task, s.tasks t = some task → Stage u s.commits.length (s.world.store u.anchor) task
  kept : ∀ l ∈ s.landings, l.stale = true → l.after = l.before
  refused : ∀ e ∈ s.ended, e.stale = true → e.outcome = .error (.conflict u.anchor)

-- A mint stays below the last instant, and where a replay is applied that
-- another client's save has overtaken, one has also committed since its read.
def Raced (s : Sys T) : Event T → Prop
  | .call t => ∀ task, s.tasks t = some task →
      (∀ floor k, task.program = .ask (.mintInstant floor) k → s.world.minted floor < 2 ^ 64 - 1) ∧
      ∀ batch k op, task.program = .ask (.apply batch) k → task.op = some op →
        overtaken s.commits op.since task.client = true →
          ∃ n, task.readAt = some n ∧ overtaken s.commits n task.client = true
  | _ => True

theorem lt_of_overtaken {commits : List Nat} {n client : Nat} (h : overtaken commits n client = true) :
    n < commits.length := by
  by_contra hn
  rw [overtaken, List.drop_eq_nil_of_le (not_lt.mp hn)] at h
  cases h

variable {s s' : Sys T} {t : Nat}

theorem Guarded.setTask (h : Guarded u s) {task : Task T}
    (hstage : Stage u s.commits.length (s.world.store u.anchor) task) : Guarded u (s.setTask t task) := by
  refine ⟨h.live, fun t' task' htask => ?_, h.kept, h.refused⟩
  change Function.update s.tasks t (some task) t' = some task' at htask
  by_cases ht : t' = t
  · rw [ht, Function.update_self, Option.some.injEq] at htask
    exact htask ▸ hstage
  · rw [Function.update_of_ne ht] at htask
    exact h.stage t' task' htask

theorem authoredAt_some {found : Option (Stored T)} (h : LiveAt found) : ∃ floor, authoredAt found = some floor :=
  Option.isSome_iff_exists.mp h

variable [DecidableEq T]

theorem Guarded.read (h : Guarded u s) {value : T} {task : Task T}
    (hprogram : task.program = u.saveBy task.client value) (hstep : s.call u t task = some s') :
    Guarded u s' := by
  obtain ⟨floor, hfloor⟩ := authoredAt_some h.live
  rw [Sys.call, hprogram, saveBy_eq] at hstep
  cases hstep
  refine h.setTask (.read value _ floor s.commits.length ?_ hfloor rfl ⟨le_rfl, le_rfl, fun hlt => ?_⟩)
  · simp only [afterRead, hfloor]
  · exact absurd hlt (lt_irrefl _)

theorem Guarded.mint (h : Guarded u s) {value : T} {found : Option (Stored T)} {floor n : Nat} {task : Task T}
    (hprogram : task.program = .ask (.mintInstant floor) (afterMint u task.client value found))
    (hfloor : authoredAt found = some floor) (hread : task.readAt = some n)
    (hseen : Seen s.commits.length (s.world.store u.anchor) found n)
    (hclock : s.world.minted floor < 2 ^ 64 - 1) (hstep : s.call u t task = some s') :
    Guarded u s' := by
  rw [Sys.call, hprogram] at hstep
  cases hstep
  have hsame : Guarded u { s with world := s.world.mint floor } := ⟨h.live, h.stage, h.kept, h.refused⟩
  exact hsame.setTask (.planned value found floor (s.world.minted floor) n rfl hfloor
    (World.floor_lt_of_minted hclock) hread hseen)

-- A save that finds the anchor as it read it commits and raises the rank; any other is
-- refused, a stale replay among them.
theorem Guarded.applied (h : Guarded u s) {value : T} {found : Option (Stored T)} {floor instant n : Nat}
    {task : Task T} (htask : s.tasks t = some task)
    (hprogram : task.program = afterMint u task.client value found instant)
    (hfloor : authoredAt found = some floor) (hlater : floor < instant) (hread : task.readAt = some n)
    (hseen : Seen s.commits.length (s.world.store u.anchor) found n) (hraced : Raced s (.call t))
    (hstep : s.call u t task = some s') : Guarded u s' := by
  have hlive : LiveAt found := by simp [LiveAt, hfloor]
  have hconflict := conflict_landing hlive u task.client value instant s.world.store
  have hnext : s' = s.apply u t task (landing u task.client value found instant).1 fun answer =>
      (Prog.ofExcept answer).bind fun _ =>
        .pure (.saved u.anchor (landing u task.client value found instant).2 value) := by
    rw [Sys.call, hprogram] at hstep
    exact (Option.some.inj hstep).symm
  by_cases hsame : s.world.store u.anchor = found
  · rw [if_pos hsame] at hconflict
    have hhandle : World.handle (.apply (landing u task.client value found instant).1) s.world =
        (.ok (), { s.world with store := s.world.store.writes (landing u task.client value found instant).1 }) := by
      simp only [World.handle, Store.apply, hconflict]
    have hstale : (task.op.any fun op => overtaken s.commits op.since task.client) = false := by
      cases hop : task.op with
      | none => rfl
      | some op =>
        by_contra hstale
        obtain ⟨m, hm, hcommit⟩ := (hraced task htask).2 _ _ op hprogram hop (by simpa using hstale)
        have hlt : n < s.commits.length := by
          rw [hread, Option.some.injEq] at hm
          exact hm ▸ lt_of_overtaken hcommit
        exact absurd (congrArg rank hsame) (hseen.later hlt).ne'
    have hanchor := writes_landing hlive u task.client value instant s.world.store
    have hrank : rank (s.world.store u.anchor) <
        rank (s.world.store.writes (landing u task.client value found instant).1 u.anchor) := by
      rw [hanchor, hsame]
      exact rank_lt_landing hfloor hlater
    rw [Sys.apply, hhandle, hstale] at hnext
    subst hnext
    refine ⟨?_, fun t' task' htask' => ?_, fun l hl hstale => ?_, h.refused⟩
    · change LiveAt (s.world.store.writes _ u.anchor)
      rw [hanchor, LiveAt, authoredAt, succession_landing hlive]
      rfl
    · change Stage u (s.commits ++ [task.client]).length (s.world.store.writes _ u.anchor) task'
      rw [List.length_append, List.length_singleton]
      change Function.update s.tasks t (some _) t' = some task' at htask'
      by_cases ht : t' = t
      · rw [ht, Function.update_self, Option.some.injEq] at htask'
        subst htask'
        exact .done _ rfl (by rintro ⟨⟩)
      · rw [Function.update_of_ne ht] at htask'
        exact (h.stage t' task' htask').commit hrank
    · rcases List.mem_append.mp hl with hl | hl
      · exact h.kept l hl hstale
      · obtain ⟨op, -, rfl⟩ := List.mem_map.mp hl
        cases hstale
  · rw [if_neg hsame] at hconflict
    have hhandle : World.handle (.apply (landing u task.client value found instant).1) s.world =
        (.error (.conflict u.anchor), s.world) := by
      simp only [World.handle, Store.apply, hconflict]
    rw [Sys.apply, hhandle] at hnext
    subst hnext
    refine ⟨h.live, fun t' task' htask' => ?_, fun l hl hstale => ?_, h.refused⟩
    · change Function.update s.tasks t (some _) t' = some task' at htask'
      by_cases ht : t' = t
      · rw [ht, Function.update_self, Option.some.injEq] at htask'
        subst htask'
        exact .done _ rfl fun _ => rfl
      · rw [Function.update_of_ne ht] at htask'
        exact h.stage t' task' htask'
    · rcases List.mem_append.mp hl with hl | hl
      · exact h.kept l hl hstale
      · obtain ⟨op, -, rfl⟩ := List.mem_map.mp hl
        rfl

theorem step_cases {e : Event T} (h : Step u s e s') :
    (∃ client value, e = .queue client value ∧ s' = s.queueOffline client value) ∨
    (∃ client t value, e = .save client t value ∧ s.tasks t = none ∧
      s' = s.setTask t ⟨client, none, u.saveBy client value, none, false⟩) ∨
    (∃ client t op rest, e = .replay client t ∧ s.tasks t = none ∧ s.sending client = none ∧
      s.queue client = op :: rest ∧ s' = s.sendFront u client t op) ∨
    (∃ client, e = .cut client ∧ s' = s.cut client) ∨
    (∃ t task, e = .call t ∧ s.tasks t = some task ∧ s.call u t task = some s') ∨
    (∃ t task outcome, e = .answer t ∧ s.tasks t = some task ∧ outcomeOf task.program = some outcome ∧
      s' = s.answer t task outcome) := by
  cases e with
  | queue client value => exact .inl ⟨client, value, rfl, (Option.some.inj h).symm⟩
  | save client t value =>
    rw [Step, Sys.exec] at h
    cases htask : s.tasks t with
    | none =>
      rw [htask] at h
      exact .inr (.inl ⟨client, t, value, rfl, htask, (Option.some.inj h).symm⟩)
    | some task =>
      rw [htask] at h
      cases h
  | replay client t =>
    rw [Step, Sys.exec] at h
    cases htask : s.tasks t with
    | some task =>
      rw [htask] at h
      cases h
    | none =>
      cases hsending : s.sending client with
      | some t' =>
        rw [htask, hsending] at h
        cases h
      | none =>
        cases hqueue : s.queue client with
        | nil =>
          rw [htask, hsending, hqueue] at h
          cases h
        | cons op rest =>
          rw [htask, hsending, hqueue] at h
          exact .inr (.inr (.inl ⟨client, t, op, rest, rfl, htask, hsending, hqueue,
            (Option.some.inj h).symm⟩))
  | cut client => exact .inr (.inr (.inr (.inl ⟨client, rfl, (Option.some.inj h).symm⟩)))
  | call t =>
    rw [Step, Sys.exec] at h
    cases htask : s.tasks t with
    | none =>
      rw [htask] at h
      cases h
    | some task =>
      rw [htask] at h
      exact .inr (.inr (.inr (.inr (.inl ⟨t, task, rfl, htask, h⟩))))
  | answer t =>
    rw [Step, Sys.exec] at h
    cases htask : s.tasks t with
    | none =>
      rw [htask] at h
      cases h
    | some task =>
      rw [htask] at h
      obtain ⟨outcome, houtcome, hs⟩ := Option.map_eq_some_iff.mp h
      exact .inr (.inr (.inr (.inr (.inr ⟨t, task, outcome, rfl, htask, houtcome, hs.symm⟩))))

theorem Guarded.call (h : Guarded u s) {task : Task T} (htask : s.tasks t = some task)
    (hraced : Raced s (.call t)) (hstep : s.call u t task = some s') : Guarded u s' := by
  cases h.stage t task htask with
  | fresh value hprogram => exact h.read hprogram hstep
  | read value found floor n hprogram hfloor hread hseen =>
    exact h.mint hprogram hfloor hread hseen ((hraced task htask).1 floor _ hprogram) hstep
  | planned value found floor instant n hprogram hfloor hlater hread hseen =>
    exact h.applied htask hprogram hfloor hlater hread hseen hraced hstep
  | done outcome hdone hrefused =>
    rw [Sys.call] at hstep
    cases hprogram : task.program with
    | pure change =>
      rw [hprogram] at hstep
      cases hstep
    | fail e =>
      rw [hprogram] at hstep
      cases hstep
    | stuck =>
      rw [hprogram] at hstep
      cases hstep
    | ask o k =>
      rw [hprogram] at hdone
      cases hdone

omit [DecidableEq T] in
theorem Guarded.answer (h : Guarded u s) {task : Task T} {outcome : Outcome Error (Collection.Change T)}
    (htask : s.tasks t = some task) (houtcome : outcomeOf task.program = some outcome) :
    Guarded u (s.answer t task outcome) := by
  refine ⟨h.live, fun t' task' htask' => ?_, h.kept, fun e he hstale => ?_⟩
  · change Function.update s.tasks t none t' = some task' at htask'
    by_cases ht : t' = t
    · rw [ht, Function.update_self] at htask'
      cases htask'
    · rw [Function.update_of_ne ht] at htask'
      exact h.stage t' task' htask'
  · rcases List.mem_append.mp he with he | he
    · exact h.refused e he hstale
    · obtain ⟨op, -, rfl⟩ := List.mem_map.mp he
      cases h.stage t task htask with
      | fresh value hprogram =>
        rw [hprogram] at houtcome
        cases houtcome
      | read value found floor n hprogram hfloor hread hseen =>
        rw [hprogram] at houtcome
        cases houtcome
      | planned value found floor instant n hprogram hfloor hlater hread hseen =>
        rw [hprogram] at houtcome
        cases houtcome
      | done outcome' hdone hrefused =>
        rw [houtcome, Option.some.injEq] at hdone
        exact hdone ▸ hrefused hstale

theorem Guarded.step (h : Guarded u s) {e : Event T} (hraced : Raced s e) (hstep : Step u s e s') :
    Guarded u s' := by
  obtain ⟨client, value, -, rfl⟩ | ⟨client, t, value, -, -, rfl⟩ | ⟨client, t, op, rest, -, -, -, -, rfl⟩ |
    ⟨client, -, rfl⟩ | ⟨t, task, rfl, htask, hcall⟩ | ⟨t, task, outcome, -, htask, houtcome, rfl⟩ :=
    step_cases hstep
  · exact ⟨h.live, h.stage, h.kept, h.refused⟩
  · exact h.setTask (.fresh value rfl)
  · have hset : Guarded u (s.setTask t ⟨client, some op, u.saveBy client op.value, none, false⟩) :=
      h.setTask (.fresh op.value rfl)
    exact ⟨hset.live, hset.stage, hset.kept, hset.refused⟩
  · exact ⟨h.live, h.stage, h.kept, h.refused⟩
  · exact h.call htask hraced hcall
  · exact h.answer htask houtcome

end Node

section Clients

variable {T : Type} [DecidableEq T] {u : Unique} {s s' : Sys T} {t : Nat}

-- The clients: a drain waits for the front of its queue, saves are queued in
-- the order of their calls, and what a drain has heard of is behind the queue.
structure Lined (s : Sys T) : Prop where
  sent : ∀ c t, s.sending c = some t → ∃ task op rest, s.tasks t = some task ∧ task.client = c ∧
    task.op = some op ∧ s.queue c = op :: rest
  ordered : ∀ c, (s.queue c).Pairwise fun a b => a.call < b.call
  made : ∀ c, ∀ op ∈ s.queue c, op.call < s.calls c
  gone : ∀ e ∈ s.ended, e.heard = true → e.op.call < s.calls e.client ∧
    ∀ op ∈ s.queue e.client, e.op.call < op.call

theorem call_frame {task : Task T} (h : s.call u t task = some s') :
    (∃ task', s'.tasks = Function.update s.tasks t (some task') ∧ task'.client = task.client ∧
      task'.op = task.op) ∧ s'.queue = s.queue ∧ s'.sending = s.sending ∧ s'.calls = s.calls ∧
      s'.ended = s.ended := by
  rw [Sys.call] at h
  split at h
  · cases h
    exact ⟨⟨_, rfl, rfl, rfl⟩, rfl, rfl, rfl, rfl⟩
  · cases h
    exact ⟨⟨_, rfl, rfl, rfl⟩, rfl, rfl, rfl, rfl⟩
  · cases h
    exact ⟨⟨_, rfl, rfl, rfl⟩, rfl, rfl, rfl, rfl⟩
  · cases h

omit [DecidableEq T] in
theorem Lined.queueOffline (h : Lined s) (client : Nat) (value : T) : Lined (s.queueOffline client value) := by
  have hqueue : ∀ c, (s.queueOffline client value).queue c = if c = client then
      s.queue client ++ [⟨value, s.calls client, s.commits.length⟩] else s.queue c := fun c =>
    Function.update_apply ..
  have hcalls : ∀ c, (s.queueOffline client value).calls c =
      if c = client then s.calls client + 1 else s.calls c := fun c => Function.update_apply ..
  refine ⟨fun c t hsending => ?_, fun c => ?_, fun c op hop => ?_, fun e he hheard => ?_⟩
  · obtain ⟨task, op, rest, htask, hclient, hop, hfront⟩ := h.sent c t hsending
    rw [hqueue]
    by_cases hc : c = client
    · subst hc
      exact ⟨task, op, _, htask, hclient, hop, by rw [if_pos rfl, hfront]; rfl⟩
    · rw [if_neg hc]
      exact ⟨task, op, rest, htask, hclient, hop, hfront⟩
  · rw [hqueue]
    by_cases hc : c = client
    · rw [if_pos hc]
      refine List.pairwise_append.mpr ⟨h.ordered client, List.pairwise_singleton _ _, fun a ha b hb => ?_⟩
      rw [List.mem_singleton.mp hb]
      exact h.made client a ha
    · rw [if_neg hc]
      exact h.ordered c
  · rw [hqueue] at hop
    rw [hcalls]
    by_cases hc : c = client
    · rw [if_pos hc] at hop ⊢
      rcases List.mem_append.mp hop with hop | hop
      · exact (h.made client op hop).trans (Nat.lt_succ_self _)
      · rw [List.mem_singleton.mp hop]
        exact Nat.lt_succ_self _
    · rw [if_neg hc] at hop ⊢
      exact h.made c op hop
  · obtain ⟨hold, hbehind⟩ := h.gone e he hheard
    rw [hcalls, hqueue]
    by_cases hc : e.client = client
    · rw [if_pos hc, if_pos hc, ← hc]
      refine ⟨hold.trans (Nat.lt_succ_self _), fun op hop => ?_⟩
      rcases List.mem_append.mp hop with hop | hop
      · exact hbehind op hop
      · rw [List.mem_singleton.mp hop]
        exact hold
    · rw [if_neg hc, if_neg hc]
      exact ⟨hold, hbehind⟩

omit [DecidableEq T] in
theorem Lined.setTask (h : Lined s) {task : Task T} (hplace : ∀ old, s.tasks t = some old →
    task.client = old.client ∧ task.op = old.op) : Lined (s.setTask t task) := by
  refine ⟨fun c t' hsending => ?_, h.ordered, h.made, h.gone⟩
  obtain ⟨old, op, rest, hold, hclient, hop, hfront⟩ := h.sent c t' hsending
  change ∃ task' op rest, Function.update s.tasks t (some task) t' = some task' ∧ _
  by_cases ht : t' = t
  · subst ht
    obtain ⟨hsame, hsameop⟩ := hplace old hold
    exact ⟨task, op, rest, Function.update_self .., hsame.trans hclient, hsameop.trans hop, hfront⟩
  · rw [Function.update_of_ne ht]
    exact ⟨old, op, rest, hold, hclient, hop, hfront⟩

omit [DecidableEq T] in
theorem Lined.answer (h : Lined s) {task : Task T} {outcome : Outcome Error (Collection.Change T)}
    (htask : s.tasks t = some task) : Lined (s.answer t task outcome) := by
  by_cases hheard : s.sending task.client = some t
  · obtain ⟨task', op, rest, htask', -, hop, hfront⟩ := h.sent task.client t hheard
    rw [htask, Option.some.injEq] at htask'
    subst htask'
    have hqueue : ∀ c, (s.answer t task outcome).queue c =
        if c = task.client then rest else s.queue c := by
      intro c
      simp only [Sys.answer, hheard, decide_true, if_true]
      rw [Function.update_apply, hfront, List.tail_cons]
    have hsub : ∀ c op', op' ∈ (s.answer t task outcome).queue c → op' ∈ s.queue c := by
      intro c op' hop'
      rw [hqueue] at hop'
      by_cases hc : c = task.client
      · rw [if_pos hc] at hop'
        rw [hc, hfront]
        exact List.mem_cons_of_mem _ hop'
      · rwa [if_neg hc] at hop'
    have hordered := h.ordered task.client
    rw [hfront, List.pairwise_cons] at hordered
    refine ⟨fun c t' hsending => ?_, fun c => ?_, fun c op' hop' => h.made c op' (hsub c op' hop'),
      fun e he hheard' => ?_⟩
    · simp only [Sys.answer, hheard, decide_true, if_true] at hsending
      rw [Function.update_apply] at hsending
      by_cases hc : c = task.client
      · rw [if_pos hc] at hsending
        cases hsending
      · rw [if_neg hc] at hsending
        obtain ⟨task', op', rest', htask', hclient, hop', hfront'⟩ := h.sent c t' hsending
        have ht : t' ≠ t := by
          rintro rfl
          rw [htask, Option.some.injEq] at htask'
          exact hc (by rw [htask', hclient])
        rw [hqueue, if_neg hc]
        exact ⟨task', op', rest', (Function.update_of_ne ht ..).trans htask', hclient, hop', hfront'⟩
    · rw [hqueue]
      by_cases hc : c = task.client
      · rw [if_pos hc]
        exact hordered.2
      · rw [if_neg hc]
        exact h.ordered c
    · rcases List.mem_append.mp he with he | he
      · obtain ⟨hold, hbehind⟩ := h.gone e he hheard'
        exact ⟨hold, fun op' hop' => hbehind op' (hsub _ op' hop')⟩
      · rw [hop] at he
        obtain rfl := List.mem_singleton.mp he
        refine ⟨h.made task.client op (by rw [hfront]; exact List.mem_cons_self), fun op' hop' => ?_⟩
        rw [hqueue, if_pos rfl] at hop'
        exact hordered.1 op' hop'
  · have hqueue : (s.answer t task outcome).queue = s.queue := by
      simp only [Sys.answer, hheard, decide_false, Bool.false_eq_true, if_false]
    have hsame : (s.answer t task outcome).sending = s.sending := by
      simp only [Sys.answer, hheard, decide_false, Bool.false_eq_true, if_false]
    refine ⟨fun c t' hsending => ?_, fun c => hqueue ▸ h.ordered c, fun c => hqueue ▸ h.made c,
      fun e he hheard' => ?_⟩
    · rw [hsame] at hsending
      obtain ⟨task', op', rest', htask', hclient, hop', hfront'⟩ := h.sent c t' hsending
      have ht : t' ≠ t := by
        rintro rfl
        rw [htask, Option.some.injEq] at htask'
        exact hheard (by rw [htask', hclient, hsending])
      rw [hqueue]
      exact ⟨task', op', rest', (Function.update_of_ne ht ..).trans htask', hclient, hop', hfront'⟩
    · rw [hqueue]
      rcases List.mem_append.mp he with he | he
      · exact h.gone e he hheard'
      · obtain ⟨op, -, rfl⟩ := List.mem_map.mp he
        simp [hheard] at hheard'

theorem Lined.step (h : Lined s) {e : Event T} (hstep : Step u s e s') : Lined s' := by
  obtain ⟨client, value, -, rfl⟩ | ⟨client, t, value, -, hfree, rfl⟩ |
    ⟨client, t, op, rest, -, hfree, hidle, hfront, rfl⟩ | ⟨client, -, rfl⟩ | ⟨t, task, -, htask, hcall⟩ |
    ⟨t, task, outcome, -, htask, -, rfl⟩ := step_cases hstep
  · exact h.queueOffline client value
  · exact h.setTask fun old hold => by simp [hfree] at hold
  · refine ⟨fun c t' hsending => ?_, h.ordered, h.made, h.gone⟩
    have hset : Lined (s.setTask t ⟨client, some op, u.saveBy client op.value, none, false⟩) :=
      h.setTask fun old hold => by simp [hfree] at hold
    change Function.update s.sending client (some t) c = some t' at hsending
    by_cases hc : c = client
    · rw [hc, Function.update_self, Option.some.injEq] at hsending
      subst hsending
      exact ⟨_, op, rest, Function.update_self .., hc.symm, rfl, hc ▸ hfront⟩
    · rw [Function.update_of_ne hc] at hsending
      exact hset.sent c t' hsending
  · refine ⟨fun c t' hsending => ?_, h.ordered, h.made, h.gone⟩
    change Function.update s.sending client none c = some t' at hsending
    by_cases hc : c = client
    · rw [hc, Function.update_self] at hsending
      cases hsending
    · rw [Function.update_of_ne hc] at hsending
      exact h.sent c t' hsending
  · obtain ⟨⟨task', htasks, hclient, hop⟩, hqueue, hsending, hcalls, hended⟩ := call_frame hcall
    have hset : Lined (s.setTask t task') := h.setTask fun old hold => by
      rw [htask, Option.some.injEq] at hold
      exact ⟨hold ▸ hclient, hold ▸ hop⟩
    refine ⟨fun c t' hc => ?_, fun c => hqueue ▸ h.ordered c, fun c => hqueue ▸ hcalls ▸ h.made c, ?_⟩
    · rw [hsending] at hc
      rw [htasks, hqueue]
      exact hset.sent c t' hc
    · rw [hended, hqueue, hcalls]
      exact h.gone
  · exact h.answer htask

end Clients

section Runs

variable {T : Type} [DecidableEq T] {u : Unique} {s : Sys T}

omit [DecidableEq T] in
theorem guarded_new {w : World (Stored T)} (h : LiveAt (w.store u.anchor)) : Guarded u (Sys.new w) :=
  ⟨h, nofun, by simp [Sys.new], by simp [Sys.new]⟩

omit [DecidableEq T] in
theorem lined_new (w : World (Stored T)) : Lined (Sys.new w) :=
  ⟨nofun, fun _ => .nil, by simp [Sys.new], by simp [Sys.new]⟩

def Sys.raced (s : Sys T) : Event T → Bool
  | .call t =>
    match s.tasks t with
    | none => true
    | some task =>
      match task.program with
      | .ask (.mintInstant floor) _ => s.world.minted floor < 2 ^ 64 - 1
      | .ask (.apply _) _ =>
        task.op.all fun op => !overtaken s.commits op.since task.client ||
          task.readAt.any fun n => overtaken s.commits n task.client
      | _ => true
  | _ => true

omit [DecidableEq T] in
theorem raced_of_decided {e : Event T} (h : s.raced e = true) : Raced s e := by
  cases e with
  | call t =>
    intro task htask
    rw [Sys.raced, htask] at h
    refine ⟨fun floor k hprogram => ?_, fun batch k op hprogram hop hover => ?_⟩
    · simpa [hprogram] using h
    · simp only [hprogram, hop, Option.all_some, hover, Bool.not_true, Bool.false_or,
        Option.any_eq_true] at h
      exact h
  | queue client value => trivial
  | save client t value => trivial
  | replay client t => trivial
  | cut client => trivial
  | answer t => trivial

end Runs

section Samples

def sampleUnique : Unique := ⟨7, 1, fun client => client⟩

def sampleWorld : World (Stored Nat) := ⟨fun _ => none, fun n => n, 0⟩

def racedEvents : List (Event Nat) :=
  [.queue 0 5, .replay 0 1, .call 1, .save 1 0 6, .call 0, .call 0, .call 0, .call 1, .call 1, .answer 1]

end Samples

end WaveDb.Client.Replay
