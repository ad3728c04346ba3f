import WaveDb.Node.Changes

-- What declaring topics can do to a node: by a poll, along with a command, or for a
-- socket.
namespace WaveDb.Node

open WaveDb.Lib WaveDb.Core WaveDb.Index WaveDb.Net
open WaveDb.Collection (Key)

section Bodies

variable {S : Type} {registry : Registry S} {hash : Nat}

def Entry.withFns (g : Nat → ServerFn S → ServerFn S) : Entry S → Entry S
  | .fn hash f => .fn hash (g hash f)
  | e => e

def Registry.withFns (registry : Registry S) (g : Nat → ServerFn S → ServerFn S) : Registry S :=
  registry.map (Entry.withFns g)

-- The hash of a topic that only its struct's own `Changes` step answers.
def Registry.Navigable (registry : Registry S) (hash : Nat) : Prop :=
  match registry.find hash with
  | some (.struct _ ops) => ∀ target, ops .changes ≠ .overridden target
  | some (.fn _ _) => False
  | _ => True

theorem wireHash_withFns (g : Nat → ServerFn S → ServerFn S) (e : Entry S) :
    (e.withFns g).wireHash = e.wireHash := by
  cases e <;> rfl

theorem find_withFns (g : Nat → ServerFn S → ServerFn S) (registry : Registry S) (hash : Nat) :
    (registry.withFns g).find hash = (registry.find hash).map (Entry.withFns g) := by
  unfold Registry.find Registry.withFns
  rw [List.find?_map]
  refine congrArg (Option.map (Entry.withFns g)) (congrArg (fun p => List.find? p registry) ?_)
  funext e
  exact congrArg (· == some hash) (wireHash_withFns g e)

theorem execute_withFns (g : Nat → ServerFn S → ServerFn S) (h : registry.Navigable hash) (store : S)
    (caller : Caller) (command : Command) (payload : Bytes) :
    (registry.withFns g).execute store caller hash command payload =
      registry.execute store caller hash command payload := by
  rw [Registry.Navigable] at h
  rw [Registry.execute, Registry.execute, find_withFns]
  cases hfind : registry.find hash with
  | none => rfl
  | some e =>
    rw [hfind] at h
    cases e with
    | struct hash' ops => rfl
    | fn hash' f => exact h.elim
    | store hash' => rfl

theorem opFn_store {body : Step S} (h : ∀ store caller payload, (body store caller payload).2 = store)
    (store : S) (caller : Caller) (payload : Bytes) : (opFn body store caller payload).2 = store := by
  unfold opFn
  by_cases hanonymous : caller.isAnonymous
  · rw [if_pos hanonymous]
  · rw [if_neg hanonymous]
    by_cases hne : caller.user ≠ caller.tenant
    · rw [if_pos hne]
    · rw [if_neg hne]
      exact h store caller payload

end Bodies

section ReadOnly

variable {V : Type} [DecidableEq V] [LaneCodec V (Segment Key Unit)]
  {c : ChangesCodec V} {fuel : Nat} {codec : Codec} {registry : Registry (World V)} {caller : Caller}

-- As `expose!` writes it: a generated `Changes` step is the step of its struct's shape.
def Registry.Exposed (c : ChangesCodec V) (fuel : Nat) (registry : Registry (World V)) : Prop :=
  ∀ hash ops body, .struct hash ops ∈ registry → ops .changes = .generated body →
    ∃ shape, body = c.changesStep fuel shape hash

theorem execute_changes_world (hexposed : registry.Exposed c fuel) {hash : Nat} (h : registry.Navigable hash)
    (world : World V) (payload : Bytes) :
    (registry.execute world caller hash .changes payload).2 = world := by
  rw [Registry.Navigable] at h
  rw [Registry.execute]
  cases hfind : registry.find hash with
  | none => rfl
  | some e =>
    rw [hfind] at h
    have hmem : e ∈ registry := List.mem_of_find?_eq_some hfind
    cases e with
    | fn hash' f => exact h.elim
    | store hash' => rfl
    | struct hash' ops =>
      change (opCall hash' (ops .changes) world caller payload).2 = world
      cases hop : ops .changes with
      | never => rfl
      | overridden target => exact absurd hop (h target)
      | generated body =>
        obtain ⟨shape, rfl⟩ := hexposed hash' ops body hmem hop
        exact opFn_store (c.changesStep_world fuel shape hash') world caller payload

-- One topic after the other: each finds the store as the poll found it.
theorem navigateLoop_reads (hexposed : registry.Exposed c fuel) (g : Nat → ServerFn (World V) → ServerFn (World V))
    {topics : List TopicCursor} (h : ∀ declared ∈ topics, registry.Navigable declared.topic.structHash)
    (world : World V) (reply : SyncReply) :
    navigateLoop codec (registry.withFns g) caller world reply topics =
        navigateLoop codec registry caller world reply topics ∧
      (navigateLoop codec registry caller world reply topics).2 = world := by
  induction topics generalizing reply with
  | nil => exact ⟨rfl, rfl⟩
  | cons declared topics ih =>
    have hnav := h declared List.mem_cons_self
    have ih := ih fun d hd => h d (List.mem_cons_of_mem _ hd)
    have hworld : (registry.execute world caller declared.topic.structHash .changes
        (codec.changesQuery declared.topic.pivot declared.since)).2 = world :=
      execute_changes_world hexposed hnav world _
    simp only [navigateLoop, execute_withFns g hnav, hworld]
    split
    · split
      · exact ih _
      · exact ⟨rfl, rfl⟩
    · exact ⟨rfl, rfl⟩
    · exact ⟨rfl, rfl⟩

theorem syncPoll_reads (hexposed : registry.Exposed c fuel) (g : Nat → ServerFn (World V) → ServerFn (World V))
    {payload : Bytes} (h : ∀ topics, codec.syncRequest payload = .ok topics →
      ∀ declared ∈ topics, registry.Navigable declared.topic.structHash) (world : World V) :
    syncPoll codec (registry.withFns g) world caller payload = syncPoll codec registry world caller payload ∧
      (syncPoll codec registry world caller payload).2 = world := by
  unfold syncPoll
  by_cases hanonymous : caller.isAnonymous
  · simp only [if_pos hanonymous, and_self]
  · simp only [if_neg hanonymous]
    cases htopics : codec.syncRequest payload with
    | error err => exact ⟨rfl, rfl⟩
    | ok topics => exact navigateLoop_reads hexposed g (h topics htopics) world ⟨[], []⟩

theorem piggyback_reads (hexposed : registry.Exposed c fuel) (g : Nat → ServerFn (World V) → ServerFn (World V))
    {topics : List TopicCursor} (h : ∀ declared ∈ topics, registry.Navigable declared.topic.structHash)
    (world : World V) :
    piggyback codec (registry.withFns g) world caller topics = piggyback codec registry world caller topics ∧
      (piggyback codec registry world caller topics).2 = world := by
  have hnav : navigate codec (registry.withFns g) world caller topics = navigate codec registry world caller topics ∧
      (navigate codec registry world caller topics).2 = world :=
    navigateLoop_reads hexposed g h world ⟨[], []⟩
  unfold piggyback
  by_cases hempty : topics.isEmpty
  · simp only [if_pos hempty, and_self]
  · simp only [if_neg hempty, hnav.1, hnav.2, true_and]
    split <;> rfl

theorem subscribe_reads (hexposed : registry.Exposed c fuel) (g : Nat → ServerFn (World V) → ServerFn (World V))
    {topic : Topic} (h : registry.Navigable topic.structHash) (world : World V) (watched : Finset Topic) :
    handleClient codec (registry.withFns g) caller world watched (.subscribe topic) =
        handleClient codec registry caller world watched (.subscribe topic) ∧
      (handleClient codec registry caller world watched (.subscribe topic)).2.2 = world := by
  have htail : topicTail codec (registry.withFns g) world caller topic = topicTail codec registry world caller topic := by
    simp only [topicTail, execute_withFns g h]
  have hworld : (topicTail codec registry world caller topic).2 = world := by
    unfold topicTail
    simp only [execute_changes_world hexposed h]
    split
    · split <;> rfl
    · rfl
  by_cases hanonymous : caller.isAnonymous
  · simp only [handleClient, if_pos hanonymous, and_self]
  · simp only [handleClient, if_neg hanonymous, htail, hworld, and_self]

end ReadOnly

section Sample

abbrev SampleCell := Segment Key Unit

instance : LaneCodec SampleCell (Segment Key Unit) where
  toBytes _ seg := seg
  fromBytes _ seg := .ok seg
  fromBytes_toBytes _ _ := rfl

def sampleChanges : ChangesCodec SampleCell where
  query _ := .ok (none, none)
  pivotHash := id
  chains _ _ _ := .error .wire
  splitRecord _ _ := .error .wire
  change _ := []
  refusal _ := .backend "refused"

def sampleWriter : ServerFn (World SampleCell) :=
  ⟨false, fun world _ _ => (.ok .done, (Engine.apply [.put ⟨1, 1, 1⟩ ⟨none, none, []⟩] |>.runIn world).2)⟩

def writerRegistry : Registry (World SampleCell) :=
  [.struct 3 fun _ => .generated (sampleChanges.changesStep 4 .unique 3), .fn 5 sampleWriter]

def topicCodec : Codec where
  syncRequest payload := .ok [⟨⟨(payload.headD 0).toNat, none⟩, none⟩]
  changesQuery _ _ := []
  change _ := .ok (.cursor 0)
  syncReply _ := []

def emptyWorld : World SampleCell := ⟨fun _ => none, id, 0⟩

theorem exposed_writerRegistry : writerRegistry.Exposed sampleChanges 4 := by
  intro hash ops body hmem hop
  rcases List.mem_cons.mp hmem with heq | hmem
  · cases heq
    cases hop
    exact ⟨.unique, rfl⟩
  · cases List.mem_singleton.mp hmem

theorem navigable_writerRegistry : writerRegistry.Navigable 3 := fun _ htarget => nomatch htarget

end Sample

end WaveDb.Node
