import WaveDb.Node.Refusal

-- What an unauthenticated caller gets to see and to change.
namespace WaveDb.Node

open WaveDb.Core WaveDb.Net

variable {S : Type} {registry : Registry S} {caller : Caller} {hash : Nat}

section Registry

def Registry.publicFn (registry : Registry S) (hash : Nat) : Option (ServerFn S) :=
  match registry.find hash with
  | some (.fn _ f) => if f.isPublic then some f else none
  | _ => none

-- A step that turns unauthenticated callers away, as the generated ones do.
def Step.Closed (step : Step S) : Prop :=
  ∀ caller payload, caller.isAnonymous = true → ∃ err, ∀ store, step store caller payload = (.error err, store)

def Registry.Guarded (registry : Registry S) : Prop :=
  ∀ hash ops command target, .struct hash ops ∈ registry → ops command = .overridden target → target.Closed

theorem closed_opFn (body : Step S) : (opFn body).Closed := by
  intro caller payload hanonymous
  exact ⟨.unauthorized "login required", fun store => by rw [opFn, if_pos hanonymous]⟩

theorem Registry.Guarded.opCall (h : registry.Guarded) {ops : Command → Op S}
    (hmem : .struct hash ops ∈ registry) (command : Command) : Step.Closed (opCall hash (ops command)) := by
  cases hop : ops command with
  | generated body => exact closed_opFn body
  | overridden target => exact h hash ops command target hmem hop
  | never => exact fun _ _ _ => ⟨_, fun _ => rfl⟩

theorem closed_dispatch {f : ServerFn S} (hpublic : f.isPublic = false) : Step.Closed f.dispatch := by
  intro caller payload hanonymous
  refine ⟨.unauthorized "login required", fun store => ?_⟩
  rw [ServerFn.dispatch, hpublic, hanonymous]
  rfl

theorem Registry.Guarded.execute (h : registry.Guarded) (hanonymous : caller.isAnonymous = true)
    (hnone : registry.publicFn hash = none) : registry.Refuses caller hash := by
  intro command payload
  simp only [Registry.execute]
  rw [Registry.publicFn] at hnone
  cases hfind : registry.find hash with
  | none => exact ⟨_, fun _ => rfl⟩
  | some e =>
    rw [hfind] at hnone
    have hmem : e ∈ registry := List.mem_of_find?_eq_some hfind
    cases e with
    | struct hash' ops => exact h.opCall hmem command caller payload hanonymous
    | fn hash' f =>
      have hpublic : f.isPublic = false := by simpa using hnone
      exact closed_dispatch hpublic caller payload hanonymous
    | store hash' => exact ⟨_, fun _ => rfl⟩

theorem execute_publicFn {f : ServerFn S} (hf : registry.publicFn hash = some f) (store : S) (command : Command)
    (payload : Bytes) :
    registry.execute store caller hash command payload = f.body store caller payload := by
  rw [Registry.publicFn] at hf
  rw [Registry.execute]
  cases hfind : registry.find hash with
  | none =>
    rw [hfind] at hf
    cases hf
  | some e =>
    rw [hfind] at hf
    cases e with
    | struct hash' ops => cases hf
    | store hash' => cases hf
    | fn hash' g =>
      simp only at hf
      split at hf
      · rename_i hpublic
        cases hf
        simp [Entry.execute, ServerFn.dispatch, hpublic]
      · cases hf

theorem knows_publicFn {f : ServerFn S} (hf : registry.publicFn hash = some f) : registry.knows hash = true := by
  rw [Registry.publicFn] at hf
  rw [Registry.knows]
  cases hfind : registry.find hash with
  | none =>
    rw [hfind] at hf
    cases hf
  | some e => rfl

end Registry

section Paths

theorem execute_public {f : ServerFn S} (frame : CommandFrame)
    (hf : registry.publicFn frame.structHash = some f) (store : S) :
    execute registry store caller frame =
      (respond frame.structHash (f.body store caller frame.payload).1, (f.body store caller frame.payload).2) := by
  have hrun : registry.execute store caller frame.structHash frame.command frame.payload =
      f.body store caller frame.payload := execute_publicFn hf store frame.command frame.payload
  rw [execute, knows_publicFn hf, hrun]
  rfl

def ownFn (registry : Registry S) (frame : CommandFrame) : Option (ServerFn S) :=
  if frame.structHash = syncStructHash then none else registry.publicFn frame.structHash

def publicSession (registry : Registry S) (caller : Caller) (refuse : CommandFrame → Response) :
    S → List Incoming → List Outgoing × S
  | store, [] => ([], store)
  | store, .call frame :: items =>
    match registry.publicFn frame.structHash with
    | some f =>
      let outcome := f.body store caller frame.payload
      let rest := publicSession registry caller refuse outcome.2 items
      (.reply (respond frame.structHash outcome.1) :: rest.1, rest.2)
    | none =>
      let rest := publicSession registry caller refuse store items
      (.reply (refuse frame) :: rest.1, rest.2)
  | store, .ping payload :: items =>
    let rest := publicSession registry caller refuse store items
    (.pong payload :: rest.1, rest.2)
  | store, .unsubscribe topic :: items =>
    let rest := publicSession registry caller refuse store items
    (.topicOk topic 0 :: rest.1, rest.2)
  | store, .event _ :: items => publicSession registry caller refuse store items
  | store, _ :: _ => ([.close], store)

theorem sessionLoop_public (codec : Codec) (hanonymous : caller.isAnonymous = true)
    {refuse : CommandFrame → Response}
    (hrefuse : ∀ frame, registry.publicFn frame.structHash = none →
      ∀ store, execute registry store caller frame = (refuse frame, store)) (store : S) (items : List Incoming) :
    sessionLoop codec registry caller store ∅ items = publicSession registry caller refuse store items := by
  induction items generalizing store with
  | nil => rfl
  | cons item items ih =>
    rw [sessionLoop]
    cases item with
    | hello auth => rfl
    | call frame =>
      cases hf : registry.publicFn frame.structHash with
      | none =>
        simp only [handleClient, hrefuse frame hf, publicSession, hf, ih, List.singleton_append]
      | some f =>
        simp only [handleClient, execute_public frame hf, publicSession, hf, ih, List.singleton_append]
    | subscribe topic =>
      simp only [handleClient, hanonymous, if_true, publicSession]
    | unsubscribe topic =>
      simp only [handleClient, Finset.erase_empty, publicSession, ih, List.singleton_append]
    | ping payload => simp only [handleClient, publicSession, ih, List.singleton_append]
    | event e => simp only [handleClient, Finset.notMem_empty, if_false, publicSession, ih, List.nil_append]

end Paths

section Anonymous

def sampleFn : ServerFn Nat := ⟨true, fun store _ _ => (.ok (.values [[store.toUInt8]]), store + 1)⟩

def sampleRegistry : Registry Nat := [.struct 3 fun _ => .generated sampleFn.body, .fn 5 sampleFn]

def sampleCodec : Codec where
  syncRequest _ := .ok []
  changesQuery _ _ := []
  change bytes := .ok (.cursor (bytes.headD 0).toNat)
  syncReply reply := reply.cursors.map fun x => x.2.toUInt8

theorem guarded_sampleRegistry : sampleRegistry.Guarded := by
  intro hash ops command target hmem hop
  rcases List.mem_cons.mp hmem with heq | hmem
  · cases heq
    cases hop
  · cases List.mem_singleton.mp hmem

end Anonymous

end WaveDb.Node
