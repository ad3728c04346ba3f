import WaveDb.Client.Offline

-- The offline queue under concurrent use: a drain gives way at each send, and its
-- future may be dropped there.
namespace WaveDb.Client.Drains

open WaveDb.Lib
open WaveDb.Client.Offline

section Model

variable {V : Type}

-- A drain that waits for its send: a copy of the front write, the count so
-- far, and what became of the send once that is known.
structure Sending (V : Type) where
  op : QueuedOp V
  flushed : Nat
  sent : Option Outcome

-- `OfflineQueue` and the drains that run. Pushed, removed, answered and returned are
-- histories.
structure Queue (V : Type) where
  ops : List (QueuedOp V)
  draining : Bool
  drains : Nat → Option (Sending V)
  pushed : List (QueuedOp V)
  removed : List (QueuedOp V)
  answered : List (QueuedOp V)
  returned : List (Nat × Nat)

def Queue.new : Queue V := ⟨[], false, fun _ => none, [], [], [], []⟩

def push (q : Queue V) (tenant structHash : Nat) (payload : V) : Queue V :=
  let op : QueuedOp V := ⟨tenant, structHash, payload, q.pushed.length⟩
  { q with ops := q.ops ++ [op], pushed := q.pushed ++ [op] }

def popFront (q : Queue V) : Queue V :=
  { q with ops := q.ops.tail, removed := q.removed ++ q.ops.head?.toList }

def finish (q : Queue V) (t flushed : Nat) : Queue V :=
  { q with draining := false, drains := Function.update q.drains t none,
           returned := q.returned ++ [(t, flushed)] }

-- `while let Some(op) = queue.front()`, up to the next send.
def loopHead (q : Queue V) (t flushed : Nat) : Queue V :=
  match q.ops.head? with
  | none => finish q t flushed
  | some op => { q with drains := Function.update q.drains t (some ⟨op, flushed, none⟩) }

-- `drain` up to its first send; a drain that finds the flag set returns.
def startDrain (q : Queue V) (t : Nat) : Queue V :=
  if q.draining then { q with returned := q.returned ++ [(t, 0)] }
  else loopHead { q with draining := true } t 0

def stillOffline : Outcome → Bool
  | .faulted _ => true
  | _ => false

-- The send is over. The drain learns it when it resumes.
def settleSend (q : Queue V) (t : Nat) (p : Sending V) (outcome : Outcome) : Queue V :=
  { q with drains := Function.update q.drains t (some { p with sent := some outcome }),
           answered := if stillOffline outcome then q.answered else q.answered ++ [p.op] }

def resume (q : Queue V) (t : Nat) (p : Sending V) (outcome : Outcome) : Queue V :=
  if stillOffline outcome then finish q t p.flushed
  else loopHead (popFront q) t (p.flushed + 1)

def dropDrain (q : Queue V) (t : Nat) : Queue V := { q with drains := Function.update q.drains t none }

inductive Event (V : Type)
  | push (tenant structHash : Nat) (payload : V)
  | drain (t : Nat)
  | sent (t : Nat) (outcome : Outcome)
  | resume (t : Nat)
  | drop (t : Nat)

def Queue.exec (q : Queue V) : Event V → Option (Queue V)
  | .push tenant structHash payload => some (Drains.push q tenant structHash payload)
  | .drain t =>
    match q.drains t with
    | none => some (startDrain q t)
    | some _ => none
  | .sent t outcome =>
    match q.drains t with
    | some ⟨op, flushed, none⟩ => some (settleSend q t ⟨op, flushed, none⟩ outcome)
    | _ => none
  | .resume t =>
    match q.drains t with
    | some ⟨op, flushed, some outcome⟩ => some (Drains.resume q t ⟨op, flushed, some outcome⟩ outcome)
    | _ => none
  | .drop t =>
    match q.drains t with
    | some _ => some (dropDrain q t)
    | none => none

def Step (q : Queue V) (e : Event V) (q' : Queue V) : Prop := q.exec e = some q'

def Undropped (q : Queue V) : Event V → Prop
  | .drop t => q.drains t = none
  | _ => True

def Anything (_ : Queue V) (_ : Event V) : Prop := True

end Model

section Order

variable {V : Type} {q q' : Queue V} {t flushed : Nat} {p : Sending V} {outcome : Outcome}

-- One drain at a time, and only under the flag. It sends the write at the
-- front, and a send the node answered is a write the node answered.
structure Orderly (q : Queue V) : Prop where
  line : q.pushed = q.removed ++ q.ops
  numbered : ∀ (i : Nat) (op : QueuedOp V), q.pushed[i]? = some op → op.call = i
  flagged : ∀ t p, q.drains t = some p → q.draining = true
  alone : ∀ t t' p p', q.drains t = some p → q.drains t' = some p' → t = t'
  front : ∀ t p, q.drains t = some p → q.ops.head? = some p.op
  heard : ∀ t p outcome, q.drains t = some p → p.sent = some outcome → stillOffline outcome = false →
    p.op ∈ q.answered
  removed : ∀ op ∈ q.removed, op ∈ q.answered

theorem orderly_new : Orderly (Queue.new : Queue V) :=
  ⟨rfl, by simp [Queue.new], nofun, nofun, nofun, nofun, by simp [Queue.new]⟩

theorem Orderly.push (h : Orderly q) (tenant structHash : Nat) (payload : V) :
    Orderly (push q tenant structHash payload) where
  line := by
    change q.pushed ++ [_] = q.removed ++ (q.ops ++ [_])
    rw [h.line, List.append_assoc]
  numbered := by
    intro i op hop
    change (q.pushed ++ [_])[i]? = some op at hop
    rw [List.getElem?_append] at hop
    by_cases hi : i < q.pushed.length
    · rw [if_pos hi] at hop
      exact h.numbered i op hop
    · rw [if_neg hi, List.getElem?_singleton] at hop
      by_cases hlast : i - q.pushed.length = 0
      · rw [if_pos hlast, Option.some.injEq] at hop
        rw [← hop]
        change q.pushed.length = i
        omega
      · rw [if_neg hlast] at hop
        cases hop
  flagged := h.flagged
  alone := h.alone
  front := by
    intro t p hp
    have hfront := h.front t p hp
    change (q.ops ++ [_]).head? = some p.op
    rw [List.head?_append, hfront]
    rfl
  heard := h.heard
  removed := h.removed

-- At the head of its loop a drain sends nothing, so its own entry may be out of date.
structure AtHead (q : Queue V) (t : Nat) : Prop where
  line : q.pushed = q.removed ++ q.ops
  numbered : ∀ (i : Nat) (op : QueuedOp V), q.pushed[i]? = some op → op.call = i
  flagged : q.draining = true
  alone : ∀ t' p, q.drains t' = some p → t' = t
  removed : ∀ op ∈ q.removed, op ∈ q.answered

theorem AtHead.finish (h : AtHead q t) : Orderly (finish q t flushed) := by
  have hnone : ∀ t' p, (Drains.finish q t flushed).drains t' ≠ some p := by
    intro t' p hp
    change Function.update q.drains t none t' = some p at hp
    by_cases ht : t' = t
    · rw [ht, Function.update_self] at hp
      cases hp
    · rw [Function.update_of_ne ht] at hp
      exact ht (h.alone t' p hp)
  exact ⟨h.line, h.numbered, fun t' p hp => absurd hp (hnone t' p), fun t' _ p _ hp => absurd hp (hnone t' p),
    fun t' p hp => absurd hp (hnone t' p), fun t' p _ hp => absurd hp (hnone t' p), h.removed⟩

theorem AtHead.loopHead (h : AtHead q t) : Orderly (loopHead q t flushed) := by
  cases hhead : q.ops.head? with
  | none =>
    rw [Drains.loopHead, hhead]
    exact h.finish
  | some op =>
    have hone : ∀ t' p, Function.update q.drains t (some ⟨op, flushed, none⟩) t' = some p →
        t' = t ∧ p = ⟨op, flushed, none⟩ := by
      intro t' p hp
      by_cases ht : t' = t
      · rw [ht, Function.update_self, Option.some.injEq] at hp
        exact ⟨ht, hp.symm⟩
      · rw [Function.update_of_ne ht] at hp
        exact absurd (h.alone t' p hp) ht
    rw [Drains.loopHead, hhead]
    refine ⟨h.line, h.numbered, fun _ _ _ => h.flagged, fun t₁ t₂ p₁ p₂ h₁ h₂ => ?_,
      fun t' p hp => ?_, fun t' p outcome hp hsent => ?_, h.removed⟩
    · rw [(hone t₁ p₁ h₁).1, (hone t₂ p₂ h₂).1]
    · rw [(hone t' p hp).2]
      exact hhead
    · rw [(hone t' p hp).2] at hsent
      cases hsent

theorem Orderly.startDrain (h : Orderly q) : Orderly (startDrain q t) := by
  rw [Drains.startDrain]
  by_cases hflag : q.draining = true
  · rw [if_pos hflag]
    exact ⟨h.line, h.numbered, h.flagged, h.alone, h.front, h.heard, h.removed⟩
  · rw [if_neg hflag]
    have hhead : AtHead { q with draining := true } t :=
      ⟨h.line, h.numbered, rfl, fun t' p hp => absurd (h.flagged t' p hp) hflag, h.removed⟩
    exact hhead.loopHead

theorem Orderly.settleSend (h : Orderly q) (hp : q.drains t = some p) :
    Orderly (settleSend q t p outcome) := by
  have hone : ∀ t' p', (Drains.settleSend q t p outcome).drains t' = some p' →
      t' = t ∧ p' = { p with sent := some outcome } := by
    intro t' p' hp'
    change Function.update q.drains t _ t' = some p' at hp'
    by_cases ht : t' = t
    · rw [ht, Function.update_self, Option.some.injEq] at hp'
      exact ⟨ht, hp'.symm⟩
    · rw [Function.update_of_ne ht] at hp'
      exact absurd (h.alone t' t p' p hp' hp) ht
  refine ⟨h.line, h.numbered, fun _ _ _ => h.flagged t p hp, fun t₁ t₂ p₁ p₂ h₁ h₂ => ?_,
    fun t' p' hp' => ?_, fun t' p' o hp' hsent hanswered => ?_, fun op hop => ?_⟩
  · rw [(hone t₁ p₁ h₁).1, (hone t₂ p₂ h₂).1]
  · rw [(hone t' p' hp').2]
    exact h.front t p hp
  · have ho : o = outcome := by
      rw [(hone t' p' hp').2] at hsent
      exact (Option.some.inj hsent).symm
    rw [(hone t' p' hp').2]
    change p.op ∈ if stillOffline outcome then q.answered else q.answered ++ [p.op]
    rw [if_neg (by simp [← ho, hanswered])]
    exact List.mem_append_right _ List.mem_cons_self
  · change op ∈ if stillOffline outcome then q.answered else q.answered ++ [p.op]
    cases stillOffline outcome with
    | true => exact h.removed op hop
    | false => exact List.mem_append_left _ (h.removed op hop)

-- The write popped is the write sent: others only push meanwhile.
theorem Orderly.resume (h : Orderly q) (hp : q.drains t = some p) (hsent : p.sent = some outcome) :
    Orderly (resume q t p outcome) := by
  have hown : ∀ t' p', q.drains t' = some p' → t' = t := fun t' p' hp' => h.alone t' t p' p hp' hp
  rw [Drains.resume]
  cases hoffline : stillOffline outcome with
  | true =>
    have hhead : AtHead q t := ⟨h.line, h.numbered, h.flagged t p hp, hown, h.removed⟩
    exact hhead.finish
  | false =>
    have hfront := h.front t p hp
    obtain ⟨rest, hrest⟩ : ∃ rest, q.ops = p.op :: rest := by
      cases hops : q.ops with
      | nil => simp [hops] at hfront
      | cons op rest =>
        rw [hops, List.head?_cons, Option.some.injEq] at hfront
        exact ⟨rest, by rw [hfront]⟩
    have hhead : AtHead (popFront q) t := by
      refine ⟨?_, h.numbered, h.flagged t p hp, hown, fun op hop => ?_⟩
      · change q.pushed = q.removed ++ q.ops.head?.toList ++ q.ops.tail
        rw [h.line, hrest]
        simp
      · change op ∈ q.removed ++ q.ops.head?.toList at hop
        rw [hrest] at hop
        rcases List.mem_append.mp hop with hop | hop
        · exact h.removed op hop
        · have hop : op = p.op := by simpa using hop
          rw [hop]
          exact h.heard t p outcome hp hsent hoffline
    exact hhead.loopHead

theorem Orderly.dropDrain (h : Orderly q) : Orderly (dropDrain q t) := by
  have hold : ∀ t' p, (Drains.dropDrain q t).drains t' = some p → q.drains t' = some p := by
    intro t' p hp
    change Function.update q.drains t none t' = some p at hp
    by_cases ht : t' = t
    · rw [ht, Function.update_self] at hp
      cases hp
    · rwa [Function.update_of_ne ht] at hp
  exact ⟨h.line, h.numbered, fun t' p hp => h.flagged t' p (hold t' p hp),
    fun t₁ t₂ p₁ p₂ h₁ h₂ => h.alone t₁ t₂ p₁ p₂ (hold t₁ p₁ h₁) (hold t₂ p₂ h₂),
    fun t' p hp => h.front t' p (hold t' p hp), fun t' p o hp => h.heard t' p o (hold t' p hp), h.removed⟩

end Order

section Runs

variable {V : Type} {q q' : Queue V} {t : Nat}

theorem step_cases {e : Event V} (h : Step q e q') :
    (∃ tenant structHash payload, e = .push tenant structHash payload ∧
      q' = push q tenant structHash payload) ∨
    (∃ t, e = .drain t ∧ q.drains t = none ∧ q' = startDrain q t) ∨
    (∃ t p outcome, e = .sent t outcome ∧ q.drains t = some p ∧ q' = settleSend q t p outcome) ∨
    (∃ t p outcome, e = .resume t ∧ q.drains t = some p ∧ p.sent = some outcome ∧
      q' = resume q t p outcome) ∨
    (∃ t p, e = .drop t ∧ q.drains t = some p ∧ q' = dropDrain q t) := by
  cases e with
  | push tenant structHash payload => exact .inl ⟨tenant, structHash, payload, rfl, (Option.some.inj h).symm⟩
  | drain t =>
    rw [Step, Queue.exec] at h
    cases hp : q.drains t with
    | none =>
      rw [hp] at h
      exact .inr (.inl ⟨t, rfl, hp, (Option.some.inj h).symm⟩)
    | some p =>
      rw [hp] at h
      cases h
  | sent t outcome =>
    rw [Step, Queue.exec] at h
    rcases hp : q.drains t with _ | ⟨op, flushed, _ | o⟩
    · rw [hp] at h
      cases h
    · rw [hp] at h
      exact .inr (.inr (.inl ⟨t, _, outcome, rfl, hp, (Option.some.inj h).symm⟩))
    · rw [hp] at h
      cases h
  | resume t =>
    rw [Step, Queue.exec] at h
    rcases hp : q.drains t with _ | ⟨op, flushed, _ | o⟩
    · rw [hp] at h
      cases h
    · rw [hp] at h
      cases h
    · rw [hp] at h
      exact .inr (.inr (.inr (.inl ⟨t, _, o, rfl, hp, rfl, (Option.some.inj h).symm⟩)))
  | drop t =>
    rw [Step, Queue.exec] at h
    cases hp : q.drains t with
    | none =>
      rw [hp] at h
      cases h
    | some p =>
      rw [hp] at h
      exact .inr (.inr (.inr (.inr ⟨t, p, rfl, hp, (Option.some.inj h).symm⟩)))

theorem Orderly.step (h : Orderly q) {e : Event V} (hstep : Step q e q') : Orderly q' := by
  obtain ⟨tenant, structHash, payload, -, rfl⟩ | ⟨t, -, -, rfl⟩ | ⟨t, p, outcome, -, hp, rfl⟩ |
    ⟨t, p, outcome, -, hp, hsent, rfl⟩ | ⟨t, p, -, -, rfl⟩ := step_cases hstep
  · exact h.push tenant structHash payload
  · exact h.startDrain
  · exact h.settleSend hp
  · exact h.resume hp hsent
  · exact h.dropDrain

def Owned (q : Queue V) : Prop := q.draining = true → ∃ t p, q.drains t = some p

theorem owned_loopHead (t flushed : Nat) : Owned (loopHead q t flushed) := by
  cases hhead : q.ops.head? with
  | none =>
    rw [loopHead, hhead]
    exact nofun
  | some op =>
    rw [loopHead, hhead]
    exact fun _ => ⟨t, ⟨op, flushed, none⟩, Function.update_self ..⟩

theorem Owned.step (h : Owned q) {e : Event V} (hkept : Undropped q e) (hstep : Step q e q') :
    Owned q' := by
  obtain ⟨tenant, structHash, payload, -, rfl⟩ | ⟨t, -, -, rfl⟩ | ⟨t, p, outcome, -, -, rfl⟩ |
    ⟨t, p, outcome, -, -, -, rfl⟩ | ⟨t, p, rfl, hp, -⟩ := step_cases hstep
  · exact h
  · rw [startDrain]
    by_cases hflag : q.draining = true
    · rw [if_pos hflag]
      exact h
    · rw [if_neg hflag]
      exact owned_loopHead t 0
  · exact fun _ => ⟨t, _, Function.update_self ..⟩
  · rw [resume]
    cases stillOffline outcome with
    | true => exact nofun
    | false => exact owned_loopHead t (p.flushed + 1)
  · have hnone : q.drains t = none := hkept
    rw [hnone] at hp
    cases hp

def Queue.execAll (q : Queue V) (events : List (Event V)) : Option (Queue V) := events.foldlM Queue.exec q

def sends (t : Nat) (outcomes : List Outcome) : List (Event V) :=
  outcomes.flatMap fun outcome => [.sent t outcome, .resume t]

-- From the head of the loop, by the length of the queue: an answer takes the
-- front and leads back to the head.
theorem execAll_sends {outcomes : List Outcome} (flushed : Nat)
    (hlength : outcomes.length = q.ops.length) (hanswer : ∀ o ∈ outcomes, stillOffline o = false) :
    ∃ q', (loopHead q t flushed).execAll (sends t outcomes) = some q' ∧ q'.ops = [] ∧
      q'.removed = q.removed ++ q.ops ∧ q'.draining = false ∧ q'.drains t = none ∧
      q'.returned = q.returned ++ [(t, flushed + q.ops.length)] := by
  induction outcomes generalizing q flushed with
  | nil =>
    have hops : q.ops = [] := List.length_eq_zero_iff.mp hlength.symm
    have hhead : loopHead q t flushed = finish q t flushed := by rw [loopHead, hops]; rfl
    refine ⟨finish q t flushed, by rw [hhead]; rfl, hops, ?_, rfl, Function.update_self .., ?_⟩
    · rw [hops, List.append_nil]
      rfl
    · rw [hops]
      rfl
  | cons o outcomes ih =>
    cases hops : q.ops with
    | nil =>
      rw [hops] at hlength
      cases hlength
    | cons op rest =>
      have ho : stillOffline o = false := hanswer o List.mem_cons_self
      -- The state at the next head of the loop.
      let sending : Queue V := { q with drains := Function.update q.drains t (some ⟨op, flushed, none⟩) }
      let heard : Queue V := settleSend sending t ⟨op, flushed, none⟩ o
      have hfront : q.ops.head? = some op := by rw [hops, List.head?_cons]
      have hhead : loopHead q t flushed = sending := by rw [loopHead, hfront]
      have hsent : sending.exec (.sent t o) = some heard := by
        have hp : sending.drains t = some ⟨op, flushed, none⟩ := Function.update_self ..
        rw [Queue.exec, hp]
      have hresume : heard.exec (.resume t) = some (loopHead (popFront heard) t (flushed + 1)) := by
        have hp : heard.drains t = some ⟨op, flushed, some o⟩ := Function.update_self ..
        rw [Queue.exec, hp]
        simp only [resume, ho, Bool.false_eq_true, if_false]
      have hpop : (popFront heard).ops = rest := congrArg List.tail hops
      have hremoved : (popFront heard).removed = q.removed ++ [op] := by
        change q.removed ++ q.ops.head?.toList = _
        rw [hops]
        rfl
      have hshort : outcomes.length = (popFront heard).ops.length := by
        rw [hpop]
        simpa [hops] using hlength
      obtain ⟨q', hrun, hempty, hdone, hflag, hgone, hreturned⟩ :=
        ih (q := popFront heard) (flushed + 1) hshort fun o' ho' => hanswer o' (List.mem_cons_of_mem _ ho')
      refine ⟨q', ?_, hempty, ?_, hflag, hgone, ?_⟩
      · have hevents : sends (V := V) t (o :: outcomes) = .sent t o :: .resume t :: sends t outcomes := rfl
        rw [hhead, hevents, Queue.execAll, List.foldlM_cons, hsent, Option.bind_eq_bind, Option.bind_some,
          List.foldlM_cons, hresume, Option.bind_eq_bind, Option.bind_some]
        exact hrun
      · rw [hdone, hremoved, hpop, List.append_assoc, List.singleton_append]
      · rw [hreturned, hpop, List.length_cons, Nat.add_assoc, Nat.add_comm 1]
        rfl

def Drainable (q : Queue V) : Prop :=
  ∀ t outcomes, outcomes.length = q.ops.length → (∀ o ∈ outcomes, stillOffline o = false) →
    ∃ q', q.execAll (.drain t :: sends t outcomes) = some q' ∧ q'.ops = [] ∧
      q'.removed = q.removed ++ q.ops ∧ q'.draining = false ∧ q'.drains t = none ∧
      q'.returned = q.returned ++ [(t, q.ops.length)]

theorem Owned.drainable (h : Owned q) (hidle : ∀ t, q.drains t = none) : Drainable q := by
  intro t outcomes hlength hanswer
  have hflag : ¬q.draining = true := by
    intro hflag
    obtain ⟨t', p, hp⟩ := h hflag
    rw [hidle t'] at hp
    cases hp
  have hstart : q.exec (.drain t) = some (loopHead { q with draining := true } t 0) := by
    rw [Queue.exec, hidle t]
    simp only [startDrain, if_neg hflag]
  obtain ⟨q', hrun, hempty, hdone, hclear, hgone, hreturned⟩ :=
    execAll_sends (q := { q with draining := true }) (t := t) 0 hlength hanswer
  refine ⟨q', ?_, hempty, hdone, hclear, hgone, by simpa using hreturned⟩
  rw [Queue.execAll, List.foldlM_cons, hstart]
  exact hrun

-- The writes removed are the first ones pushed, in their order and each once, and the
-- node has answered each. Where no drain was dropped, one that runs alone and finds the
-- node empties the queue.
theorem queue_drains (h : Leads Step Anything (Queue.new : Queue V) q) :
    (q.pushed = q.removed ++ q.ops ∧ q.pushed.Pairwise (fun a b => a.call < b.call) ∧
      ∀ op ∈ q.removed, op ∈ q.answered) ∧
    (Leads Step Undropped (Queue.new : Queue V) q → (∀ t, q.drains t = none) → Drainable q) := by
  have horderly : Orderly q := h.invariant orderly_new fun _ _ _ hs _ hstep => hs.step hstep
  refine ⟨⟨horderly.line, ?_, horderly.removed⟩, fun hrun hidle => ?_⟩
  · rw [List.pairwise_iff_getElem]
    intro i j hi hj hij
    rw [horderly.numbered i _ (List.getElem?_eq_getElem hi), horderly.numbered j _ (List.getElem?_eq_getElem hj)]
    exact hij
  · have howned : Owned q := hrun.invariant nofun fun _ _ _ hs hkept hstep => hs.step hkept hstep
    exact howned.drainable hidle

def undropped (q : Queue V) : Event V → Bool
  | .drop t => (q.drains t).isNone
  | _ => true

theorem undropped_iff {e : Event V} : undropped q e = true ↔ Undropped q e := by
  cases e with
  | drop t => exact Option.isNone_iff_eq_none
  | push tenant structHash payload => exact ⟨fun _ => trivial, fun _ => rfl⟩
  | drain t => exact ⟨fun _ => trivial, fun _ => rfl⟩
  | sent t outcome => exact ⟨fun _ => trivial, fun _ => rfl⟩
  | resume t => exact ⟨fun _ => trivial, fun _ => rfl⟩

def waitingEvents : List (Event Nat) := [.push 1 7 5, .drain 0, .sent 0 (.faulted false), .resume 0]

theorem queue_drains_waiting :
    ∃ q, Leads Step Undropped (Queue.new : Queue Nat) q ∧ q.ops.length = 1 ∧ Drainable q := by
  obtain ⟨q, hq⟩ : ∃ q, execAll Queue.exec undropped Queue.new waitingEvents = some q := ⟨_, rfl⟩
  have hkept : Leads Step Undropped Queue.new q :=
    Leads.execAll (fun _ _ _ _ h => h) (fun _ _ => undropped_iff.mp) .start hq
  have hrun : Leads Step Anything Queue.new q :=
    Leads.execAll (fun _ _ _ _ h => h) (fun _ _ _ => trivial) .start hq
  have hidle : ∀ t, q.drains t = none := by
    cases hq
    intro t
    cases t with
    | zero => rfl
    | succ t => rfl
  refine ⟨q, hkept, ?_, (queue_drains hrun).2 hkept hidle⟩
  cases hq
  rfl

structure Stuck (q : Queue V) : Prop where
  flagged : q.draining = true
  idle : ∀ t, q.drains t = none

theorem Stuck.step (h : Stuck q) {e : Event V} (hstep : Step q e q') :
    Stuck q' ∧ ∃ more, q'.ops = q.ops ++ more := by
  have hnone : ∀ t p, q.drains t ≠ some p := fun t p => by simp [h.idle t]
  obtain ⟨tenant, structHash, payload, -, rfl⟩ | ⟨t, -, -, rfl⟩ | ⟨t, p, outcome, -, hp, -⟩ |
    ⟨t, p, outcome, -, hp, -, -⟩ | ⟨t, p, -, hp, -⟩ := step_cases hstep
  · exact ⟨⟨h.flagged, h.idle⟩, _, rfl⟩
  · rw [startDrain, if_pos h.flagged]
    exact ⟨⟨h.flagged, h.idle⟩, [], (List.append_nil _).symm⟩
  · exact absurd hp (hnone t p)
  · exact absurd hp (hnone t p)
  · exact absurd hp (hnone t p)

-- The first drain is dropped in its send. No drain runs, and no run from
-- there removes the write.
theorem dropped_drain_sticks :
    ∃ q, Leads Step Anything (Queue.new : Queue Nat) q ∧ (∀ t, q.drains t = none) ∧
      ∀ q', Leads Step Anything q q' → ⟨1, 7, 5, 0⟩ ∈ q'.ops := by
  obtain ⟨q, hq⟩ : ∃ q, execAll Queue.exec (fun _ _ => true) Queue.new
      [Event.push 1 7 5, .drain 0, .drop 0] = some q := ⟨_, rfl⟩
  have hrun : Leads Step Anything Queue.new q :=
    Leads.execAll (fun _ _ _ _ h => h) (fun _ _ _ => trivial) .start hq
  have hidle : ∀ t, q.drains t = none := by
    cases hq
    intro t
    cases t with
    | zero => rfl
    | succ t => rfl
  have hstart : Stuck q ∧ ⟨1, 7, 5, 0⟩ ∈ q.ops := by
    refine ⟨⟨?_, hidle⟩, ?_⟩
    · cases hq
      rfl
    · cases hq
      exact List.mem_cons_self
  have hstep : ∀ s e s', (Stuck s ∧ ⟨1, 7, 5, 0⟩ ∈ s.ops) → Anything s e → Step s e s' →
      Stuck s' ∧ ⟨1, 7, 5, 0⟩ ∈ s'.ops := by
    intro s e s' ⟨hstuck, hmem⟩ _ hs
    obtain ⟨hstuck', more, hmore⟩ := hstuck.step hs
    exact ⟨hstuck', hmore ▸ List.mem_append_left _ hmem⟩
  exact ⟨q, hrun, hidle, fun q' hq' => (hq'.invariant hstart hstep).2⟩

end Runs

end WaveDb.Client.Drains
