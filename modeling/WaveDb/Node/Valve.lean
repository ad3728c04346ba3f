import Mathlib

-- The disk actor: two queues, and the valve that says which of them is served.
namespace WaveDb.Node

inductive Class
  | read
  | maintenance
  deriving DecidableEq, Repr

structure Available where
  reads : Bool
  maintenance : Bool
  deriving DecidableEq, Repr

structure Priority where
  lowWater : UInt64
  highWater : UInt64
  readsPerMaintenance : UInt32
  readsSince : UInt32
  deriving DecidableEq, Repr

namespace Priority

def new (low high : UInt64) (readsPerMaintenance : UInt32) : Priority :=
  ⟨low, if high < low then low else high, readsPerMaintenance, 0⟩

def serveRead (p : Priority) : Class × Priority :=
  (.read, { p with readsSince := if p.readsSince = 0xFFFFFFFF then p.readsSince else p.readsSince + 1 })

def serveMaintenance (p : Priority) : Class × Priority := (.maintenance, { p with readsSince := 0 })

def next (p : Priority) (avail : Available) (unsettled : UInt64) : Option Class × Priority :=
  let serve (served : Class × Priority) : Option Class × Priority := (some served.1, served.2)
  match avail.reads, avail.maintenance with
  | false, false => (none, p)
  | true, false => serve p.serveRead
  | false, true => serve p.serveMaintenance
  | true, true =>
    if p.highWater ≤ unsettled then serve p.serveMaintenance
    else if unsettled < p.lowWater ∨ p.readsSince < p.readsPerMaintenance then serve p.serveRead
    else serve p.serveMaintenance

-- The marks and the ratio never change, and the marks are in order.
structure Marked (low high : UInt64) (ratio : UInt32) (p : Priority) : Prop where
  low_eq : p.lowWater = low
  high_eq : p.highWater = if high < low then low else high
  ratio_eq : p.readsPerMaintenance = ratio

variable {low high unsettled : UInt64} {ratio : UInt32} {p : Priority} {avail : Available}

theorem marked_new (low high : UInt64) (ratio : UInt32) : (new low high ratio).Marked low high ratio :=
  ⟨rfl, rfl, rfl⟩

theorem Marked.lowWater_le (h : p.Marked low high ratio) : p.lowWater ≤ p.highWater := by
  rw [h.low_eq, h.high_eq]
  split
  · exact UInt64.le_refl low
  · exact UInt64.not_lt.mp ‹_›

theorem next_cases (p : Priority) (avail : Available) (unsettled : UInt64) :
    (p.next avail unsettled = (none, p) ∧ avail.reads = false ∧ avail.maintenance = false) ∨
    (p.next avail unsettled = (some .read, p.serveRead.2) ∧ avail.reads = true ∧
      (avail.maintenance = true →
        unsettled < p.highWater ∧ (unsettled < p.lowWater ∨ p.readsSince < p.readsPerMaintenance))) ∨
    (p.next avail unsettled = (some .maintenance, p.serveMaintenance.2) ∧ avail.maintenance = true ∧
      (avail.reads = true →
        p.highWater ≤ unsettled ∨ p.lowWater ≤ unsettled ∧ p.readsPerMaintenance ≤ p.readsSince)) := by
  obtain ⟨reads, maintenance⟩ := avail
  cases reads <;> cases maintenance
  · exact .inl ⟨rfl, rfl, rfl⟩
  · exact .inr (.inr ⟨rfl, rfl, nofun⟩)
  · exact .inr (.inl ⟨rfl, rfl, nofun⟩)
  · simp only [next, true_and, forall_const]
    split
    · rename_i hhigh
      exact .inr (.inr ⟨rfl, .inl hhigh⟩)
    · rename_i hhigh
      split
      · rename_i hor
        exact .inr (.inl ⟨rfl, UInt64.not_le.mp hhigh, hor⟩)
      · rename_i hor
        obtain ⟨hlow, hratio⟩ := not_or.mp hor
        exact .inr (.inr ⟨rfl, .inr ⟨UInt64.not_lt.mp hlow, UInt32.not_lt.mp hratio⟩⟩)

theorem Marked.next (h : p.Marked low high ratio) (avail : Available) (unsettled : UInt64) :
    (p.next avail unsettled).2.Marked low high ratio := by
  rcases next_cases p avail unsettled with ⟨hnext, -⟩ | ⟨hnext, -⟩ | ⟨hnext, -⟩
  · rw [hnext]
    exact h
  · rw [hnext]
    exact ⟨h.low_eq, h.high_eq, h.ratio_eq⟩
  · rw [hnext]
    exact ⟨h.low_eq, h.high_eq, h.ratio_eq⟩

theorem readsSince_serveRead (h : p.readsSince < p.readsPerMaintenance) :
    p.serveRead.2.readsSince.toNat = p.readsSince.toNat + 1 := by
  have hlt : p.readsSince.toNat < p.readsPerMaintenance.toNat := UInt32.lt_iff_toNat_lt.mp h
  have hmax := p.readsPerMaintenance.toNat_lt
  have hne : p.readsSince ≠ 0xFFFFFFFF := by
    intro heq
    rw [heq] at hlt
    have hval : (0xFFFFFFFF : UInt32).toNat = 4294967295 := rfl
    omega
  simp only [serveRead, if_neg hne, UInt32.toNat_add]
  have hone : (1 : UInt32).toNat = 1 := rfl
  omega

structure Call where
  avail : Available
  unsettled : UInt64
  answer : Option Class
  deriving DecidableEq, Repr

def Calls : Priority → List Call → Priority → Prop
  | p, [], q => p = q
  | p, c :: calls, q => ∃ r, p.next c.avail c.unsettled = (c.answer, r) ∧ Calls r calls q

theorem Calls.marked {calls : List Call} {q : Priority} (h : p.Calls calls q)
    (hp : p.Marked low high ratio) : q.Marked low high ratio := by
  induction calls generalizing p with
  | nil => exact (show p = q from h) ▸ hp
  | cons c calls ih =>
    obtain ⟨r, hnext, hrest⟩ := h
    have hr := hp.next c.avail c.unsettled
    rw [hnext] at hr
    exact ih hrest hr

theorem calls_append {before after : List Call} {q : Priority} (h : p.Calls (before ++ after) q) :
    ∃ r, p.Calls before r ∧ r.Calls after q := by
  induction before generalizing p with
  | nil => exact ⟨p, rfl, h⟩
  | cons c before ih =>
    obtain ⟨r, hnext, hrest⟩ := h
    obtain ⟨t, hbefore, hafter⟩ := ih hrest
    exact ⟨t, ⟨r, hnext, hbefore⟩, hafter⟩

structure Call.Served (low high : UInt64) (c : Call) : Prop where
  idle : c.answer = none → c.avail.reads = false ∧ c.avail.maintenance = false
  read : c.answer = some .read → c.avail.reads = true
  maintenance : c.answer = some .maintenance → c.avail.maintenance = true
  atOnce : c.avail.maintenance = true → (if high < low then low else high) ≤ c.unsettled →
    c.answer = some .maintenance
  readFirst : c.avail.reads = true → c.unsettled < low → c.answer = some .read

-- A read that is served while maintenance is queued and the journal is at or
-- above the low mark.
structure Call.Passed (low : UInt64) (c : Call) : Prop where
  queued : c.avail.maintenance = true
  above : low ≤ c.unsettled
  read : c.answer = some .read

theorem Marked.served (hp : p.Marked low high ratio) {c : Call} {q : Priority}
    (h : p.next c.avail c.unsettled = (c.answer, q)) : c.Served low high := by
  have hmarks := hp.lowWater_le
  rcases next_cases p c.avail c.unsettled with ⟨hnext, hr, hm⟩ | ⟨hnext, hr, hm⟩ | ⟨hnext, hm, hr⟩
  · have hans : c.answer = none := (Prod.mk.inj (h.symm.trans hnext)).1
    refine ⟨fun _ => ⟨hr, hm⟩, ?_, ?_, ?_, ?_⟩
    · exact fun heq => nomatch hans.symm.trans heq
    · exact fun heq => nomatch hans.symm.trans heq
    · exact fun hq => nomatch hm.symm.trans hq
    · exact fun hq => nomatch hr.symm.trans hq
  · have hans : c.answer = some .read := (Prod.mk.inj (h.symm.trans hnext)).1
    refine ⟨?_, fun _ => hr, ?_, fun hq hge => ?_, fun _ _ => hans⟩
    · exact fun heq => nomatch hans.symm.trans heq
    · exact fun heq => nomatch hans.symm.trans heq
    · rw [← hp.high_eq] at hge
      exact absurd (hm hq).1 (UInt64.not_lt.mpr hge)
  · have hans : c.answer = some .maintenance := (Prod.mk.inj (h.symm.trans hnext)).1
    refine ⟨?_, ?_, fun _ => hm, fun _ _ => hans, fun hq hlt => ?_⟩
    · exact fun heq => nomatch hans.symm.trans heq
    · exact fun heq => nomatch hans.symm.trans heq
    · have hlow : ¬p.lowWater ≤ c.unsettled := by
        rw [hp.low_eq]
        exact UInt64.not_le.mpr hlt
      rcases hr hq with hhigh | ⟨hle, -⟩
      · exact absurd (UInt64.le_trans hmarks hhigh) hlow
      · exact absurd hle hlow

-- The counter was below the ratio at each of the reads, so it has counted them
-- all.
theorem Marked.window_le (hp : p.Marked low high ratio) {window : List Call} {q : Priority}
    (h : p.Calls window q) (hpassed : ∀ c ∈ window, c.Passed low) (hne : window ≠ []) :
    p.readsSince.toNat + window.length ≤ ratio.toNat := by
  induction window generalizing p with
  | nil => exact absurd rfl hne
  | cons c window ih =>
    obtain ⟨r, hnext, hrest⟩ := h
    have hc := hpassed c List.mem_cons_self
    have hread : r = p.serveRead.2 ∧ p.readsSince < p.readsPerMaintenance := by
      rcases next_cases p c.avail c.unsettled with ⟨hcase, -⟩ | ⟨hcase, -, hm⟩ | ⟨hcase, -⟩
      · exact nomatch hc.read.symm.trans (Prod.mk.inj (hnext.symm.trans hcase)).1
      · refine ⟨(Prod.mk.inj (hnext.symm.trans hcase)).2, (hm hc.queued).2.resolve_left ?_⟩
        rw [hp.low_eq]
        exact UInt64.not_lt.mpr hc.above
      · exact nomatch hc.read.symm.trans (Prod.mk.inj (hnext.symm.trans hcase)).1
    obtain ⟨rfl, hlt⟩ := hread
    have hcount := readsSince_serveRead hlt
    have hratio : p.readsSince.toNat < ratio.toNat := hp.ratio_eq ▸ UInt32.lt_iff_toNat_lt.mp hlt
    cases window with
    | nil =>
      rw [List.length_singleton]
      omega
    | cons c' window =>
      have hmarked : p.serveRead.2.Marked low high ratio := ⟨hp.low_eq, hp.high_eq, hp.ratio_eq⟩
      have hrec := ih hmarked hrest (fun d hd => hpassed d (List.mem_cons_of_mem _ hd))
        (List.cons_ne_nil _ _)
      rw [List.length_cons]
      omega

structure Bounded (low high : UInt64) (ratio : UInt32) (calls : List Call) : Prop where
  served : ∀ c ∈ calls, c.Served low high
  window : ∀ before window after, calls = before ++ (window ++ after) →
    (∀ c ∈ window, c.Passed low) → window.length ≤ ratio.toNat

theorem Marked.all_served (hp : p.Marked low high ratio) {calls : List Call} {q : Priority}
    (h : p.Calls calls q) : ∀ c ∈ calls, c.Served low high := by
  induction calls generalizing p with
  | nil => exact nofun
  | cons c calls ih =>
    obtain ⟨r, hnext, hrest⟩ := h
    have hr := hp.next c.avail c.unsettled
    rw [hnext] at hr
    exact List.forall_mem_cons.mpr ⟨hp.served hnext, ih hr hrest⟩

theorem bounded_of_calls {calls : List Call} {q : Priority}
    (h : (new low high ratio).Calls calls q) : Bounded low high ratio calls := by
  refine ⟨(marked_new low high ratio).all_served h, ?_⟩
  rintro before window after rfl hpassed
  obtain ⟨r, hbefore, hrest⟩ := calls_append h
  obtain ⟨t, hwindow, -⟩ := calls_append hrest
  rcases eq_or_ne window [] with rfl | hne
  · exact Nat.zero_le _
  · have hle := (hbefore.marked (marked_new low high ratio)).window_le hwindow hpassed hne
    omega

end Priority

section Actor

variable {σ R M : Type}

-- What the actor has: its engine, the valve, a settle it owes itself, and what
-- is in the two channels. It waits once both were seen empty.
structure Actor (σ R M : Type) where
  store : σ
  priority : Priority
  settling : Bool
  waiting : Bool
  stopped : Bool
  requests : List R
  maintenance : List M

inductive Served (R M : Type)
  | request (r : R)
  | settle
  | work (m : M)
  | nothing

structure Look (R M : Type) extends Priority.Call where
  served : Served R M

structure Disk (σ R M : Type) where
  journalLen : σ → UInt64
  serve : σ → R → σ
  isShutdown : R → Bool
  maintain : σ → M → Bool × σ
  settleStep : σ → Bool × σ

namespace Actor

variable (disk : Disk σ R M) (a : Actor σ R M)

def start (store : σ) (low high : UInt64) (readsPerMaintenance : UInt32) : Actor σ R M :=
  ⟨store, Priority.new low high readsPerMaintenance, false, false, false, [], []⟩

def avail : Available := ⟨!a.requests.isEmpty, a.settling || !a.maintenance.isEmpty⟩

-- The engine goes with a shutdown, and nothing is served after it.
def serve (r : R) (rest : List R) : Actor σ R M :=
  { a with store := disk.serve a.store r, requests := rest, waiting := false, stopped := disk.isShutdown r }

def maintain (m : M) (rest : List M) : Actor σ R M :=
  let (more, store) := disk.maintain a.store m
  { a with store, settling := more, maintenance := rest, waiting := false }

def look : Look R M × Actor σ R M :=
  let unsettled := disk.journalLen a.store
  let (answer, priority) := a.priority.next a.avail unsettled
  let b := { a with priority }
  match answer with
  | some .read =>
    match a.requests with
    | r :: rest => (⟨⟨a.avail, unsettled, answer⟩, .request r⟩, b.serve disk r rest)
    | [] => (⟨⟨a.avail, unsettled, answer⟩, .nothing⟩, b)
  | some .maintenance =>
    if a.settling then
      let (more, store) := disk.settleStep a.store
      (⟨⟨a.avail, unsettled, answer⟩, .settle⟩, { b with store, settling := more })
    else
      match a.maintenance with
      | m :: rest => (⟨⟨a.avail, unsettled, answer⟩, .work m⟩, b.maintain disk m rest)
      | [] => (⟨⟨a.avail, unsettled, answer⟩, .nothing⟩, b)
  | none => (⟨⟨a.avail, unsettled, answer⟩, .nothing⟩, { b with waiting := true })

end Actor

-- The loop, and what the senders do at any time. A waiting actor takes what
-- comes, from either channel; the valve is not asked for that.
inductive Actor.Step (disk : Disk σ R M) : Actor σ R M → Option (Look R M) → Actor σ R M → Prop
  | sent (a : Actor σ R M) (r : R) : Step disk a none { a with requests := a.requests ++ [r] }
  | hinted (a : Actor σ R M) (m : M) : Step disk a none { a with maintenance := a.maintenance ++ [m] }
  | looked (a : Actor σ R M) (hstopped : a.stopped = false) (hwaiting : a.waiting = false) :
      Step disk a (some (a.look disk).1) (a.look disk).2
  | tookRequest (a : Actor σ R M) {r : R} {rest : List R} (hstopped : a.stopped = false)
      (hwaiting : a.waiting = true) (hqueue : a.requests = r :: rest) :
      Step disk a none (a.serve disk r rest)
  | tookWork (a : Actor σ R M) {m : M} {rest : List M} (hstopped : a.stopped = false)
      (hwaiting : a.waiting = true) (hqueue : a.maintenance = m :: rest) :
      Step disk a none (a.maintain disk m rest)

inductive Actor.Run (disk : Disk σ R M) : Actor σ R M → List (Look R M) → Actor σ R M → Prop
  | refl (a : Actor σ R M) : Run disk a [] a
  | step {a b c : Actor σ R M} {seen : Option (Look R M)} {looks : List (Look R M)}
      (first : Actor.Step disk a seen b) (rest : Run disk b looks c) :
      Run disk a (seen.toList ++ looks) c

namespace Actor

variable {disk : Disk σ R M} {a b c : Actor σ R M} {looks : List (Look R M)} {low high : UInt64}
  {ratio : UInt32}

structure Heard (disk : Disk σ R M) (a : Actor σ R M) (l : Look R M) (b : Actor σ R M) : Prop where
  avail : l.avail = a.avail
  unsettled : l.unsettled = disk.journalLen a.store
  next : a.priority.next l.avail l.unsettled = (l.answer, b.priority)
  read : l.answer = some .read → ∃ r ∈ a.requests, l.served = .request r
  work : l.answer = some .maintenance →
    (a.settling = true ∧ l.served = .settle) ∨ ∃ m ∈ a.maintenance, l.served = .work m

theorem heard_look (disk : Disk σ R M) (a : Actor σ R M) : Heard disk a (a.look disk).1 (a.look disk).2 := by
  rcases Priority.next_cases a.priority a.avail (disk.journalLen a.store) with
    ⟨hnext, -, -⟩ | ⟨hnext, hreads, -⟩ | ⟨hnext, hwork, -⟩
  · simp only [look, hnext]
    exact ⟨rfl, rfl, hnext, nofun, nofun⟩
  · cases hq : a.requests with
    | nil => simp [avail, hq] at hreads
    | cons r rest =>
      simp only [look, hnext, hq]
      exact ⟨rfl, rfl, hnext, fun _ => ⟨r, hq ▸ List.mem_cons_self, rfl⟩, nofun⟩
  · cases hs : a.settling with
    | true =>
      simp only [look, hnext, hs, if_true]
      exact ⟨rfl, rfl, hnext, nofun, fun _ => .inl ⟨hs, rfl⟩⟩
    | false =>
      cases hq : a.maintenance with
      | nil => simp [avail, hs, hq] at hwork
      | cons m rest =>
        simp only [look, hnext, hs, hq]
        exact ⟨rfl, rfl, hnext, nofun, fun _ => .inr ⟨m, hq ▸ List.mem_cons_self, rfl⟩⟩

theorem Step.cases {seen : Option (Look R M)} (h : Actor.Step disk a seen b) :
    (seen = none ∧ b.priority = a.priority) ∨ ∃ l, seen = some l ∧ Heard disk a l b := by
  cases h with
  | sent r => exact .inl ⟨rfl, rfl⟩
  | hinted m => exact .inl ⟨rfl, rfl⟩
  | looked _ _ => exact .inr ⟨_, rfl, heard_look disk a⟩
  | tookRequest _ _ _ => exact .inl ⟨rfl, rfl⟩
  | tookWork _ _ _ => exact .inl ⟨rfl, rfl⟩

theorem Run.calls (h : Actor.Run disk a looks b) :
    a.priority.Calls (looks.map Look.toCall) b.priority := by
  induction h with
  | refl a => rfl
  | step first _ ih =>
    rcases first.cases with ⟨rfl, hsame⟩ | ⟨l, rfl, hheard⟩
    · rw [hsame] at ih
      exact ih
    · exact ⟨_, hheard.next, ih⟩

theorem Run.heard (h : Actor.Run disk a looks b) :
    ∀ l ∈ looks, ∃ c d before, Actor.Run disk a before c ∧ Heard disk c l d := by
  induction h with
  | refl a => exact nofun
  | @step a b c seen looks first _ ih =>
    intro l hl
    rcases List.mem_append.mp hl with hseen | hl
    · rcases first.cases with ⟨rfl, -⟩ | ⟨l', rfl, hheard⟩
      · exact nomatch hseen
      · obtain rfl := List.mem_singleton.mp hseen
        exact ⟨a, b, [], .refl a, hheard⟩
    · obtain ⟨c', d, before, hrun, hheard⟩ := ih l hl
      exact ⟨c', d, seen.toList ++ before, .step first hrun, hheard⟩

-- The valve keeps its bounds through every history, and the actor does what the valve
-- says.
theorem valve_bounds_waiting (disk : Disk σ R M) (store : σ) (low high : UInt64) (ratio : UInt32) :
    (∀ calls q, (Priority.new low high ratio).Calls calls q → Priority.Bounded low high ratio calls) ∧
    ∀ looks b, Actor.Run disk (.start store low high ratio) looks b →
      Priority.Bounded low high ratio (looks.map Look.toCall) ∧
      ∀ l ∈ looks, ∃ c d before, Actor.Run disk (.start store low high ratio) before c ∧
        Heard disk c l d :=
  ⟨fun _ _ h => Priority.bounded_of_calls h,
    fun _ _ h => ⟨Priority.bounded_of_calls h.calls, h.heard⟩⟩

-- Two reads pass a queued settle in the band, and it comes third.
theorem valve_bounds_waiting_sample : Priority.Bounded 8 64 2
    [⟨⟨true, true⟩, 20, some .read⟩, ⟨⟨true, true⟩, 21, some .read⟩,
      ⟨⟨true, true⟩, 22, some .maintenance⟩, ⟨⟨true, true⟩, 5, some .read⟩] :=
  (valve_bounds_waiting (⟨fun _ => 0, fun s _ => s, fun _ => false, fun s _ => (false, s),
    fun s => (false, s)⟩ : Disk Unit Unit Unit) () 8 64 2).1 _ _
    ⟨_, rfl, _, rfl, _, rfl, _, rfl, rfl⟩

end Actor

end Actor

end WaveDb.Node
