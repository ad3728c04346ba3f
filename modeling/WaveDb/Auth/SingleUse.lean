import WaveDb.Auth.Session

-- A refresh token is good for one pair as long as no other call gets between the read
-- and the save of a call.
namespace WaveDb.Auth

open WaveDb.Lib

section Definitions

-- A call saves the session it has read, and the counter of the tokens has not come
-- round.
def Undivided (s : Node) : Progress → Prop
  | .save (.issue _) _ _ _ _ => True
  | .save _ id seen _ _ => s.sessions id = some seen
  | .body _ => s.signings < 2 ^ 64
  | _ => True

def Serial (s : Node) : Action → Prop
  | .operate i => ∀ p, s.calls i = some p → Undivided s p
  | .fault i true => ∀ p, s.calls i = some p → Undivided s p
  | _ => True

structure Minted (s : Node) (session : Nat) (token : Token) : Prop where
  signed : ∃ claims, token = .signed claims ∧ claims.session = session ∧ claims.nonce < s.signings
  kept : token ∉ s.issued

def Task.Held (s : Node) : Task → Prop
  | .issue _ => True
  | .refresh token claims => token = .signed claims ∧ token ∈ s.issued
  | .revoke claims => .signed claims ∈ s.issued

def AuthSession.kill (session : AuthSession) : AuthSession := { session with revoked := true }

def AuthSession.rotate (session : AuthSession) (token : Token) : AuthSession :=
  { session with refreshHash := some token }

inductive Saves (s : Node) : Progress → Prop
  | issue {user id : Nat} {seen value : AuthSession} {pair : TokenPair} (minted : Minted s id pair.refresh)
      (hash : value.refreshHash = some pair.refresh) (live : value.revoked = false)
      (opened : (s.sessions id).isSome) (alone : ∀ claims, .signed claims ∈ s.issued → claims.session ≠ id) :
      Saves s (.save (.issue user) id seen value (.pair pair))
  | rotate {claims : AccessClaims} {seen : AuthSession} {pair : TokenPair}
      (minted : Minted s claims.session pair.refresh) (live : seen.revoked = false)
      (hash : seen.refreshHash = some (.signed claims)) (held : .signed claims ∈ s.issued) :
      Saves s (.save (.refresh (.signed claims) claims) claims.session seen (seen.rotate pair.refresh) (.pair pair))
  | replay {claims : AccessClaims} {seen : AuthSession} (held : .signed claims ∈ s.issued) :
      Saves s (.save (.refresh (.signed claims) claims) claims.session seen seen.kill .unauthorized)
  | revoke {claims : AccessClaims} {seen : AuthSession} (held : .signed claims ∈ s.issued) :
      Saves s (.save (.revoke claims) claims.session seen seen.kill .done)

def Tracks (s : Node) : Progress → Prop
  | .getAnchor task => task.Held s
  | .createPivot task => task.Held s
  | .saveAnchor task _ => task.Held s
  | .body task => task.Held s
  | .returned _ => True
  | p => Saves s p

def Progress.minted : Progress → Option Token
  | .save _ _ _ _ (.pair pair) => some pair.refresh
  | _ => none

def Progress.binding : Progress → Option Nat
  | .save (.issue _) id _ _ _ => some id
  | _ => none

def Event.token : Event → Option Token
  | .refreshed _ token => some token
  | .revoked _ => none

structure Sound (s : Node) : Prop where
  nonces : ∀ claims, .signed claims ∈ s.issued → claims.nonce < s.signings
  opened : ∀ claims, .signed claims ∈ s.issued → (s.sessions claims.session).isSome
  tracks : ∀ i p, s.calls i = some p → Tracks s p
  unstarted : ∀ i, s.started ≤ i → s.calls i = none
  apart : ∀ i j p q token, s.calls i = some p → s.calls j = some q → p.minted = some token →
    q.minted = some token → i = j
  bindings : ∀ i j p q id, s.calls i = some p → s.calls j = some q → p.binding = some id →
    q.binding = some id → i = j
  used : ∀ session token, .refreshed session token ∈ s.history → token ∈ s.issued ∧
    (∃ claims, token = .signed claims ∧ claims.session = session) ∧
    ∀ a, s.sessions session = some a → a.refreshHash ≠ some token
  killed : ∀ session, .revoked session ∈ s.history →
    (∃ claims, .signed claims ∈ s.issued ∧ claims.session = session) ∧
    ∃ a, s.sessions session = some a ∧ a.revoked = true
  once : (s.history.filterMap Event.token).Nodup
  after : s.history.Pairwise fun a b => ∀ session token, a = .revoked session → b ≠ .refreshed session token

theorem sound_new (tenant : Nat) : Sound (Node.new tenant) where
  nonces _ hmem := nomatch hmem
  opened _ hmem := nomatch hmem
  tracks _ _ hp := nomatch hp
  unstarted _ _ := rfl
  apart _ _ _ _ _ hp := nomatch hp
  bindings _ _ _ _ _ hp := nomatch hp
  used _ _ hmem := nomatch hmem
  killed _ hmem := nomatch hmem
  once := .nil
  after := .nil

end Definitions

variable {s s' : Node} {i id : Nat} {p q : Progress} {token : Token}

section Calls

theorem calls_setCall {j : Nat} : (s.setCall i p).calls j = if j = i then some p else s.calls j := by
  by_cases hj : j = i
  · subst hj
    simp [Node.setCall]
  · simp [Node.setCall, hj]

theorem Tracks.carry (h : Tracks s q) (hissued : ∀ t ∈ s.issued, t ∈ s'.issued)
    (hsignings : s.signings ≤ s'.signings) (hminted : ∀ t, q.minted = some t → t ∉ s'.issued)
    (hbinding : ∀ id, q.binding = some id → (s'.sessions id).isSome ∧
      ∀ claims, .signed claims ∈ s'.issued → claims.session ≠ id) : Tracks s' q := by
  have htask : ∀ task : Task, task.Held s → task.Held s' := by
    intro task htask
    cases task with
    | issue user => trivial
    | refresh token claims => exact ⟨htask.1, hissued _ htask.2⟩
    | revoke claims => exact hissued _ htask
  have hkept : ∀ session token, Minted s session token → token ∉ s'.issued → Minted s' session token := by
    intro session token hm hnot
    obtain ⟨claims, hsigned, hsession, hnonce⟩ := hm.signed
    exact ⟨⟨claims, hsigned, hsession, hnonce.trans_le hsignings⟩, hnot⟩
  cases q with
  | getAnchor task => exact htask task h
  | createPivot task => exact htask task h
  | saveAnchor task pivot => exact htask task h
  | body task => exact htask task h
  | returned reply => trivial
  | save task id seen value reply =>
    cases h with
    | issue hm hhash hlive hopened halone =>
      obtain ⟨hopened', halone'⟩ := hbinding id rfl
      exact .issue (hkept _ _ hm (hminted _ rfl)) hhash hlive hopened' halone'
    | rotate hm hlive hhash hheld =>
      exact .rotate (hkept _ _ hm (hminted _ rfl)) hlive hhash (hissued _ hheld)
    | replay hheld => exact .replay (hissued _ hheld)
    | revoke hheld => exact .revoke (hissued _ hheld)

theorem Tracks.minted_kept (h : Tracks s q) (ht : q.minted = some token) : token ∉ s.issued := by
  cases q with
  | getAnchor task => cases ht
  | createPivot task => cases ht
  | saveAnchor task pivot => cases ht
  | body task => cases ht
  | returned reply => cases ht
  | save task id seen value reply =>
    cases h with
    | issue hm => exact Option.some.inj ht ▸ hm.kept
    | rotate hm => exact Option.some.inj ht ▸ hm.kept
    | replay => cases ht
    | revoke => cases ht

theorem Tracks.binding_alone (h : Tracks s q) (hid : q.binding = some id) :
    (s.sessions id).isSome ∧ ∀ claims, .signed claims ∈ s.issued → claims.session ≠ id := by
  cases q with
  | getAnchor task => cases hid
  | createPivot task => cases hid
  | saveAnchor task pivot => cases hid
  | body task => cases hid
  | returned reply => cases hid
  | save task session seen value reply =>
    cases h with
    | issue hm hhash hlive hopened halone => exact Option.some.inj hid ▸ ⟨hopened, halone⟩
    | rotate => cases hid
    | replay => cases hid
    | revoke => cases hid

theorem Tracks.setCall (h : Tracks s q) : Tracks (s.setCall i p) q :=
  h.carry (fun _ ht => ht) le_rfl (fun _ ht => h.minted_kept ht) fun _ hid => h.binding_alone hid

theorem Sound.setCall (h : Sound s) (hi : i < s.started) (htracks : Tracks s p)
    (hminted : ∀ token, p.minted = some token → ∀ j q, j ≠ i → s.calls j = some q → q.minted ≠ some token)
    (hbinding : ∀ id, p.binding = some id → ∀ j q, j ≠ i → s.calls j = some q → q.binding ≠ some id) :
    Sound (s.setCall i p) := by
  refine ⟨h.nonces, h.opened, fun j q hq => ?_, fun j hj => ?_, fun j k q r token hq hr hqt hrt => ?_,
    fun j k q r id hq hr hqi hri => ?_, h.used, h.killed, h.once, h.after⟩
  · rw [calls_setCall] at hq
    split at hq
    · cases hq
      exact htracks.setCall
    · exact (h.tracks j q hq).setCall
  · rw [calls_setCall, if_neg (by have : s.started ≤ j := hj; omega)]
    exact h.unstarted j hj
  · rw [calls_setCall] at hq hr
    split at hq <;> split at hr
    · rename_i hj hk
      rw [hj, hk]
    · rename_i hj hk
      cases hq
      exact absurd hrt (hminted token hqt k r hk hr)
    · rename_i hj hk
      cases hr
      exact absurd hqt (hminted token hrt j q hj hq)
    · exact h.apart j k q r token hq hr hqt hrt
  · rw [calls_setCall] at hq hr
    split at hq <;> split at hr
    · rename_i hj hk
      rw [hj, hk]
    · rename_i hj hk
      cases hq
      exact absurd hri (hbinding id hqi k r hk hr)
    · rename_i hj hk
      cases hr
      exact absurd hqi (hbinding id hri j q hj hq)
    · exact h.bindings j k q r id hq hr hqi hri

theorem Sound.setCall_plain (h : Sound s) (hi : i < s.started) (htracks : Tracks s p)
    (hminted : p.minted = none) (hbinding : p.binding = none) : Sound (s.setCall i p) :=
  h.setCall hi htracks (fun _ ht => nomatch hminted.symm.trans ht) fun _ hb => nomatch hbinding.symm.trans hb

theorem Sound.started_of (h : Sound s) (hp : s.calls i = some p) : i < s.started := by
  by_contra hnot
  have hnone := h.unstarted i (Nat.le_of_not_lt hnot)
  cases hnone.symm.trans hp

end Calls

section Parts

variable {value : AuthSession}

theorem sessions_writes {session : Nat} : (s.writes id value).sessions session =
    if session = id then some value else s.sessions session := by
  by_cases hid : session = id
  · subst hid
    simp [Node.writes]
  · simp [Node.writes, hid]

theorem isSome_writes {session : Nat} (h : (s.sessions session).isSome) :
    ((s.writes id value).sessions session).isSome := by
  rw [sessions_writes]
  split
  · rfl
  · exact h

theorem mem_history_writes {e : Event} (h : e ∈ (s.writes id value).history) :
    e ∈ s.history ∨ e = .revoked id ∧ value.revoked = true := by
  rcases List.mem_append.mp h with h | h
  · exact .inl h
  · split at h
    · rename_i hrevoked
      exact .inr ⟨List.mem_singleton.mp h, hrevoked⟩
    · cases h

theorem Sound.writes (h : Sound s) (hhash : ∀ token, .refreshed id token ∈ s.history →
      value.refreshHash ≠ some token)
    (hlive : value.revoked = false → .revoked id ∉ s.history)
    (hkill : value.revoked = true → ∃ claims, .signed claims ∈ s.issued ∧ claims.session = id) :
    Sound (s.writes id value) := by
  refine ⟨h.nonces, fun claims hmem => isSome_writes (h.opened claims hmem), fun j q hq => ?_, h.unstarted,
    h.apart, h.bindings, fun session token hmem => ?_, fun session hmem => ?_, ?_, ?_⟩
  · have htracks := h.tracks j q hq
    refine htracks.carry (fun _ ht => ht) le_rfl (fun _ ht => htracks.minted_kept ht) fun id' hid' => ?_
    obtain ⟨hopened, halone⟩ := htracks.binding_alone hid'
    exact ⟨isSome_writes hopened, halone⟩
  · rcases mem_history_writes hmem with hmem | ⟨heq, -⟩
    · obtain ⟨hissued, hclaims, hcurrent⟩ := h.used session token hmem
      refine ⟨hissued, hclaims, fun a ha => ?_⟩
      rw [sessions_writes] at ha
      split at ha
      · rename_i hsession
        cases ha
        exact hhash token (hsession ▸ hmem)
      · exact hcurrent a ha
    · cases heq
  · rw [sessions_writes]
    rcases mem_history_writes hmem with hmem | ⟨heq, hrevoked⟩
    · obtain ⟨hclaims, a, ha, hdead⟩ := h.killed session hmem
      refine ⟨hclaims, ?_⟩
      split
      · rename_i hsession
        cases hvalue : value.revoked with
        | false => exact absurd (hsession ▸ hmem) (hlive hvalue)
        | true => exact ⟨value, rfl, hvalue⟩
      · exact ⟨a, ha, hdead⟩
    · cases heq
      rw [if_pos rfl]
      exact ⟨hkill hrevoked, value, rfl, hrevoked⟩
  · change ((s.history ++ if value.revoked then [Event.revoked id] else []).filterMap Event.token).Nodup
    have hnone : (if value.revoked then [Event.revoked id] else []).filterMap Event.token = [] := by
      split
      · rfl
      · rfl
    rw [List.filterMap_append, hnone, List.append_nil]
    exact h.once
  · change (s.history ++ if value.revoked then [Event.revoked id] else []).Pairwise _
    rw [List.pairwise_append]
    refine ⟨h.after, ?_, fun a _ b hb session token _ => ?_⟩
    · split
      · exact List.pairwise_singleton _ _
      · exact .nil
    · split at hb
      · rw [List.mem_singleton.mp hb]
        exact nofun
      · cases hb

theorem Sound.signs (h : Sound s) : Sound { s with signings := s.signings + 1 } := by
  refine ⟨fun claims hmem => (h.nonces claims hmem).trans (Nat.lt_succ_self _), h.opened, fun j q hq => ?_,
    h.unstarted, h.apart, h.bindings, h.used, h.killed, h.once, h.after⟩
  have htracks := h.tracks j q hq
  exact htracks.carry (fun _ ht => ht) (Nat.le_succ _) (fun _ ht => htracks.minted_kept ht)
    fun _ hid => htracks.binding_alone hid

theorem Sound.issues (h : Sound s) {claims : AccessClaims} (hnonce : claims.nonce < s.signings)
    (hopened : (s.sessions claims.session).isSome)
    (hminted : ∀ j q, s.calls j = some q → q.minted ≠ some (.signed claims))
    (hbinding : ∀ j q, s.calls j = some q → q.binding ≠ some claims.session) :
    Sound { s with issued := s.issued ++ [.signed claims] } := by
  have hmem : ∀ {claims'}, .signed claims' ∈ s.issued ++ [Token.signed claims] →
      .signed claims' ∈ s.issued ∨ claims' = claims := by
    intro claims' hmem
    rcases List.mem_append.mp hmem with hmem | hmem
    · exact .inl hmem
    · exact .inr (by simpa using hmem)
  refine ⟨fun claims' hmem' => ?_, fun claims' hmem' => ?_, fun j q hq => ?_, h.unstarted, h.apart, h.bindings,
    fun session token hrefreshed => ?_, fun session hrevoked => ?_, h.once, h.after⟩
  · rcases hmem hmem' with hold | rfl
    · exact h.nonces claims' hold
    · exact hnonce
  · rcases hmem hmem' with hold | rfl
    · exact h.opened claims' hold
    · exact hopened
  · have htracks := h.tracks j q hq
    refine htracks.carry (fun _ ht => List.mem_append_left _ ht) le_rfl (fun t ht hissued => ?_) fun id hid => ?_
    · rcases List.mem_append.mp hissued with hold | hnew
      · exact htracks.minted_kept ht hold
      · exact hminted j q hq (List.mem_singleton.mp hnew ▸ ht)
    · obtain ⟨hsome, halone⟩ := htracks.binding_alone hid
      refine ⟨hsome, fun claims' hmem' => ?_⟩
      rcases hmem hmem' with hold | rfl
      · exact halone claims' hold
      · exact fun heq => hbinding j q hq (heq ▸ hid)
  · obtain ⟨hissued, hrest⟩ := h.used session token hrefreshed
    exact ⟨List.mem_append_left _ hissued, hrest⟩
  · obtain ⟨⟨claims', hissued, hsession⟩, hdead⟩ := h.killed session hrevoked
    exact ⟨⟨claims', List.mem_append_left _ hissued, hsession⟩, hdead⟩

theorem Sound.records (h : Sound s) {claims : AccessClaims} (hissued : .signed claims ∈ s.issued)
    (hcurrent : ∀ a, s.sessions claims.session = some a → a.refreshHash ≠ some (.signed claims))
    (hfirst : .refreshed claims.session (.signed claims) ∉ s.history)
    (hlive : .revoked claims.session ∉ s.history) :
    Sound { s with history := s.history ++ [.refreshed claims.session (.signed claims)] } := by
  refine ⟨h.nonces, h.opened, fun j q hq => ?_, h.unstarted, h.apart, h.bindings, fun session token hmem => ?_,
    fun session hmem => ?_, ?_, ?_⟩
  · have htracks := h.tracks j q hq
    exact htracks.carry (fun _ ht => ht) le_rfl (fun _ ht => htracks.minted_kept ht)
      fun _ hid => htracks.binding_alone hid
  · rcases List.mem_append.mp hmem with hmem | hmem
    · exact h.used session token hmem
    · cases List.mem_singleton.mp hmem
      exact ⟨hissued, ⟨claims, rfl, rfl⟩, hcurrent⟩
  · rcases List.mem_append.mp hmem with hmem | hmem
    · exact h.killed session hmem
    · cases List.mem_singleton.mp hmem
  · rw [List.filterMap_append, List.nodup_append]
    refine ⟨h.once, by simp [Event.token], fun token hold token' hnew => ?_⟩
    have heq : token' = .signed claims := by simpa [Event.token] using hnew
    rintro rfl
    subst heq
    -- The same token can only have been recorded for its own session.
    obtain ⟨e, he, htoken⟩ := List.mem_filterMap.mp hold
    cases e with
    | revoked session => cases htoken
    | refreshed session token =>
      cases htoken
      obtain ⟨-, ⟨claims', hclaims, hsession⟩, -⟩ := h.used session _ he
      cases hclaims
      exact hfirst (hsession ▸ he)
  · rw [List.pairwise_append]
    refine ⟨h.after, List.pairwise_singleton _ _, fun a ha b hb session token hrevoked hrefreshed => ?_⟩
    rw [List.mem_singleton.mp hb] at hrefreshed
    cases hrefreshed
    exact hlive (hrevoked ▸ ha)

end Parts

section Steps

theorem Sound.effect_save (h : Sound s) {task : Task} {session : Nat} {seen value : AuthSession} {reply : Reply}
    (hsaves : Saves s (.save task session seen value reply))
    (hundivided : Undivided s (.save task session seen value reply)) : Sound (s.writes session value) := by
  cases hsaves with
  | issue hm hhash hlive hopened halone =>
    refine h.writes (fun token hmem => ?_) (fun _ hmem => ?_) fun hdead => ?_
    · obtain ⟨hissued, ⟨claims, rfl, hsession⟩, -⟩ := h.used session token hmem
      exact absurd hsession (halone claims hissued)
    · obtain ⟨⟨claims, hissued, hsession⟩, -⟩ := h.killed session hmem
      exact halone claims hissued hsession
    · exact Bool.noConfusion (hlive.symm.trans hdead)
  | @rotate claims seen pair hm hlive hhash hheld =>
    have hcurrent : s.sessions claims.session = some seen := hundivided
    refine h.writes (fun token hmem heq => ?_) (fun _ hmem => ?_) fun hdead => ?_
    · obtain ⟨hissued, -⟩ := h.used claims.session token hmem
      exact hm.kept (Option.some.inj heq ▸ hissued)
    · obtain ⟨-, a, ha, hdead⟩ := h.killed claims.session hmem
      rw [hcurrent, Option.some.injEq] at ha
      exact Bool.noConfusion (hlive.symm.trans (ha ▸ hdead))
    · exact Bool.noConfusion (hlive.symm.trans hdead)
  | @replay claims seen hheld =>
    have hcurrent : s.sessions claims.session = some seen := hundivided
    exact h.writes (fun token hmem => (h.used claims.session token hmem).2.2 seen hcurrent)
      (fun hlive => nomatch hlive) fun _ => ⟨claims, hheld, rfl⟩
  | @revoke claims seen hheld =>
    have hcurrent : s.sessions claims.session = some seen := hundivided
    exact h.writes (fun token hmem => (h.used claims.session token hmem).2.2 seen hcurrent)
      (fun hlive => nomatch hlive) fun _ => ⟨claims, hheld, rfl⟩

theorem Sound.insert (h : Sound s) (hfresh : s.sessions id = none) (user now : Nat) :
    Sound (s.writes id (Node.opened user now)) := by
  refine h.writes (fun token _ => nofun) (fun _ hmem => ?_) nofun
  obtain ⟨-, a, ha, -⟩ := h.killed id hmem
  cases hfresh.symm.trans ha

theorem Sound.effect (h : Sound s) {now : Nat} (htracks : Tracks s p) (hundivided : Undivided s p)
    (hfresh : s.sessions id = none) : Sound (s.effect now id p) := by
  have hsame : ∀ s' : Node, s'.issued = s.issued → s'.sessions = s.sessions → s'.calls = s.calls →
      s'.started = s.started → s'.signings = s.signings → s'.history = s.history → Sound s' := by
    intro s' hissued hsessions hcalls hstarted hsignings hhistory
    refine ⟨?_, ?_, fun j q hq => ?_, ?_, ?_, ?_, ?_, ?_, ?_, ?_⟩
    · rw [hissued, hsignings]
      exact h.nonces
    · rw [hissued, hsessions]
      exact h.opened
    · rw [hcalls] at hq
      have htracks' := h.tracks j q hq
      refine htracks'.carry (by rw [hissued]; exact fun _ ht => ht) hsignings.ge
        (by rw [hissued]; exact fun _ ht => htracks'.minted_kept ht) ?_
      rw [hissued, hsessions]
      exact fun _ hid => htracks'.binding_alone hid
    · rw [hcalls, hstarted]
      exact h.unstarted
    · rw [hcalls]
      exact h.apart
    · rw [hcalls]
      exact h.bindings
    · rw [hhistory, hissued, hsessions]
      exact h.used
    · rw [hhistory, hissued, hsessions]
      exact h.killed
    · rw [hhistory]
      exact h.once
    · rw [hhistory]
      exact h.after
  cases p with
  | getAnchor task => exact h
  | createPivot task => exact hsame _ rfl rfl rfl rfl rfl rfl
  | saveAnchor task pivot => exact hsame _ rfl rfl rfl rfl rfl rfl
  | body task =>
    cases task with
    | issue user => exact h.insert hfresh user now
    | refresh token claims => exact h
    | revoke claims => exact h
  | save task session seen value reply => exact h.effect_save htracks hundivided
  | returned reply => exact h

theorem minted_signPair (h : Sound s) (hfew : s.signings < 2 ^ 64) (user session now : Nat) :
    Minted { s with signings := s.signings + 1 } session
      (signPair s.tenant user session now s.signings).refresh ∧
    ∀ j q, s.calls j = some q →
      q.minted ≠ some (signPair s.tenant user session now s.signings).refresh := by
  have hnonce : s.signings % 2 ^ 64 = s.signings := Nat.mod_eq_of_lt hfew
  refine ⟨⟨⟨_, rfl, rfl, ?_⟩, fun hissued => ?_⟩, fun j q hq hminted => ?_⟩
  · exact (Nat.mod_le _ _).trans_lt (Nat.lt_succ_self _)
  · have hlt := h.nonces _ hissued
    exact absurd hlt (by rw [hnonce]; exact lt_irrefl _)
  · have hlt : ∃ claims, (signPair s.tenant user session now s.signings).refresh = .signed claims ∧
        claims.nonce < s.signings := by
      have htracks := h.tracks j q hq
      cases q with
      | getAnchor task => cases hminted
      | createPivot task => cases hminted
      | saveAnchor task pivot => cases hminted
      | body task => cases hminted
      | returned reply => cases hminted
      | save task id seen value reply =>
        cases htracks with
        | issue hm =>
          obtain ⟨claims, hsigned, -, hless⟩ := hm.signed
          exact ⟨claims, (Option.some.inj hminted).symm.trans hsigned, hless⟩
        | rotate hm =>
          obtain ⟨claims, hsigned, -, hless⟩ := hm.signed
          exact ⟨claims, (Option.some.inj hminted).symm.trans hsigned, hless⟩
        | replay => cases hminted
        | revoke => cases hminted
    obtain ⟨claims, hsigned, hless⟩ := hlt
    cases hsigned
    exact absurd hless (by rw [hnonce]; exact lt_irrefl _)

theorem Sound.goesOn (h : Sound s) (hp : s.calls i = some p) (htracks : Tracks s q) (hminted : q.minted = none)
    (hbinding : q.binding = none) : Sound (s.setCall i q) :=
  h.setCall_plain (h.started_of hp) htracks hminted hbinding

theorem Sound.operate_save (h : Sound s) {task : Task} {session : Nat} {seen value : AuthSession}
    {reply : Reply} (hp : s.calls i = some (.save task session seen value reply))
    (hundivided : Undivided s (.save task session seen value reply)) :
    Sound (((s.writes session value).returns (.save task session seen value reply)).setCall i (.returned reply)) := by
  have hsaves : Saves s (.save task session seen value reply) := h.tracks i _ hp
  have hwritten : Sound (s.writes session value) := h.effect_save hsaves hundivided
  have hdone : Sound ((s.writes session value).setCall i (.returned reply)) :=
    hwritten.goesOn hp trivial rfl rfl
  -- No other call has the token or the session of this one in hand.
  have hcalls : ∀ j q, ((s.writes session value).setCall i (.returned reply)).calls j = some q →
      (j ≠ i ∧ s.calls j = some q) ∨ q = .returned reply := by
    intro j q hq
    rw [calls_setCall] at hq
    split at hq
    · exact .inr (Option.some.inj hq).symm
    · rename_i hj
      exact .inl ⟨hj, hq⟩
  have hothers : ∀ pair, reply = .pair pair → ∀ j q,
      ((s.writes session value).setCall i (.returned reply)).calls j = some q →
        q.minted ≠ some pair.refresh := by
    rintro pair rfl j q hq hminted
    rcases hcalls j q hq with ⟨hj, hq⟩ | rfl
    · exact hj (h.apart j i q _ _ hq hp hminted rfl)
    · cases hminted
  cases hsaves with
  | @issue user _ _ _ pair hm hhash hlive hopened halone =>
    obtain ⟨claims, hsigned, hsession, hnonce⟩ := hm.signed
    have hissues := hdone.issues hnonce (by rw [hsession]; exact isSome_writes hopened)
      (hsigned ▸ hothers pair rfl) fun j q hq hbinding => by
        rcases hcalls j q hq with ⟨hj, hq⟩ | rfl
        · exact hj (h.bindings j i q _ _ hq hp hbinding (congrArg some hsession.symm))
        · cases hbinding
    rw [← hsigned] at hissues
    exact hissues
  | @rotate claims seen pair hm hlive hhash hheld =>
    have hcurrent : s.sessions claims.session = some seen := hundivided
    obtain ⟨fresh, hsigned, hsession, hnonce⟩ := hm.signed
    have hrevoked : .revoked claims.session ∉ s.history := fun hmem => by
      obtain ⟨-, a, ha, hdead⟩ := h.killed claims.session hmem
      rw [hcurrent, Option.some.injEq] at ha
      exact Bool.noConfusion (hlive.symm.trans (ha ▸ hdead))
    have hhistory : (s.writes claims.session (seen.rotate pair.refresh)).history = s.history := by
      simp [Node.writes, AuthSession.rotate, hlive]
    have hissues := hdone.issues hnonce (by
        rw [hsession]
        exact isSome_writes (by rw [hcurrent]; rfl)) (hsigned ▸ hothers pair rfl) fun j q hq hbinding => by
      rcases hcalls j q hq with ⟨hj, hq⟩ | rfl
      · exact ((h.tracks j q hq).binding_alone hbinding).2 claims hheld hsession.symm
      · cases hbinding
    rw [← hsigned] at hissues
    have hheld' : .signed claims ∈ s.issued ++ [pair.refresh] := List.mem_append_left _ hheld
    refine hissues.records hheld' (fun a ha heq => ?_) (fun hmem => ?_) fun hmem => ?_
    · change (s.writes claims.session (seen.rotate pair.refresh)).sessions claims.session = some a at ha
      rw [sessions_writes, if_pos rfl, Option.some.injEq] at ha
      rw [← ha] at heq
      exact hm.kept (Option.some.inj heq ▸ hheld)
    · change _ ∈ (s.writes claims.session (seen.rotate pair.refresh)).history at hmem
      rw [hhistory] at hmem
      exact (h.used claims.session _ hmem).2.2 seen hcurrent hhash
    · change _ ∈ (s.writes claims.session (seen.rotate pair.refresh)).history at hmem
      rw [hhistory] at hmem
      exact hrevoked hmem
  | replay hheld => exact hdone
  | revoke hheld => exact hdone

theorem Sound.operate_body (h : Sound s) {task : Task} (hp : s.calls i = some (.body task))
    (hfew : s.signings < 2 ^ 64) (hfresh : s.sessions id = none) (now later : Nat) :
    Sound (s.operate i now later id (.body task)) := by
  have hheld : task.Held s := h.tracks i _ hp
  have hi := h.started_of hp
  cases task with
  | issue user =>
    obtain ⟨hm, hothers⟩ := minted_signPair h hfew user id later
    have hwritten := (h.insert hfresh user now).signs
    refine hwritten.setCall (p := s.binds now later user id) hi ?_ (fun token ht j q _ hq => ?_)
      fun id' hid' j q _ hq hbinding => ?_
    · refine .issue ⟨hm.signed, hm.kept⟩ rfl rfl ?_ fun claims hissued hsession => ?_
      · change ((s.writes id _).sessions id).isSome
        rw [sessions_writes, if_pos rfl]
        rfl
      · have hsome := h.opened claims hissued
        rw [hsession, hfresh] at hsome
        cases hsome
    · exact Option.some.inj ht ▸ hothers j q hq
    · have hsome := ((h.tracks j q hq).binding_alone hbinding).1
      rw [← Option.some.inj hid', hfresh] at hsome
      cases hsome
  | refresh token claims =>
    obtain ⟨rfl, hissued⟩ := hheld
    change Sound { s.setCall i (s.refreshes later (.signed claims) claims (s.sessions claims.session)) with
      signings := if Node.signs (s.refreshes later (.signed claims) claims (s.sessions claims.session))
        then s.signings + 1 else s.signings }
    cases hsession : s.sessions claims.session with
    | none => exact h.goesOn hp trivial rfl rfl
    | some session =>
      simp only [Node.refreshes]
      split
      · exact h.goesOn hp trivial rfl rfl
      · rename_i hlive
        split
        · exact h.goesOn hp (.replay hissued) rfl rfl
        · rename_i hhash
          obtain ⟨hm, hothers⟩ := minted_signPair h hfew claims.user claims.session later
          refine h.signs.setCall hi (.rotate ⟨hm.signed, hm.kept⟩ (by simpa using hlive) (by simpa using hhash)
            hissued) (fun token ht j q _ hq => ?_) fun id' hid' => nomatch hid'
          exact Option.some.inj ht ▸ hothers j q hq
  | revoke claims =>
    change Sound { s.setCall i (Node.revokes claims (s.sessions claims.session)) with
      signings := if Node.signs (Node.revokes claims (s.sessions claims.session))
        then s.signings + 1 else s.signings }
    cases hsession : s.sessions claims.session with
    | none => exact h.goesOn hp trivial rfl rfl
    | some session =>
      simp only [Node.revokes]
      split
      · exact h.goesOn hp trivial rfl rfl
      · exact h.goesOn hp (.revoke hheld) rfl rfl

theorem tracks_start {call : Call} (hknown : call.Known s) (now : Nat) :
    Tracks s (s.start now call) ∧ (s.start now call).minted = none ∧ (s.start now call).binding = none := by
  have hverify : ∀ token claims, token = .forged ∨ token ∈ s.issued →
      verify token now .refresh = .ok claims → token = .signed claims ∧ token ∈ s.issued := by
    intro token claims hknown hok
    cases token with
    | forged => cases hok
    | signed claims' =>
      rw [verify] at hok
      split at hok
      · cases hok
      · split at hok
        · cases hok
        · cases hok
          exact ⟨rfl, hknown.resolve_left nofun⟩
  cases call with
  | issuePair user => exact ⟨trivial, rfl, rfl⟩
  | refreshPair token =>
    rw [Node.start]
    cases hok : verify token now .refresh with
    | error e => exact ⟨trivial, rfl, rfl⟩
    | ok claims =>
      simp only
      split
      · exact ⟨trivial, rfl, rfl⟩
      · exact ⟨hverify token claims hknown hok, rfl, rfl⟩
  | revoke token =>
    rw [Node.start]
    cases hok : verify token now .refresh with
    | error e => exact ⟨trivial, rfl, rfl⟩
    | ok claims =>
      obtain ⟨rfl, hissued⟩ := hverify token claims hknown hok
      exact ⟨hissued, rfl, rfl⟩

theorem Sound.opens (h : Sound s) : Sound { s with started := s.started + 1 } := by
  refine ⟨h.nonces, h.opened, fun j q hq => ?_, fun j hj => h.unstarted j ((Nat.le_succ _).trans hj), h.apart,
    h.bindings, h.used, h.killed, h.once, h.after⟩
  have htracks := h.tracks j q hq
  exact htracks.carry (fun _ ht => ht) le_rfl (fun _ ht => htracks.minted_kept ht)
    fun _ hid => htracks.binding_alone hid

theorem Sound.step {a : Action} (h : Sound s) (hserial : Serial s a) (hstep : Step s a s') : Sound s' := by
  cases hstep with
  | @call call now hknown =>
    obtain ⟨htracks, hminted, hbinding⟩ := tracks_start hknown now
    refine h.opens.setCall_plain (Nat.lt_succ_self _) ?_ hminted hbinding
    exact htracks.carry (fun _ ht => ht) le_rfl (fun _ ht => nomatch hminted.symm.trans ht)
      fun _ hid => nomatch hbinding.symm.trans hid
  | @operate i now later id p hp hrunning hfresh =>
    have hundivided := hserial p hp
    have htracks := h.tracks i p hp
    cases p with
    | getAnchor task =>
      change Sound { s.setCall i (if s.anchor.isSome then .body task else .createPivot task) with
        signings := if Node.signs (if s.anchor.isSome then .body task else .createPivot task)
          then s.signings + 1 else s.signings }
      split
      · exact h.goesOn hp htracks rfl rfl
      · exact h.goesOn hp htracks rfl rfl
    | createPivot task =>
      have heffect : Sound (s.effect now id (.createPivot task)) := h.effect htracks hundivided hfresh
      have hheld : task.Held (s.effect now id (.createPivot task)) := heffect.tracks i _ hp
      exact heffect.goesOn hp hheld rfl rfl
    | saveAnchor task pivot =>
      have heffect : Sound (s.effect now id (.saveAnchor task pivot)) := h.effect htracks hundivided hfresh
      have hheld : task.Held (s.effect now id (.saveAnchor task pivot)) := heffect.tracks i _ hp
      exact heffect.goesOn hp hheld rfl rfl
    | body task => exact h.operate_body hp hundivided hfresh now later
    | save task session seen value reply =>
      have hsaved := h.operate_save hp hundivided
      have hsignings : ((s.writes session value).returns (.save task session seen value reply)).signings =
          s.signings := by
        cases task <;> cases reply <;> rfl
      rw [Node.operate, ← hsignings]
      exact hsaved
    | returned reply => exact hrunning.elim
  | @fault i now id p landed hp hrunning hfresh =>
    cases landed with
    | false => exact h.goesOn hp trivial rfl rfl
    | true =>
      have heffect : Sound (s.effect now id p) := h.effect (h.tracks i p hp) (hserial p hp) hfresh
      have hcalls : (s.effect now id p).calls = s.calls := by
        cases p with
        | body task => cases task <;> rfl
        | _ => rfl
      exact heffect.goesOn (hcalls ▸ hp) trivial rfl rfl

end Steps

section Runs

-- A refresh token yields at most one pair, and a session revoked or replayed yields
-- none from then on.
theorem refresh_single_use {tenant : Nat} (h : Leads Step Serial (Node.new tenant) s) :
    (s.history.filterMap Event.token).Nodup ∧
      s.history.Pairwise fun a b => ∀ session token, a = .revoked session → b ≠ .refreshed session token := by
  have hsound : Sound s := h.invariant (sound_new tenant) fun _ _ _ hs hserial hstep => hs.step hserial hstep
  exact ⟨hsound.once, hsound.after⟩

def Node.turn (s : Node) (i id : Nat) : Node :=
  match s.calls i with
  | some p => s.operate i 0 0 id p
  | none => s

def Node.enter (s : Node) (call : Call) : Node :=
  { s.setCall s.started (s.start 0 call) with started := s.started + 1 }

theorem leads_turn {ok : Node → Action → Prop} {start : Node} (h : Leads Step ok start s) (i id : Nat)
    (hbusy : ∃ p, s.calls i = some p ∧ p.Running) (hfresh : s.sessions id = none) (hok : ok s (.operate i)) :
    Leads Step ok start (s.turn i id) := by
  obtain ⟨p, hp, hrunning⟩ := hbusy
  rw [Node.turn, hp]
  exact h.step hok (.operate hp hrunning hfresh)

theorem leads_enter {ok : Node → Action → Prop} {start : Node} (h : Leads Step ok start s) (call : Call)
    (hknown : call.Known s) (hok : ok s (.call call)) : Leads Step ok start (s.enter call) :=
  h.step hok (.call hknown)

theorem serial_of (h : ∃ p, s.calls i = some p ∧ Undivided s p) : Serial s (.operate i) := by
  obtain ⟨p, hp, hundivided⟩ := h
  exact fun _ hq => Option.some.inj (hp.symm.trans hq) ▸ hundivided

def sampleToken : Token := (signPair 1 1 10 0 0).refresh

def sampleIssued : Node :=
  ((((((Node.new 1).enter (.issuePair 1)).turn 0 10).turn 0 10).turn 0 10).turn 0 10).turn 0 11

theorem leads_sampleIssued : Leads Step Serial (Node.new 1) sampleIssued := by
  have hfew : (0 : Nat) < 2 ^ 64 := by decide
  have hentered : Leads Step Serial (Node.new 1) _ := leads_enter .start (.issuePair 1) trivial trivial
  have hread := leads_turn hentered 0 10 ⟨_, rfl, trivial⟩ rfl (serial_of ⟨_, rfl, trivial⟩)
  have hcreated := leads_turn hread 0 10 ⟨_, rfl, trivial⟩ rfl (serial_of ⟨_, rfl, trivial⟩)
  have hsaved := leads_turn hcreated 0 10 ⟨_, rfl, trivial⟩ rfl (serial_of ⟨_, rfl, trivial⟩)
  have hinserted := leads_turn hsaved 0 10 ⟨_, rfl, trivial⟩ rfl (serial_of ⟨_, rfl, hfew⟩)
  exact leads_turn hinserted 0 11 ⟨_, rfl, trivial⟩ rfl (serial_of ⟨_, rfl, trivial⟩)

theorem refresh_single_use_sample : ∃ s, Leads Step Serial (Node.new 1) s ∧
    s.history = [.refreshed 10 sampleToken] ∧ (s.history.filterMap Event.token).Nodup := by
  have hfew : (1 : Nat) < 2 ^ 64 := by decide
  have hknown : Call.Known sampleIssued (.refreshPair sampleToken) := .inr (List.mem_singleton.mpr rfl)
  have hentered := leads_enter leads_sampleIssued (.refreshPair sampleToken) hknown trivial
  have hanchor := leads_turn hentered 1 11 ⟨_, rfl, trivial⟩ rfl (serial_of ⟨_, rfl, trivial⟩)
  have hread := leads_turn hanchor 1 11 ⟨_, rfl, trivial⟩ rfl (serial_of ⟨_, rfl, hfew⟩)
  have hsaved := leads_turn hread 1 11 ⟨_, rfl, trivial⟩ rfl (serial_of ⟨_, rfl, rfl⟩)
  exact ⟨_, hsaved, rfl, (refresh_single_use hsaved).1⟩

def sampleTwice : Node :=
  let s := (sampleIssued.enter (.refreshPair sampleToken)).enter (.refreshPair sampleToken)
  ((((((s.turn 1 11).turn 2 11).turn 1 11).turn 2 11).turn 1 11).turn 2 11)

def sampleRevived : Node :=
  let s := (sampleIssued.enter (.refreshPair sampleToken)).enter (.revoke sampleToken)
  ((((((s.turn 1 11).turn 1 11).turn 2 11).turn 2 11).turn 2 11).turn 1 11)

theorem leads_free (h : Leads Step Serial (Node.new 1) s) :
    Leads Step (fun _ _ => True) (Node.new 1) s := by
  induction h with
  | start => exact .start
  | step _ _ hstep ih => exact ih.step trivial hstep

-- One token yields two pairs, and a revoked session yields one and is live again.
theorem refresh_used_twice :
    (∃ s, Leads Step (fun _ _ => True) (Node.new 1) s ∧
      s.history = [.refreshed 10 sampleToken, .refreshed 10 sampleToken]) ∧
    ∃ s, Leads Step (fun _ _ => True) (Node.new 1) s ∧
      s.history = [.revoked 10, .refreshed 10 sampleToken] ∧ (s.sessions 10).map (·.revoked) = some false := by
  have hmem : sampleToken ∈ sampleIssued.issued := List.mem_singleton.mpr rfl
  have hissued := leads_free leads_sampleIssued
  have hone := leads_enter hissued (.refreshPair sampleToken) (.inr hmem) trivial
  refine ⟨⟨sampleTwice, ?_, rfl⟩, sampleRevived, ?_, rfl, rfl⟩
  · have htwo := leads_enter hone (.refreshPair sampleToken) (.inr hmem) trivial
    have hanchor₁ := leads_turn htwo 1 11 ⟨_, rfl, trivial⟩ rfl trivial
    have hanchor₂ := leads_turn hanchor₁ 2 11 ⟨_, rfl, trivial⟩ rfl trivial
    have hread₁ := leads_turn hanchor₂ 1 11 ⟨_, rfl, trivial⟩ rfl trivial
    have hread₂ := leads_turn hread₁ 2 11 ⟨_, rfl, trivial⟩ rfl trivial
    have hsaved₁ := leads_turn hread₂ 1 11 ⟨_, rfl, trivial⟩ rfl trivial
    exact leads_turn hsaved₁ 2 11 ⟨_, rfl, trivial⟩ rfl trivial
  · have htwo := leads_enter hone (.revoke sampleToken) (.inr hmem) trivial
    have hanchor₁ := leads_turn htwo 1 11 ⟨_, rfl, trivial⟩ rfl trivial
    have hread₁ := leads_turn hanchor₁ 1 11 ⟨_, rfl, trivial⟩ rfl trivial
    have hanchor₂ := leads_turn hread₁ 2 11 ⟨_, rfl, trivial⟩ rfl trivial
    have hread₂ := leads_turn hanchor₂ 2 11 ⟨_, rfl, trivial⟩ rfl trivial
    have hsaved₂ := leads_turn hread₂ 2 11 ⟨_, rfl, trivial⟩ rfl trivial
    exact leads_turn hsaved₂ 1 11 ⟨_, rfl, trivial⟩ rfl trivial

end Runs

end WaveDb.Auth
