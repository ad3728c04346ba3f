import WaveDb.Index.Chain.Links

namespace WaveDb.Index

open WaveDb.Lib WaveDb.Core

section Slots

variable {K P : Type}

def slotOf (s : LocalId × List (K × P)) : Option (Slot K) :=
  s.2.head?.map fun e => ⟨e.1, s.1, s.2.length⟩

def slotsOf (segs : Segs K P) : List (Slot K) := segs.filterMap slotOf

theorem slotsOf_append (a b : Segs K P) : slotsOf (a ++ b) = slotsOf a ++ slotsOf b :=
  List.filterMap_append

theorem slotsOf_cons (s : LocalId × List (K × P)) (b : Segs K P) :
    slotsOf (s :: b) = (slotOf s).toList ++ slotsOf b := by
  rw [slotsOf, List.filterMap_cons]
  cases slotOf s <;> rfl

variable [LinearOrder K]

def unfiled (was now : Option K) (slots : List (Slot K)) : List (Slot K) :=
  match was with
  | some old => if was ≠ now then below Slot.first old slots ++ above Slot.first old slots else slots
  | none => slots

def refiled (was now : Option K) (id : LocalId) (count : Nat) (slots : List (Slot K)) :
    List (Slot K) :=
  match now with
  | some first => below Slot.first first (unfiled was now slots) ++
      ⟨first, id, count⟩ :: above Slot.first first (unfiled was now slots)
  | none => unfiled was now slots

theorem ascending_unfiled {slots : List (Slot K)} (h : Ascending Slot.first slots) (was now : Option K) :
    Ascending Slot.first (unfiled was now slots) := by
  cases was with
  | none => exact h
  | some old =>
    rw [unfiled]
    split
    · exact ascending_drop h old
    · exact h

structure Between (a b : List (Slot K)) (key : K) : Prop where
  left : ∀ s ∈ a, s.first < key
  right : ∀ s ∈ b, key < s.first

theorem Between.drop {a b : List (Slot K)} {key : K} (h : Between a b key) (m : List (Slot K))
    (hm : ∀ s ∈ m, s.first = key) :
    below Slot.first key (a ++ m ++ b) = a ∧ above Slot.first key (a ++ m ++ b) = b := by
  have hbelow : below Slot.first key m = [] := List.filter_eq_nil_iff.mpr fun s hs => by simp [hm s hs]
  have habove : above Slot.first key m = [] := List.filter_eq_nil_iff.mpr fun s hs => by simp [hm s hs]
  obtain ⟨hb, ha⟩ := parts_middle h.left h.right m
  exact ⟨by rw [hb, hbelow, List.append_nil], by rw [ha, habove, List.nil_append]⟩

theorem refiled_middle {a b : List (Slot K)} {was now : Option K} {id : LocalId} {count : Nat}
    (m : Option (Slot K)) (hm : m.map Slot.first = was) (hwas : ∀ k ∈ was, Between a b k)
    (hnow : ∀ k ∈ now, Between a b k) :
    refiled was now id count (a ++ m.toList ++ b) =
      a ++ (now.map fun first => (⟨first, id, count⟩ : Slot K)).toList ++ b := by
  have hmem : ∀ k ∈ was, ∀ s ∈ m.toList, s.first = k := by
    rintro k hk s hs
    rw [Option.mem_toList] at hs
    rw [← hm, hs] at hk
    simpa using hk
  by_cases hmoved : was = now
  · have hun : unfiled was now (a ++ m.toList ++ b) = a ++ m.toList ++ b := by
      cases was with
      | none => rfl
      | some old => simp [unfiled, hmoved]
    cases now with
    | none =>
      subst hmoved
      have hnone : m = none := by simpa using hm
      simp [refiled, unfiled, hnone]
    | some first =>
      obtain ⟨hb, ha⟩ := (hnow first rfl).drop m.toList (hmem first (by rw [hmoved]; rfl))
      rw [refiled, hun, hb, ha]
      simp
  · have hun : unfiled was now (a ++ m.toList ++ b) = a ++ b := by
      cases was with
      | none =>
        have hnone : m = none := by simpa using hm
        simp [unfiled, hnone]
      | some old =>
        obtain ⟨hb, ha⟩ := (hwas old rfl).drop m.toList (hmem old rfl)
        rw [unfiled, if_pos hmoved, hb, ha]
    cases now with
    | none => rw [refiled, hun, Option.map_none, Option.toList_none, List.append_nil]
    | some first =>
      have hdrop := (hnow first rfl).drop [] (by simp)
      rw [List.append_nil] at hdrop
      rw [refiled, hun, hdrop.1, hdrop.2]
      simp

end Slots

section Filing

variable {V K P : Type} [LaneCodec V (SparseNode K)] [DecidableEq V] [LinearOrder K]
  {c : Chain} {t : SparseTree} {kinds : List Nat} {w₀ w : World V}
  {writes : List (Write V)} {old ix rest : List (Id × V)} {slots : List (Slot K)}

def Indexed (index : Option SparseTree) (slots : List (Slot K)) (cells : List (Id × V)) : Prop :=
  match index with
  | none => cells = []
  | some t => ∃ (n : Nat) (T : RunTree LocalId (Slot K) n), T.id = t.root ∧ T.flat = slots ∧
      RootFull T ∧ cells = T.cells (sparseLayout V t)

structure IndexOk (tenant : Nat) (kinds : List Nat) (t : SparseTree) : Prop where
  tenant : t.tenant = tenant
  cap : 1 ≤ t.cap
  kind : laneLower t.laneHash ∈ kinds

omit [LinearOrder K] in
theorem index_step (hok : IndexOk c.tenant kinds t) (hu : Unused c.tenant kinds w₀)
    (h : Planned c.tenant kinds w₀ w writes old (ix ++ rest))
    (hix : Indexed (some t) slots ix) {p : Nat → Engine V (List (Write V))}
    (hp : ∀ fuel, (p fuel).Asks (Op.ReadsIn t.tenant)) {slots' : List (Slot K)}
    (hspec : ∀ {n : Nat} {T : RunTree LocalId (Slot K) n}, T.id = t.root → RootFull T →
      T.flat = slots → Unused t.tenant kinds (w.view writes) →
      Holds (w.view writes).store (T.cells (sparseLayout V t)) →
      (addrs (T.cells (sparseLayout V t))).Nodup →
      IndexPlan t kinds (w.view writes) (T.cells (sparseLayout V t)) p slots') :
    ∃ batch ix' w', Engine.Returns (fun fuel => Engine.onView writes (p fuel)) w batch w' ∧
      Planned c.tenant kinds w₀ w' (writes ++ batch) old (ix' ++ rest) ∧
      Indexed (some t) slots' ix' := by
  obtain ⟨n, T, hid, hflat, hfull, rfl⟩ := hix
  have hview : w.view writes = { w with store := w₀.store.writes writes } := by
    rw [World.view, h.store_eq]
  have hheld : Holds (w.view writes).store (T.cells (sparseLayout V t)) := by
    rw [hview]
    exact (holds_append.mp h.replaces.holds).1
  have hnodup := (List.nodup_append.mp (addrs_append _ rest ▸ h.nodup)).1
  have hunused : Unused t.tenant kinds (w.view writes) := by
    rw [hview, hok.tenant]
    exact h.unused hu
  obtain ⟨n', T', batch, w', hret, hid', hflat', hfull', hplan⟩ :=
    hspec hid hfull hflat hunused hheld hnodup
  rw [hok.tenant] at hp hplan
  obtain ⟨w'', hover, hplanned⟩ := h.through hp hret hplan
  exact ⟨batch, _, w'', hover, hplanned, n', T', hid', hflat', hfull', rfl⟩

theorem unfile_spec (hok : IndexOk c.tenant kinds t) (hu : Unused c.tenant kinds w₀)
    (h : Planned c.tenant kinds w₀ w writes old (ix ++ rest))
    (hix : Indexed (some t) slots ix) (hs : Ascending Slot.first slots) (key : K) :
    ∃ writes' ix' w', Engine.Returns (fun fuel => Chain.unfile t fuel writes key) w writes' w' ∧
      Planned c.tenant kinds w₀ w' writes' old (ix' ++ rest) ∧
      Indexed (some t) (below Slot.first key slots ++ above Slot.first key slots) ix' := by
  obtain ⟨batch, ix', w', hret, hplan, hix'⟩ := index_step hok hu h hix
    (fun fuel => t.asks_planRemove fuel key) fun hid hfull hflat hunused hheld hnodup => by
      have hplan := planRemove_sparse_spec hok.cap hunused hok.kind hid hfull (hflat ▸ hs) hheld
        hnodup key
      rwa [hflat] at hplan
  exact ⟨writes ++ batch, ix', w', hret.bind (.of_run rfl), hplan, hix'⟩

theorem file_spec (hok : IndexOk c.tenant kinds t) (hu : Unused c.tenant kinds w₀)
    (h : Planned c.tenant kinds w₀ w writes old (ix ++ rest))
    (hix : Indexed (some t) slots ix) (hs : Ascending Slot.first slots) (slot : Slot K) :
    ∃ writes' ix' w', Engine.Returns (fun fuel => Chain.file t fuel writes slot) w writes' w' ∧
      Planned c.tenant kinds w₀ w' writes' old (ix' ++ rest) ∧
      Indexed (some t) (below Slot.first slot.first slots ++ slot :: above Slot.first slot.first slots) ix' := by
  obtain ⟨batch, ix', w', hret, hplan, hix'⟩ := index_step hok hu h hix
    (fun fuel => t.asks_planUpsert fuel slot) fun hid hfull hflat hunused hheld hnodup => by
      have hplan := planUpsert_spec hok.cap hunused hok.kind hid hfull (hflat ▸ hs) hheld
        hnodup slot
      rwa [hflat] at hplan
  exact ⟨writes ++ batch, ix', w', hret.bind (.of_run rfl), hplan, hix'⟩

theorem unfileMoved_spec (hok : IndexOk c.tenant kinds t) (hu : Unused c.tenant kinds w₀)
    (h : Planned c.tenant kinds w₀ w writes old (ix ++ rest))
    (hix : Indexed (some t) slots ix) (hs : Ascending Slot.first slots) (was now : Option K) :
    ∃ writes' ix' w',
      Engine.Returns (fun fuel => Chain.unfileMoved t fuel writes was now) w writes' w' ∧
      Planned c.tenant kinds w₀ w' writes' old (ix' ++ rest) ∧
      Indexed (some t) (unfiled was now slots) ix' := by
  cases was with
  | none => exact ⟨writes, ix, w, .of_run rfl, h, hix⟩
  | some key =>
    by_cases hmoved : some key = now
    · refine ⟨writes, ix, w, ⟨0, fun fuel _ => ?_⟩, h, by simpa [unfiled, hmoved] using hix⟩
      simp [Chain.unfileMoved, hmoved]
    · obtain ⟨writes', ix', w', hret, hplan, hix'⟩ := unfile_spec hok hu h hix hs key
      refine ⟨writes', ix', w', ?_, hplan, by simpa [unfiled, hmoved] using hix'⟩
      simpa [Chain.unfileMoved, hmoved] using hret

theorem reindex_spec [LaneCodec V (Segment K P)] (hok : ∀ t ∈ c.index, IndexOk c.tenant kinds t)
    (hu : Unused c.tenant kinds w₀) (h : Planned c.tenant kinds w₀ w writes old (ix ++ rest))
    (hix : Indexed c.index slots ix) (hs : Ascending Slot.first slots) (was : Option K) (id : LocalId)
    (seg : Segment K P) :
    ∃ writes' ix' w', Engine.Returns (fun fuel => c.reindex fuel writes was id seg) w writes' w' ∧
      Planned c.tenant kinds w₀ w' writes' old (ix' ++ rest) ∧
      Indexed c.index (refiled was seg.firstKey id seg.len slots) ix' := by
  cases hindex : c.index with
  | none =>
    rw [hindex] at hix
    refine ⟨writes, ix, w, ⟨0, fun fuel _ => ?_⟩, h, hix⟩
    simp only [Chain.reindex, hindex]
    rfl
  | some t =>
    rw [hindex] at hix hok
    obtain ⟨writes₁, ix₁, w₁, hret₁, hplan₁, hix₁⟩ :=
      unfileMoved_spec (hok t rfl) hu h hix hs was seg.firstKey
    simp only [Chain.reindex, hindex]
    cases hfirst : seg.firstKey with
    | none =>
      rw [hfirst] at hret₁ hix₁
      exact ⟨writes₁, ix₁, w₁, hret₁.bind (.of_run rfl), hplan₁, hix₁⟩
    | some first =>
      rw [hfirst] at hret₁ hix₁
      obtain ⟨writes₂, ix₂, w₂, hret₂, hplan₂, hix₂⟩ := file_spec (hok t rfl) hu hplan₁ hix₁
        (ascending_unfiled hs was (some first)) ⟨first, id, seg.len⟩
      exact ⟨writes₂, ix₂, w₂, hret₁.bind hret₂, hplan₂, hix₂⟩

end Filing

end WaveDb.Index
