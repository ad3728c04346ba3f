import WaveDb.Index.Chain.Run

-- A chain beside other structures in one store: a batch carries the plans of all of
-- them.
namespace WaveDb.Index

open WaveDb.Lib WaveDb.Core

section Ids

variable {V : Type}

-- Its own ids and the ones the plan wrote, as far as they hold something.
def idsAfter (s : Store V) (writes : List (Write V)) (ids : Set Id) : Set Id :=
  {i | (i ∈ ids ∨ ∃ x ∈ writes, x.id = i) ∧ s.writes writes i ≠ none}

variable {tenant : Nat} {kinds : List Nat} {w w' : World V} {writes : List (Write V)}
  {old new : List (Id × V)} {ids : Set Id}

theorem idsAfter_planned (h : Planned tenant kinds w w' writes old new)
    (hids : ∀ i, i ∈ ids ↔ i ∈ addrs old) (i : Id) :
    i ∈ idsAfter w.store writes ids ↔ i ∈ addrs new := by
  constructor
  · rintro ⟨hmine, hsome⟩
    by_contra hnew
    by_cases hold : i ∈ addrs old
    · exact hsome (h.replaces.gone i hold hnew)
    · -- an id that was only written is one the clock has given
      obtain ⟨x, hx, rfl⟩ := hmine.resolve_left fun hi => hold ((hids i).mp hi)
      have hgiven := (h.within x hx).resolve_left hold
      exact hsome ((h.replaces.kept _ hold hnew).trans hgiven.1)
  · intro hnew
    have hsome : w.store.writes writes i ≠ none := fun hnone =>
      h.replaces.holds.not_mem hnone hnew
    refine ⟨?_, hsome⟩
    rcases h.fresh i hnew with hold | hgiven
    · exact .inl ((hids i).mpr hold)
    · by_contra hmine
      refine hsome ((Store.writes_of_ne fun x hx he => ?_).trans hgiven.1)
      exact hmine (.inr ⟨x, hx, he⟩)

theorem idsAfter_empty (h : Planned tenant kinds w w' writes [] new) (i : Id) :
    i ∈ idsAfter w.store writes ∅ ↔ i ∈ addrs new :=
  idsAfter_planned h (by simp) i

end Ids

-- A chain in planning: its handle, the view of the next plan, its ids and what it
-- holds.
structure Draft (V K P : Type) where
  chain : Chain
  world : World V
  ids : Set Id
  content : K → Option P

def Draft.stage {V K P : Type} (a : Draft V K P) (c : Chain) (w : World V) (writes : List (Write V))
    (content : K → Option P) : Draft V K P :=
  ⟨c, { w with store := a.world.store.writes writes }, idsAfter a.world.store writes a.ids, content⟩

variable {V K P : Type} [LaneCodec V (Segment K P)] [LaneCodec V (SparseNode K)] [DecidableEq V]
  [LinearOrder K]

inductive Plans (a : Draft V K P) : Draft V K P → Prop
  | start : Plans a a
  | insert {b : Draft V K P} {c : Chain} {writes : List (Write V)} {w : World V} (k : K) (p : P)
      (h : Plans a b)
      (hplan : Engine.Returns (fun fuel => b.chain.planInsert fuel k p) b.world (c, writes) w) :
      Plans a (b.stage c w writes (Function.update b.content k (some p)))
  | remove {b : Draft V K P} {c : Chain} {writes : List (Write V)} {w : World V} (k : K)
      (h : Plans a b)
      (hplan : Engine.Returns (fun fuel => b.chain.planRemove fuel k P) b.world
        (c, some writes) w) :
      Plans a (b.stage c w writes (Function.update b.content k none))
  | removeAbsent {b : Draft V K P} {c : Chain} {w : World V} (k : K) (h : Plans a b)
      (hplan : Engine.Returns (fun fuel => b.chain.planRemove fuel k P) b.world (c, none) w) :
      Plans a { b with chain := c, world := w }

structure Draft.Stands (kinds : List Nat) (a : Draft V K P) (segs : Segs K P)
    (ix : List (Id × V)) : Prop extends ChainAt kinds a.chain a.world segs ix where
  owns : ∀ i, i ∈ a.ids ↔
    i ∈ addrs (segCells V a.chain.tenant a.chain.laneHash none segs none ++ ix)
  entries : ∀ k p, (k, p) ∈ entriesOf segs ↔ a.content k = some p
  unused : Unused a.chain.tenant kinds a.world

section Steps

variable {a b : Draft V K P} {c : Chain} {kinds : List Nat} {w : World V} {content : K → Option P}
  {segs segs' : Segs K P} {ix : List (Id × V)} {writes : List (Write V)}

omit [DecidableEq V] in
theorem Draft.Stands.rechained (h : a.Stands kinds segs ix)
    (hre : Rechained kinds a.world w
      (segCells V a.chain.tenant a.chain.laneHash none segs none ++ ix) a.chain c segs' writes)
    (hentries : ∀ k p, (k, p) ∈ entriesOf segs' ↔ content k = some p) :
    ∃ ix', (a.stage c w writes content).Stands kinds segs' ix' := by
  obtain ⟨hsame, hshape, ix', hix', hplan⟩ := hre
  refine ⟨ix', ⟨⟨?_, hshape, ?_, ?_, ?_⟩, ?_, hentries, ?_⟩⟩
  · rw [Draft.stage, hsame]
    exact ⟨h.ok.min, h.ok.kind, h.ok.index⟩
  · rw [Draft.stage, hsame]
    exact hix'
  · rw [Draft.stage, hsame]
    exact hplan.replaces.holds
  · rw [Draft.stage, hsame]
    exact hplan.nodup
  · rw [Draft.stage, hsame]
    exact idsAfter_planned hplan h.owns
  · rw [Draft.stage, hsame]
    exact hplan.unused h.unused

theorem Plans.stands (hplans : Plans a b) (h : a.Stands kinds segs ix) :
    b.chain = { a.chain with head := b.chain.head, tail := b.chain.tail } ∧
      ∃ segs' ix', b.Stands kinds segs' ix' := by
  induction hplans with
  | start => exact ⟨rfl, segs, ix, h⟩
  | insert k p hplans hplan ih =>
    obtain ⟨hsame, segs₁, ix₁, h₁⟩ := ih
    obtain ⟨c', segs', writes, w', hret, hre, hentries⟩ :=
      planInsert_chain_spec h₁.unused h₁.toChainAt k p
    cases (hplan.unique hret).1
    obtain rfl := (hplan.unique hret).2
    have hmoved := hre.same
    refine ⟨?_, segs', h₁.rechained hre fun j q => by rw [hentries, mem_put h₁.entries]⟩
    rw [Draft.stage, hmoved, hsame]
  | remove k hplans hplan ih =>
    obtain ⟨hsame, segs₁, ix₁, h₁⟩ := ih
    rcases planRemove_chain_spec h₁.unused h₁.toChainAt k with
      ⟨-, hret⟩ | ⟨-, c', segs', writes, w', hret, hre, hentries⟩
    · cases (hplan.unique hret).1
    · cases (hplan.unique hret).1
      obtain rfl := (hplan.unique hret).2
      have hmoved := hre.same
      refine ⟨?_, segs', h₁.rechained hre fun j q => by rw [hentries, mem_drop h₁.entries]⟩
      rw [Draft.stage, hmoved, hsame]
  | removeAbsent k hplans hplan ih =>
    obtain ⟨hsame, segs₁, ix₁, h₁⟩ := ih
    rcases planRemove_chain_spec h₁.unused h₁.toChainAt k with
      ⟨-, hret⟩ | ⟨-, c', segs', writes, w', hret, -, -⟩
    · cases (hplan.unique hret).1
      obtain rfl := (hplan.unique hret).2
      exact ⟨hsame, segs₁, ix₁, h₁⟩
    · cases (hplan.unique hret).1

end Steps

end WaveDb.Index
