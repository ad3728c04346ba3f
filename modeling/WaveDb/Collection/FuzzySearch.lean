import WaveDb.Fuzzy.Grams
import WaveDb.Collection.Lives
import WaveDb.Collection.Search

-- The lookup in a fuzzy index: a scan for each gram, two filters on what the scans saw,
-- and a read of what passes.
namespace WaveDb.Fuzzy

def jaccard (a b : GramSet) : Float :=
  let shared := (a ∩ b).card
  let union := a.card + b.card - shared
  if union = 0 then 1 else shared.toFloat / union.toFloat

def containment (query record : GramSet) : Float :=
  if query.card = 0 then 1 else (query ∩ record).card.toFloat / query.card.toFloat

-- A `usize` as a float: to the nearest with 53 bits, ties to even.
def asF64 (d : Nat) : Nat :=
  if d < 2 ^ 53 then d
  else
    let unit := 2 ^ (Nat.log2 d - 52)
    let q := d / unit
    if 2 * (d % unit) < unit ∨ 2 * (d % unit) = unit ∧ q % 2 = 0 then q * unit
    else (q + 1) * unit

inductive Score
  | distance (d : Nat)
  | ratio (t : Float)

-- Ranks ascend, and a ratio ranks by what it lacks of one. A lookup has one mode.
def Score.cmp : Score → Score → Ordering
  | .distance d, .distance e => compare (asF64 d) (asF64 e)
  | .ratio s, .ratio t => if 1 - s < 1 - t then .lt else if 1 - t < 1 - s then .gt else .eq
  | _, _ => .eq

end WaveDb.Fuzzy

namespace WaveDb.Collection

open WaveDb.Lib WaveDb.Core WaveDb.Index WaveDb.Fuzzy

variable {T : Type}

-- The width of the grams, the normalization and the field.
structure Profile (T : Type) where
  n : Nat
  normalize : String → List Char
  source : T → String

namespace Profile

variable (p : Profile T)

def text (value : T) : List Char := p.normalize (p.source value)

def grams (text : List Char) : List (List UInt8) := (gramPrefixes text p.n).sort

def fields (value : T) : List (List UInt8) :=
  (p.grams (p.text value)).map fun gram => fieldKey gram (p.text value).length

def score (build : Build) (query : List Char) (value : T) :
    Mode → Except Panic (Option Score)
  | .distance k => do
      let found ← levenshteinWithin build query (p.text value) k
      return found.map Score.distance
  | .similarity t =>
    let s := jaccard (gramPrefixes query p.n) (gramPrefixes (p.text value) p.n)
    return if t ≤ s then some (.ratio s) else none
  | .contains t =>
    let s := containment (gramPrefixes query p.n) (gramPrefixes (p.text value) p.n)
    return if t ≤ s then some (.ratio s) else none

end Profile

structure Candidate where
  shared : Nat
  len : Nat

structure Hit (T : Type) where
  id : Id
  value : T
  score : Score

def Hit.cmp (a b : Hit T) : Ordering :=
  (a.score.cmp b.score).then ((compare a.id.key b.id.key).then
    ((compare a.id.tenant b.id.tenant).then (compare a.id.lower b.id.lower)))

abbrev Posting := SecKey (List UInt8)

def note (key : Posting) : List (LocalId × Candidate) → List (LocalId × Candidate)
  | [] => [(key.anchor, ⟨1, (keyLen key.field).getD 0⟩)]
  | (anchor, c) :: seen =>
    if anchor = key.anchor then (anchor, { c with shared := c.shared + 1 }) :: seen
    else (anchor, c) :: note key seen

def noteAll (keys : List Posting) : List (LocalId × Candidate) :=
  keys.foldl (fun seen key => note key seen) []

def scan (tree : List Posting) (gram : List UInt8) : List Posting :=
  tree.filter fun key => NodeKey.inBound key (.keyPrefix gram)

variable {d : Declaration T (List UInt8)}

-- One read for each survivor. A posting without a record is skipped.
def verify (build : Build) (p : Profile T) (hash tenant : Nat) (query : List Char) (mode : Mode) :
    List LocalId → Engine (Stored T) (Except Panic (List (Hit T)))
  | [] => return .ok []
  | anchor :: rest => do
      match ← Engine.getOf hash (anchor.toId tenant) with
      | none => verify build p hash tenant query mode rest
      | some (_, value) =>
        match p.score build query value mode with
        | .error panic => return .error panic
        | .ok scored =>
          match ← verify build p hash tenant query mode rest with
          | .error panic => return .error panic
          | .ok hits =>
            return .ok ((scored.map fun s => ⟨anchor.toId tenant, value, s⟩).toList ++ hits)

-- `iter` is the order a hash map is walked in.
def Catalog.fuzzySearch (build : Build) (p : Profile T) (cat : Catalog d) (tenant : Nat)
    (iter : List (LocalId × Candidate) → List (LocalId × Candidate)) (index : Nat)
    (query : String) (mode : Mode) (limit : Nat) :
    Engine (Stored T) (Except Panic (List (Hit T))) :=
  if h : index < d.numFuzzy then do
    let text := p.normalize query
    let grams := p.grams text
    match mode.threshold build grams.length p.n with
    | .error panic => return .error panic
    | .ok threshold =>
      let seen := noteAll (grams.flatMap (scan (cat.fuzzy ⟨index, h⟩)))
      let survivors := (iter seen).filter fun entry => threshold ≤ entry.2.shared &&
        mode.allowsLengthGap (lengthGap text.length entry.2.len)
      match ← verify build p d.hash tenant text mode (survivors.map Prod.fst) with
      | .error panic => return .error panic
      | .ok hits => return .ok ((hits.mergeSort fun a b => (a.cmp b).isLE).take limit)
  else .fail (.fuzzyOutOfRange index)

section Notes

variable {keys : List Posting} {key : Posting} {seen : List (LocalId × Candidate)} {a : LocalId}
  {c : Candidate}

theorem anchors_note (key : Posting) (seen : List (LocalId × Candidate)) :
    (note key seen).map Prod.fst = if key.anchor ∈ seen.map Prod.fst then seen.map Prod.fst
      else seen.map Prod.fst ++ [key.anchor] := by
  induction seen with
  | nil => rfl
  | cons entry seen ih =>
    obtain ⟨b, c⟩ := entry
    by_cases hb : b = key.anchor
    · simp [note, hb]
    · have hb' : key.anchor ≠ b := Ne.symm hb
      simp only [note, hb, if_false, List.map_cons, ih, List.mem_cons, hb', false_or]
      split <;> rfl

theorem mem_note (hnodup : (seen.map Prod.fst).Nodup) (h : (a, c) ∈ note key seen) :
    (a ≠ key.anchor ∧ (a, c) ∈ seen) ∨
      (a = key.anchor ∧ ∃ c₀, (a, c₀) ∈ seen ∧ c = { c₀ with shared := c₀.shared + 1 }) ∨
      (a = key.anchor ∧ a ∉ seen.map Prod.fst ∧ c = ⟨1, (keyLen key.field).getD 0⟩) := by
  induction seen with
  | nil =>
    obtain ⟨rfl, rfl⟩ := Prod.mk.inj (List.mem_singleton.mp h)
    exact .inr (.inr ⟨rfl, by simp, rfl⟩)
  | cons entry seen ih =>
    obtain ⟨b, c₁⟩ := entry
    rw [List.map_cons, List.nodup_cons] at hnodup
    by_cases hb : b = key.anchor
    · rw [note, if_pos hb, List.mem_cons] at h
      rcases h with h | h
      · obtain ⟨rfl, rfl⟩ := Prod.mk.inj h
        exact .inr (.inl ⟨hb, c₁, List.mem_cons_self, rfl⟩)
      · have hne : a ≠ key.anchor := fun heq =>
          hnodup.1 (List.mem_map.mpr ⟨(a, c), h, heq.trans hb.symm⟩)
        exact .inl ⟨hne, List.mem_cons_of_mem _ h⟩
    · rw [note, if_neg hb, List.mem_cons] at h
      rcases h with h | h
      · obtain ⟨rfl, rfl⟩ := Prod.mk.inj h
        exact .inl ⟨hb, List.mem_cons_self⟩
      · rcases ih hnodup.2 h with ⟨hne, hmem⟩ | ⟨heq, c₀, hmem, rfl⟩ | ⟨heq, hnot, rfl⟩
        · exact .inl ⟨hne, List.mem_cons_of_mem _ hmem⟩
        · exact .inr (.inl ⟨heq, c₀, List.mem_cons_of_mem _ hmem, rfl⟩)
        · refine .inr (.inr ⟨heq, ?_, rfl⟩)
          rw [List.map_cons, List.mem_cons, not_or]
          exact ⟨fun hab => hb (hab.symm.trans heq), hnot⟩

-- One entry for each record of the postings, with their number and a length one of them
-- tells.
structure Noted (keys : List Posting) (seen : List (LocalId × Candidate)) : Prop where
  nodup : (seen.map Prod.fst).Nodup
  complete : ∀ a, a ∈ seen.map Prod.fst ↔ ∃ key ∈ keys, key.anchor = a
  counts : ∀ a c, (a, c) ∈ seen → c.shared = keys.countP (·.anchor = a) ∧
    ∃ key ∈ keys, key.anchor = a ∧ c.len = (keyLen key.field).getD 0

theorem Noted.note (h : Noted keys seen) (key : Posting) :
    Noted (keys ++ [key]) (note key seen) := by
  have hanchors := anchors_note key seen
  refine ⟨?_, fun a => ?_, fun a c hmem => ?_⟩
  · rw [hanchors]
    split
    · exact h.nodup
    · next hnot => exact List.nodup_append.mpr ⟨h.nodup, List.nodup_singleton _, fun x hx y hy hxy => by
        rw [List.mem_singleton.mp hy] at hxy
        exact hnot (hxy ▸ hx)⟩
  · have hiff : (∃ k ∈ keys ++ [key], k.anchor = a) ↔ a ∈ seen.map Prod.fst ∨ key.anchor = a := by
      rw [h.complete]
      simp [or_and_right, exists_or]
    rw [hanchors, hiff]
    split
    · next hin =>
        constructor
        · exact .inl
        · rintro (hmem | rfl)
          · exact hmem
          · exact hin
    · simp [eq_comm]
  · rw [List.countP_append, List.countP_singleton]
    rcases mem_note h.nodup hmem with ⟨hne, hold⟩ | ⟨rfl, c₀, hold, rfl⟩ | ⟨rfl, hnot, rfl⟩
    · obtain ⟨hcount, k, hk, hka, hlen⟩ := h.counts a c hold
      have hne' : ¬key.anchor = a := fun heq => hne heq.symm
      refine ⟨by simp [hcount, hne'], k, List.mem_append_left _ hk, hka, hlen⟩
    · obtain ⟨hcount, k, hk, hka, hlen⟩ := h.counts _ c₀ hold
      refine ⟨by simp [hcount], k, List.mem_append_left _ hk, hka, hlen⟩
    · have hzero : keys.countP (·.anchor = key.anchor) = 0 := by
        rw [List.countP_eq_zero]
        intro k hk
        simp only [decide_eq_true_eq]
        exact fun hka => hnot ((h.complete _).mpr ⟨k, hk, hka⟩)
      exact ⟨by simp [hzero], key, by simp, rfl, rfl⟩

theorem noted_noteAll (keys : List Posting) : Noted keys (noteAll keys) := by
  induction keys using List.reverseRecOn with
  | nil => exact ⟨List.nodup_nil, by simp [noteAll], by simp [noteAll]⟩
  | append_singleton keys key ih =>
    rw [noteAll, List.foldl_append]
    exact ih.note key

end Notes

section Scans

variable {p : Profile T} {tree : List Posting} {living : Living T} {index : Fin d.numFuzzy}
  {a : LocalId} {instant : Nat} {header : Metadata} {value : T}

theorem mem_grams {text : List Char} {gram : List UInt8} :
    gram ∈ p.grams text ↔ gram ∈ gramPrefixes text p.n := Finset.mem_sort _

theorem length_of_mem_gramPrefixes {text : List Char} {n : Nat} {gram : List UInt8}
    (h : gram ∈ gramPrefixes text n) : gram.length = 4 * max n 1 := by
  obtain ⟨window, hwindow, rfl⟩ := List.mem_map.mp (List.mem_toFinset.mp h)
  rw [length_gramKey, (mem_windows_iff.mp hwindow).2]

-- A scan finds the postings of its own gram: all grams are of one width.
theorem isPrefix_fieldKey {q s : List Char} {n len : Nat} {gram other : List UInt8}
    (hgram : gram ∈ gramPrefixes q n) (hother : other ∈ gramPrefixes s n) :
    gram <+: fieldKey other len ↔ gram = other := by
  have hlen := (length_of_mem_gramPrefixes hgram).trans (length_of_mem_gramPrefixes hother).symm
  constructor
  · rintro ⟨rest, hrest⟩
    exact (List.append_inj hrest hlen).1
  · rintro rfl
    exact List.prefix_append _ _

variable (hfields : ∀ value, d.fuzzyFields index value = p.fields value)
  (htree : Indexes id SecKey.anchor (fun anchor r => Catalog.fuzzyKeys index r.2.2 anchor) living tree)

include hfields htree

theorem mem_tree_living (hliving : living a = some (instant, header, value)) {key : Posting}
    (ha : key.anchor = a) : key ∈ tree ↔
      ∃ gram ∈ gramPrefixes (p.text value) p.n, key.field = fieldKey gram (p.text value).length := by
  rw [htree.mem_living hliving ha, Catalog.fuzzyKeys, hfields, Profile.fields]
  obtain ⟨field, anchor⟩ := key
  change anchor = a at ha
  subst ha
  simp only [List.map_map, List.mem_map, Function.comp_apply, mem_grams, SecKey.mk.injEq, and_true]
  exact exists_congr fun gram => and_congr_right fun _ => eq_comm

theorem countP_scan (hliving : living a = some (instant, header, value)) {q : List Char}
    {gram : List UInt8} (hgram : gram ∈ gramPrefixes q p.n) :
    (scan tree gram).countP (·.anchor = a) =
      if gram ∈ gramPrefixes (p.text value) p.n then 1 else 0 := by
  rw [scan, List.countP_eq_length_filter, List.filter_filter]
  have hnodup : tree.Nodup := htree.ascending.imp fun h => h.ne
  have hmem : ∀ key, key ∈ tree.filter (fun key => decide (key.anchor = a) &&
      NodeKey.inBound key (.keyPrefix gram)) ↔
      gram ∈ gramPrefixes (p.text value) p.n ∧ key = ⟨fieldKey gram (p.text value).length, a⟩ := by
    intro key
    simp only [List.mem_filter, Bool.and_eq_true, decide_eq_true_eq, NodeKey.inBound, Bound.contains,
      List.isPrefixOf_iff_prefix]
    constructor
    · rintro ⟨htree', ha, hprefix⟩
      obtain ⟨other, hother, hfield⟩ := (mem_tree_living hfields htree hliving ha).mp htree'
      rw [hfield, isPrefix_fieldKey hgram hother] at hprefix
      subst hprefix
      exact ⟨hother, by cases key; simp_all⟩
    · rintro ⟨hin, rfl⟩
      exact ⟨(mem_tree_living hfields htree hliving rfl).mpr ⟨gram, hin, rfl⟩, rfl,
        List.prefix_append _ _⟩
  split
  · next hin =>
      have hperm : (tree.filter fun key => decide (key.anchor = a) &&
          NodeKey.inBound key (.keyPrefix gram)).Perm [⟨fieldKey gram (p.text value).length, a⟩] :=
        (List.perm_ext_iff_of_nodup (hnodup.filter _) (List.nodup_singleton _)).mpr fun key => by
          rw [hmem, List.mem_singleton, and_iff_right hin]
      exact hperm.length_eq
  · next hnot =>
      rw [List.length_eq_zero_iff, List.eq_nil_iff_forall_not_mem]
      exact fun key hkey => hnot ((hmem key).mp hkey).1

-- The share count of a living record: the distinct grams it has in common
-- with the query.
theorem shared_eq (hliving : living a = some (instant, header, value)) (q : List Char) :
    ((p.grams q).flatMap (scan tree)).countP (·.anchor = a) =
      (gramPrefixes q p.n ∩ gramPrefixes (p.text value) p.n).card := by
  have hsum : (p.grams q).map (List.countP (·.anchor = a) ∘ scan tree) =
      (p.grams q).map fun gram => if gram ∈ gramPrefixes (p.text value) p.n then 1 else 0 :=
    List.map_congr_left fun gram hgram =>
      countP_scan hfields htree hliving (mem_grams.mp hgram)
  have hnodup : (p.grams q).Nodup := Finset.sort_nodup _ _
  have hset : (p.grams q).toFinset = gramPrefixes q p.n := Finset.sort_toFinset _ _
  rw [List.countP_flatMap, hsum, ← List.sum_toFinset _ hnodup, hset, ← Finset.card_filter,
    Finset.filter_mem_eq_inter]

theorem noted_living (q : List Char) {c : Candidate}
    (hmem : (a, c) ∈ noteAll ((p.grams q).flatMap (scan tree))) :
    ∃ instant header value, living a = some (instant, header, value) ∧
      c.shared = (gramPrefixes q p.n ∩ gramPrefixes (p.text value) p.n).card ∧
      ∃ gram, c.len = (keyLen (fieldKey gram (p.text value).length)).getD 0 := by
  obtain ⟨hcount, key, hkey, ha, hlen⟩ := (noted_noteAll _).counts a c hmem
  obtain ⟨gram, -, hscan⟩ := List.mem_flatMap.mp hkey
  have htree' : key ∈ tree := (List.mem_filter.mp hscan).1
  obtain ⟨⟨instant, header, value⟩, hliving, -⟩ := (htree.mem key).mp htree'
  rw [ha] at hliving
  obtain ⟨other, -, hfield⟩ := (mem_tree_living hfields htree hliving ha).mp htree'
  refine ⟨instant, header, value, hliving, ?_, other, ?_⟩
  · rw [hcount, shared_eq hfields htree hliving q]
  · rw [hlen, hfield]

theorem noted_of_shared (hliving : living a = some (instant, header, value)) {q : List Char}
    (hshared : 0 < (gramPrefixes q p.n ∩ gramPrefixes (p.text value) p.n).card) :
    ∃ c, (a, c) ∈ noteAll ((p.grams q).flatMap (scan tree)) := by
  rw [← shared_eq hfields htree hliving q, List.countP_pos_iff] at hshared
  obtain ⟨key, hkey, ha⟩ := hshared
  have hin := ((noted_noteAll _).complete a).mpr ⟨key, hkey, by simpa using ha⟩
  obtain ⟨⟨b, c⟩, hc, rfl⟩ := List.mem_map.mp hin
  exact ⟨c, hc⟩

end Scans

section Verify

variable [DecidableEq T] {p : Profile T} {q : List Char} {k tenant : Nat}

def hitsAt (p : Profile T) (q : List Char) (k tenant : Nat) (s : Store (Stored T)) (a : LocalId) :
    List (Hit T) :=
  match s (a.toId tenant) with
  | none => []
  | some (_, value) =>
    if levenshtein q (p.text value) ≤ k then
      [⟨a.toId tenant, value, .distance (levenshtein q (p.text value))⟩]
    else []

theorem runIn_verify (build : Build) (hash : Nat) (anchors : List LocalId) {w : World (Stored T)}
    (hfits : ∀ a ∈ anchors, ∀ stored ∈ w.store (a.toId tenant),
      max q.length (p.text stored.2).length + k ≤ usizeMax) :
    (verify build p hash tenant q (.distance k) anchors).runIn w =
      (.ok (.ok (anchors.flatMap (hitsAt p q k tenant w.store))), w) := by
  induction anchors with
  | nil => rfl
  | cons a anchors ih =>
    have ih := ih fun b hb => hfits b (List.mem_cons_of_mem _ hb)
    rw [verify, Engine.runIn_bind_ok (Engine.runIn_getOf _ _ _), List.flatMap_cons, hitsAt]
    cases hstore : w.store (a.toId tenant) with
    | none => exact ih
    | some stored =>
      obtain ⟨header, value⟩ := stored
      have hscore : p.score build q value (.distance k) = .ok
          (if levenshtein q (p.text value) ≤ k then
            some (.distance (levenshtein q (p.text value))) else none) := by
        rw [Profile.score, levenshteinWithin_spec _ _ _ _ (hfits a List.mem_cons_self _ hstore)]
        split <;> rfl
      simp only [hscore]
      rw [Engine.runIn_bind_ok ih]
      by_cases hd : levenshtein q (p.text value) ≤ k
      · simp only [if_pos hd]
        rfl
      · simp only [if_neg hd]
        rfl

omit [DecidableEq T] in
theorem mem_hitsAt {s : Store (Stored T)} {a : LocalId} {hit : Hit T} :
    hit ∈ hitsAt p q k tenant s a ↔ hit.id = a.toId tenant ∧
      (∃ header, s (a.toId tenant) = some (header, hit.value)) ∧
      hit.score = .distance (levenshtein q (p.text hit.value)) ∧
      levenshtein q (p.text hit.value) ≤ k := by
  obtain ⟨id, value, score⟩ := hit
  rw [hitsAt]
  cases hstore : s (a.toId tenant) with
  | none => simp
  | some stored =>
    obtain ⟨header, value'⟩ := stored
    by_cases hd : levenshtein q (p.text value') ≤ k
    · simp only [if_pos hd, List.mem_singleton, Hit.mk.injEq, Option.some.injEq, Prod.mk.injEq]
      constructor
      · rintro ⟨rfl, rfl, rfl⟩
        exact ⟨rfl, ⟨header, rfl, rfl⟩, rfl, hd⟩
      · rintro ⟨rfl, ⟨-, -, rfl⟩, rfl, -⟩
        exact ⟨rfl, rfl, rfl⟩
    · simp only [if_neg hd, List.not_mem_nil, Option.some.injEq, Prod.mk.injEq, false_iff]
      rintro ⟨-, ⟨-, -, rfl⟩, -, hle⟩
      exact hd hle

omit [DecidableEq T] in
theorem length_hitsAt_le (s : Store (Stored T)) (a : LocalId) :
    (hitsAt p q k tenant s a).length ≤ 1 := by
  unfold hitsAt
  split
  · exact Nat.zero_le _
  · split
    · exact le_rfl
    · exact Nat.zero_le _

omit [DecidableEq T] in
theorem length_hits_le (s : Store (Stored T)) (anchors : List LocalId) :
    (anchors.flatMap (hitsAt p q k tenant s)).length ≤ anchors.length := by
  induction anchors with
  | nil => exact le_rfl
  | cons a anchors ih =>
    have ha : (hitsAt p q k tenant s a).length ≤ 1 := length_hitsAt_le s a
    rw [List.flatMap_cons, List.length_append, List.length_cons]
    omega

omit [DecidableEq T] in
theorem pairwise_hits (s : Store (Stored T)) {anchors : List LocalId} (hnodup : anchors.Nodup) :
    (anchors.flatMap (hitsAt p q k tenant s)).Pairwise fun a b => a.id ≠ b.id := by
  rw [List.pairwise_flatMap]
  constructor
  · intro a _
    unfold hitsAt
    split
    · exact List.Pairwise.nil
    · split
      · exact List.pairwise_singleton _ _
      · exact List.Pairwise.nil
  · refine hnodup.imp fun {a b} hne hit hhit other hother heq => hne ?_
    rw [(mem_hitsAt.mp hhit).1, (mem_hitsAt.mp hother).1] at heq
    exact LocalId.toId_inj.mp heq

end Verify

section Order

def Hit.Before (a b : Hit T) : Prop :=
  ∃ i j, a.score = .distance i ∧ b.score = .distance j ∧
    (i < j ∨ i = j ∧ LocalId.ofId a.id < LocalId.ofId b.id)

def Hit.sortKey (hit : Hit T) : Nat ×ₗ Nat ×ₗ Nat ×ₗ Nat :=
  toLex (match hit.score with
    | .distance d => d
    | .ratio _ => 0, toLex (hit.id.key, toLex (hit.id.tenant, hit.id.lower)))

theorem isLE_then_compare {i j : Nat} {o : Ordering} :
    ((compare i j).then o).isLE ↔ i < j ∨ i = j ∧ o.isLE := by
  rcases lt_trichotomy i j with h | h | h
  · simp [Nat.compare_eq_lt.mpr h, h]
  · simp [h]
  · simp [Nat.compare_eq_gt.mpr h, h.not_gt, h.ne']

theorem Hit.isLE_cmp {a b : Hit T} {i j : Nat} (ha : a.score = .distance i)
    (hb : b.score = .distance j) (hi : i < 2 ^ 53) (hj : j < 2 ^ 53) :
    (a.cmp b).isLE = decide (a.sortKey ≤ b.sortKey) := by
  have hexact : ∀ {d}, d < 2 ^ 53 → asF64 d = d := fun h => if_pos h
  rw [Bool.eq_iff_iff, decide_eq_true_eq, Hit.cmp, Hit.sortKey, Hit.sortKey, ha, hb, Score.cmp,
    hexact hi, hexact hj, isLE_then_compare, isLE_then_compare, isLE_then_compare,
    Prod.Lex.toLex_le_toLex, Prod.Lex.toLex_le_toLex, Prod.Lex.toLex_le_toLex]
  simp [Nat.isLE_compare]

theorem before_of_sortKey_le {a b : Hit T} {i j : Nat} (ha : a.score = .distance i)
    (hb : b.score = .distance j) (htenant : a.id.tenant = b.id.tenant) (hne : a.id ≠ b.id)
    (hle : a.sortKey ≤ b.sortKey) : a.Before b := by
  refine ⟨i, j, ha, hb, ?_⟩
  rw [Hit.sortKey, Hit.sortKey, ha, hb] at hle
  simp only [Prod.Lex.toLex_le_toLex, htenant] at hle
  rcases hle with hlt | ⟨heq, hid⟩
  · exact .inl hlt
  · refine .inr ⟨heq, ?_⟩
    change LocalId.asPair _ < LocalId.asPair _
    rw [LocalId.asPair, LocalId.asPair, Prod.Lex.toLex_lt_toLex]
    rcases hid with hlt | ⟨hkey, hlower⟩
    · exact .inl hlt
    · have hle : a.id.lower ≤ b.id.lower := by simpa using hlower
      refine .inr ⟨hkey, lt_of_le_of_ne hle fun heq => hne ?_⟩
      change a.id.key = b.id.key at hkey
      change a.id.lower = b.id.lower at heq
      have hsame : LocalId.ofId a.id = LocalId.ofId b.id := by
        rw [LocalId.ofId, LocalId.ofId, hkey, heq]
      calc a.id = (LocalId.ofId a.id).toId b.id.tenant := (toId_ofId htenant).symm
        _ = b.id := by rw [hsame, toId_ofId rfl]

theorem sorted_hits {hits : List (Hit T)} (tenant : Nat)
    (hscore : ∀ hit ∈ hits, ∃ i < 2 ^ 53, hit.score = .distance i)
    (htenant : ∀ hit ∈ hits, hit.id.tenant = tenant)
    (hdistinct : hits.Pairwise fun a b => a.id ≠ b.id) :
    (hits.mergeSort fun a b => (a.cmp b).isLE).Pairwise Hit.Before := by
  have hagree : (hits.mergeSort fun a b => (a.cmp b).isLE) =
      hits.mergeSort fun a b => decide (a.sortKey ≤ b.sortKey) := by
    have hmap := List.map_mergeSort (l := hits) (f := id) (r := fun a b => (a.cmp b).isLE)
      (s := fun a b => decide (a.sortKey ≤ b.sortKey)) fun a ha b hb => by
        obtain ⟨i, hi, hai⟩ := hscore a ha
        obtain ⟨j, hj, hbj⟩ := hscore b hb
        exact Hit.isLE_cmp hai hbj hi hj
    simpa using hmap
  rw [hagree]
  have hperm := List.mergeSort_perm hits fun a b => decide (a.sortKey ≤ b.sortKey)
  have hsorted : (hits.mergeSort fun a b => decide (a.sortKey ≤ b.sortKey)).Pairwise
      fun a b => decide (a.sortKey ≤ b.sortKey) = true := List.pairwise_mergeSort
    (fun a b c hab hbc => by simpa using (of_decide_eq_true hab).trans (of_decide_eq_true hbc))
    (fun a b => by simpa using le_total a.sortKey b.sortKey) hits
  have hids := (hperm.pairwise_iff fun h => Ne.symm h).mpr hdistinct
  refine (hsorted.and hids).imp_of_mem fun {a b} ha hb h => ?_
  have ha := hperm.mem_iff.mp ha
  have hb := hperm.mem_iff.mp hb
  obtain ⟨i, -, hai⟩ := hscore a ha
  obtain ⟨j, -, hbj⟩ := hscore b hb
  exact before_of_sortKey_le hai hbj ((htenant a ha).trans (htenant b hb).symm) h.2
    (of_decide_eq_true h.1)

end Order

section Exact

variable [DecidableEq T] {p : Profile T} {tenant k limit index : Nat} {x : Whole d}
  {living : Living T} {iter : List (LocalId × Candidate) → List (LocalId × Candidate)}
  {query : String}

def survivors (p : Profile T) (q : List Char) (k : Nat) (seen : List (LocalId × Candidate)) :
    List LocalId :=
  (seen.filter fun entry => (gramPrefixes q p.n).card - p.n * k ≤ entry.2.shared &&
    (Mode.distance k).allowsLengthGap (lengthGap q.length entry.2.len)).map Prod.fst

omit [DecidableEq T] in
theorem length_grams (q : List Char) : (p.grams q).length = (gramPrefixes q p.n).card :=
  Finset.length_sort _

omit [DecidableEq T] in
-- It has a gram in common with the query, so a scan has come by it, and the filters
-- keep it.
theorem mem_survivors (hindex : index < d.numFuzzy)
    (hfields : ∀ value, d.fuzzyFields ⟨index, hindex⟩ value = p.fields value)
    (hheld : Held living x.catalog) (hiter : ∀ l, (iter l).Perm l) (hn : 1 ≤ p.n) {q : List Char}
    (hgrams : p.n * k < (gramPrefixes q p.n).card) {a : LocalId} {instant : Nat} {header : Metadata}
    {value : T} (hliving : living a = some (instant, header, value))
    (hdist : levenshtein q (p.text value) ≤ k) :
    a ∈ survivors p q k
      (iter (noteAll ((p.grams q).flatMap (scan (x.catalog.fuzzy ⟨index, hindex⟩))))) := by
  have htree := hheld.fuzzy ⟨index, hindex⟩
  have hshared := card_gramPrefixes_le hn q (p.text value)
  have hlost := Nat.mul_le_mul_left p.n hdist
  obtain ⟨c, hc⟩ := noted_of_shared hfields htree hliving (q := q) (by omega)
  obtain ⟨instant', header', value', hliving', hcount, gram, hlen⟩ :=
    noted_living hfields htree q hc
  cases hliving.symm.trans hliving'
  have hq := length_le_levenshtein q (p.text value)
  have hs := length_le_levenshtein (p.text value) q
  rw [levenshtein_comm (p.text value) q] at hs
  obtain ⟨stored, hstored, hgap⟩ := lengthGap_le (k := k) (show q.length ≤ (p.text value).length + k by omega)
    (by omega) gram
  rw [hstored, Option.getD_some] at hlen
  refine List.mem_map.mpr ⟨(a, c), List.mem_filter.mpr ⟨(hiter _).mem_iff.mpr hc, ?_⟩, rfl⟩
  simp only [Mode.allowsLengthGap, Bool.and_eq_true, decide_eq_true_eq, hlen]
  exact ⟨by omega, hgap⟩

omit [DecidableEq T] in
theorem nodup_survivors (hiter : ∀ l, (iter l).Perm l) (q : List Char) (k : Nat) (keys : List Posting) :
    (survivors p q k (iter (noteAll keys))).Nodup := by
  have hall : ((iter (noteAll keys)).map Prod.fst).Nodup :=
    ((hiter _).map Prod.fst).nodup_iff.mpr (noted_noteAll keys).nodup
  exact hall.sublist (List.filter_sublist.map Prod.fst)

omit [DecidableEq T] in
theorem living_of_mem_survivors (hindex : index < d.numFuzzy)
    (hfields : ∀ value, d.fuzzyFields ⟨index, hindex⟩ value = p.fields value)
    (hheld : Held living x.catalog) (hiter : ∀ l, (iter l).Perm l) {q : List Char} {a : LocalId}
    (h : a ∈ survivors p q k
      (iter (noteAll ((p.grams q).flatMap (scan (x.catalog.fuzzy ⟨index, hindex⟩)))))) :
    ∃ instant header value, living a = some (instant, header, value) := by
  obtain ⟨⟨b, c⟩, hmem, rfl⟩ := List.mem_map.mp h
  have hseen := (hiter _).mem_iff.mp (List.mem_filter.mp hmem).1
  obtain ⟨instant, header, value, hliving, -⟩ :=
    noted_living hfields (hheld.fuzzy ⟨index, hindex⟩) q hseen
  exact ⟨instant, header, value, hliving⟩

omit [DecidableEq T] in
theorem finite_living (hheld : Held living x.catalog) : {a | (living a).isSome}.Finite := by
  refine (List.finite_toSet (x.catalog.chains.recency.map Key.anchor)).subset fun a ha => ?_
  obtain ⟨⟨instant, record⟩, hr⟩ := Option.isSome_iff_exists.mp ha
  exact List.mem_map.mpr ⟨_, hheld.toWalked.mem_recency.mpr ⟨record, hr⟩, rfl⟩

omit [DecidableEq T] in
theorem mem_hits (hindex : index < d.numFuzzy)
    (hfields : ∀ value, d.fuzzyFields ⟨index, hindex⟩ value = p.fields value)
    (hfaith : Faithful tenant x living) (hiter : ∀ l, (iter l).Perm l) (hn : 1 ≤ p.n) {q : List Char}
    (hgrams : p.n * k < (gramPrefixes q p.n).card) (hit : Hit T) :
    hit ∈ (survivors p q k (iter (noteAll ((p.grams q).flatMap
        (scan (x.catalog.fuzzy ⟨index, hindex⟩)))))).flatMap (hitsAt p q k tenant x.store) ↔
      ∃ a instant header, living a = some (instant, header, hit.value) ∧ hit.id = a.toId tenant ∧
        hit.score = .distance (levenshtein q (p.text hit.value)) ∧
        levenshtein q (p.text hit.value) ≤ k := by
  rw [List.mem_flatMap]
  constructor
  · rintro ⟨a, ha, hhit⟩
    obtain ⟨hid, ⟨header, hstore⟩, hscore⟩ := mem_hitsAt.mp hhit
    obtain ⟨instant, header', value, hl⟩ :=
      living_of_mem_survivors hindex hfields hfaith.held hiter ha
    rw [hfaith.store_of_living hl] at hstore
    cases hstore
    exact ⟨a, instant, header, hl, hid, hscore⟩
  · rintro ⟨a, instant, header, hl, hid, hscore, hdist⟩
    exact ⟨a, mem_survivors hindex hfields hfaith.held hiter hn hgrams hl hdist,
      mem_hitsAt.mpr ⟨hid, ⟨header, hfaith.store_of_living hl⟩, hscore, hdist⟩⟩

theorem runIn_fuzzySearch (build : Build) (limit : Nat) (hits : List (Hit T))
    (hindex : index < d.numFuzzy) (hword : p.n * k < 2 ^ 64) {cat : Catalog d}
    {w : World (Stored T)}
    (hverify : (verify build p d.hash tenant (p.normalize query) (.distance k)
      (survivors p (p.normalize query) k (iter (noteAll ((p.grams (p.normalize query)).flatMap
        (scan (cat.fuzzy ⟨index, hindex⟩))))))).runIn w = (.ok (.ok hits), w)) :
    (cat.fuzzySearch build p tenant iter index query (.distance k) limit).runIn w =
      (.ok (.ok ((hits.mergeSort fun a b => (a.cmp b).isLE).take limit)), w) := by
  have hthreshold : (Mode.distance k).threshold build (p.grams (p.normalize query)).length p.n =
      .ok ((gramPrefixes (p.normalize query) p.n).card - p.n * k) := by
    have hfits : build.word (p.n * k) = .ok (p.n * k) := if_pos (Nat.le_sub_one_of_lt hword)
    rw [Mode.threshold, hfits, length_grams]
    rfl
  rw [Catalog.fuzzySearch, dif_pos hindex]
  simp only [hthreshold]
  exact Engine.runIn_bind_ok hverify

end Exact

def wordProfile : Profile String := ⟨3, String.toList, id⟩

def words : Declaration String (List UInt8) where
  hash := 7
  naturalKey := none
  numLists := 0
  listField := Fin.elim0
  numSecondaries := 0
  secondaryField := Fin.elim0
  numFuzzy := 1
  fuzzyFields _ value := wordProfile.fields value

def wordHandle : Handle := ⟨⟨1, 0⟩, 1, 1⟩

def noWords : Whole words := ⟨fun _ => none, .empty words⟩

def wordWorld : World (Stored String) := ⟨fun _ => none, fun n => n + 5, 0⟩

def wordAnchor : LocalId := .ofId (Id.new 5 1 false (typeSalt 7))

def oneWord (word : String) : Whole words :=
  noWords.after ((noWords.catalog.perform wordHandle (.insert word)).runIn wordWorld)

def oneLiving (word : String) : Living String :=
  Function.update (fun _ => none) wordAnchor (some (5, wordHandle.firstMeta 5, word))

theorem built_oneWord (word : String) : Built words 1 (oneWord word) (oneLiving word) :=
  .operate wordHandle (.insert word) (.create _ fun _ => rfl) rfl trivial rfl
    (show (5 : Nat) < 2 ^ 64 - 1 by decide)

theorem ncard_oneLiving (word : String) : {a | (oneLiving word a).isSome}.ncard ≤ 1 := by
  refine (Set.ncard_le_ncard (fun a ha => ?_) (Set.finite_singleton wordAnchor)).trans_eq
    (Set.ncard_singleton wordAnchor)
  by_contra hne
  have hne : a ≠ wordAnchor := hne
  simp [oneLiving, Function.update_of_ne hne] at ha

theorem value_of_oneLiving {word value : String} {a : LocalId} {instant : Nat} {header : Metadata}
    (h : oneLiving word a = some (instant, header, value)) : value = word := by
  by_cases ha : a = wordAnchor
  · rw [oneLiving, ha, Function.update_self] at h
    cases h
    rfl
  · rw [oneLiving, Function.update_of_ne ha] at h
    cases h

def wordReader (word : String) : World (Stored String) := ⟨(oneWord word).store, fun n => n, 0⟩

end WaveDb.Collection
