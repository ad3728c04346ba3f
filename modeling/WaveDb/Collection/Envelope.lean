import WaveDb.Core.RecordBytes
import WaveDb.Index.Sparse
import WaveDb.Collection.Catalog

-- The stored forms of tree nodes, chain segments and sparse index nodes, next to
-- that of records.
namespace WaveDb.Collection

open WaveDb.Lib WaveDb.Core WaveDb.Wire WaveDb.Index
open Filter (atTop)

variable {Γ : Env} {K P : Type}

section Codecs

def secKey : Codec Γ (SecKey (List UInt8)) :=
  (Codec.bytes.pair localId).iso (fun k => (k.field, k.anchor)) (fun p => ⟨p.1, p.2⟩) fun _ _ => rfl

def slot : Codec Γ (Slot (SecKey (List UInt8))) :=
  (secKey.triple localId (Codec.uint .u64)).iso (fun s => (s.first, s.seg, s.count))
    (fun p => ⟨p.1, p.2.1, p.2.2⟩) fun _ _ => rfl

def branch : Codec Γ (Branch (SecKey (List UInt8))) :=
  (secKey.triple localId (Codec.uint .u64)).iso (fun b => (b.first, b.node, b.count))
    (fun p => ⟨p.1, p.2.1, p.2.2⟩) fun _ _ => rfl

-- `(prev, next, entries)` in the layout of a tuple.
def segment (p : Codec Γ P) : Codec Γ (Segment (SecKey (List UInt8)) P) :=
  (localId.option.triple localId.option (secKey.pair p).list).iso
    (fun s => (s.prev, s.next, s.entries)) (fun q => ⟨q.1, q.2.1, q.2.2⟩) fun _ _ => rfl

structure KeySized (k : Codec Γ K) : Prop where
  pos : 0 < Γ.stackSize k.ty
  sized : k.ty.UnitsSized Γ

theorem keySized_localId : KeySized (localId (Γ := Γ)) := ⟨Nat.succ_pos 9, localId_sized⟩

theorem keySized_secKey : KeySized (secKey (Γ := Γ)) :=
  ⟨Nat.succ_pos 13, ⟨Nat.one_pos, trivial⟩, localId_sized, trivial⟩

theorem segment_sized {p : Codec Γ P} (hp : p.ty.UnitsSized Γ) : (segment p).ty.UnitsSized Γ :=
  ⟨localId_sized, localId_sized, ⟨Nat.add_pos_left keySized_secKey.pos _,
    keySized_secKey.sized, hp, trivial⟩, trivial⟩

end Codecs

section Tags

variable {X Y : Type} (bad : Nat → Core.Error) (hash : Nat) (buf : List UInt8)

def untag : Except Unread (List UInt8) :=
  match headOf buf with
  | none => .error (.refused (bad 0))
  | some tag =>
    if tag ≠ hash then .error (.refused (bad tag))
    else ofWire (slice buf 8 buf.length)

def untagKind : Except Unread (UInt8 × List UInt8) :=
  match headOf buf with
  | none => .error (.refused (bad 0))
  | some tag =>
    if tag ≠ hash then .error (.refused (bad tag))
    else
      match buf[8]? with
      | none => .error (.refused (bad tag))
      | some kind => do
          let payload ← ofWire (slice buf 9 buf.length)
          return (kind, payload)

variable {bad hash buf}

theorem refused_untag (h : headOf buf ≠ some hash) : Refused (untag bad hash buf) := by
  rw [untag]
  cases hhead : headOf buf with
  | none => exact ⟨_, rfl⟩
  | some tag => exact ⟨_, if_pos fun heq => h (by rw [hhead, heq])⟩

theorem refused_untagKind (h : headOf buf ≠ some hash) : Refused (untagKind bad hash buf) := by
  rw [untagKind]
  cases hhead : headOf buf with
  | none => exact ⟨_, rfl⟩
  | some tag => exact ⟨_, if_pos fun heq => h (by rw [hhead, heq])⟩

theorem untag_append (h : hash < 2 ^ 64) (rest : List UInt8) :
    untag bad hash (leBytes 8 hash ++ rest) = .ok rest := by
  have hlen : (leBytes 8 hash ++ rest).length = 8 + rest.length := by simp
  rw [untag, headOf_append h]
  simp only [ne_eq, not_true_eq_false, if_false]
  rw [Cursor.slice_eq _ (by omega) (Nat.le_refl _), List.drop_left' (length_leBytes 8 hash), hlen,
    Nat.add_sub_cancel_left, List.take_length]
  rfl

theorem untagKind_append (h : hash < 2 ^ 64) (kind : UInt8) (rest : List UInt8) :
    untagKind bad hash (leBytes 8 hash ++ kind :: rest) = .ok (kind, rest) := by
  have hlen : (leBytes 8 hash ++ kind :: rest).length = 9 + rest.length := by
    simp
    omega
  have hkind : (leBytes 8 hash ++ kind :: rest)[8]? = some kind := by
    rw [List.getElem?_append_right (by simp)]
    simp
  have hrest : (leBytes 8 hash ++ kind :: rest).drop 9 = rest := by
    rw [show 9 = 8 + 1 from rfl, ← List.drop_drop, List.drop_left' (length_leBytes 8 hash)]
    rfl
  rw [untagKind, headOf_append h]
  simp only [ne_eq, not_true_eq_false, if_false, hkind]
  rw [Cursor.slice_eq _ (by omega) (Nat.le_refl _), hrest, hlen, Nat.add_sub_cancel_left,
    List.take_length]
  rfl

theorem untag_cases (bad : Nat → Core.Error) (hash : Nat) (buf : List UInt8) :
    Refused (untag bad hash buf) ∨
    ∃ payload : List UInt8, payload.length ≤ buf.length ∧ untag bad hash buf = .ok payload := by
  by_cases hhead : headOf buf = some hash
  swap
  · exact .inl (refused_untag hhead)
  have h8 := le_length_of_headOf hhead
  right
  refine ⟨(buf.drop 8).take (buf.length - 8), by simp, ?_⟩
  simp only [untag, hhead, ne_eq, not_true_eq_false, if_false, Cursor.slice_eq buf h8 (Nat.le_refl _)]
  rfl

theorem untagKind_cases (bad : Nat → Core.Error) (hash : Nat) (buf : List UInt8) :
    Refused (untagKind bad hash buf) ∨
    ∃ kind, ∃ payload : List UInt8, payload.length ≤ buf.length ∧
      untagKind bad hash buf = .ok (kind, payload) := by
  by_cases hhead : headOf buf = some hash
  swap
  · exact .inl (refused_untagKind hhead)
  simp only [untagKind, hhead, ne_eq, not_true_eq_false, if_false]
  cases hkind : buf[8]? with
  | none => exact .inl ⟨_, rfl⟩
  | some kind =>
    obtain ⟨h9, -⟩ := List.getElem?_eq_some_iff.mp hkind
    right
    refine ⟨kind, (buf.drop 9).take (buf.length - 9), by simp, ?_⟩
    simp only [Cursor.slice_eq buf h9 (Nat.le_refl _)]
    rfl

theorem refused_bind {r : Except Unread X} (h : Refused r) (f : X → Except Unread Y) :
    Refused (r >>= f) := by
  obtain ⟨e, rfl⟩ := h
  exact ⟨e, rfl⟩

theorem settled_bind {r : Except Unread X} {f : X → Except Unread Y} (h : Settled r)
    (hf : ∀ x, Settled (f x)) : Settled (r >>= f) := by
  rcases h with ⟨e, rfl⟩ | ⟨x, rfl⟩
  · exact .inl ⟨e, rfl⟩
  · exact hf x

end Tags

section Nodes

variable (k : Codec Γ K)

def nodeEntries : Codec Γ (List (K × LocalId)) := (k.pair localId).list

def nodeToBytes : NodeBody K → List UInt8
  | .leaf keys => leBytes 8 bptreeNodeStructHash ++ 0 :: k.list.encode keys
  | .internal leftmost entries =>
    leBytes 8 bptreeNodeStructHash ++
      1 :: ((localId (Γ := Γ)).encode leftmost ++ (nodeEntries k).encode entries)

def nodeFromBytes (fuel : Nat) (buf : List UInt8) : Except Unread (NodeBody K) := do
  let (kind, payload) ← untagKind .bpTreeNodeBadTag bptreeNodeStructHash buf
  if kind = 0 then
    let keys ← ofWire (k.list.decode fuel payload)
    return .leaf keys
  else if kind = 1 then
    -- The leftmost child is stack only, so it ends at its stack size.
    let split := (localId (Γ := Γ)).size
    if payload.length < split then .error (.refused .wire)
    else
      let first ← ofWire (slice payload 0 split)
      let leftmost ← ofWire ((localId (Γ := Γ)).decode fuel first)
      let rest ← ofWire (slice payload split payload.length)
      let entries ← ofWire ((nodeEntries k).decode fuel rest)
      return .internal leftmost entries
  else .error (.refused (.bpTreeNodeBadTag bptreeNodeStructHash))

def nodeFits : NodeBody K → Prop
  | .leaf keys => k.list.Fits keys ∧ (k.list.encode keys).length < 2 ^ 32
  | .internal leftmost entries => (localId (Γ := Γ)).Fits leftmost ∧ (nodeEntries k).Fits entries ∧
      ((nodeEntries k).encode entries).length < 2 ^ 32

theorem nodeEntries_sized (hk : KeySized k) : (nodeEntries k).ty.UnitsSized Γ :=
  ⟨Nat.add_pos_left hk.pos _, hk.sized, localId_sized, trivial⟩

theorem headOf_nodeToBytes (node : NodeBody K) :
    headOf (nodeToBytes k node) = some bptreeNodeStructHash := by
  cases node with
  | leaf keys => exact headOf_append (by decide) _
  | internal leftmost entries => exact headOf_append (by decide) _

theorem eventually_nodeFromBytes (hΓ : Γ.UnitsSized) (hk : KeySized k) {node : NodeBody K} (hfits : nodeFits k node) :
    ∀ᶠ fuel in atTop, nodeFromBytes k fuel (nodeToBytes k node) = .ok node := by
  have hhash : bptreeNodeStructHash < 2 ^ 64 := by decide
  cases node with
  | leaf keys =>
    filter_upwards [k.list.eventually_decode_encode hΓ ⟨hk.pos, hk.sized⟩ hfits.1 hfits.2] with fuel hkeys
    rw [nodeFromBytes, nodeToBytes, untagKind_append hhash]
    change (ofWire (k.list.decode fuel (k.list.encode keys)) >>= fun _ => _) = _
    rw [hkeys]
    rfl
  | internal leftmost entries =>
    obtain ⟨hleft, hentries, hsize⟩ := hfits
    have hlen : ((localId (Γ := Γ)).encode leftmost).length = (localId (Γ := Γ)).size := by
      rw [Codec.encode, List.length_append, Codec.length_stack]
      rfl
    have hshort : ((localId (Γ := Γ)).encode leftmost).length < 2 ^ 32 := by
      rw [hlen]
      exact (by decide : 10 < 2 ^ 32)
    filter_upwards [(localId (Γ := Γ)).eventually_decode_encode hΓ localId_sized hleft hshort,
      (nodeEntries k).eventually_decode_encode hΓ (nodeEntries_sized k hk) hentries hsize] with fuel hfirst hrest
    rw [nodeFromBytes, nodeToBytes, untagKind_append hhash]
    generalize hpay : (localId (Γ := Γ)).encode leftmost ++ (nodeEntries k).encode entries = payload
    have hge : (localId (Γ := Γ)).size ≤ payload.length := by
      rw [← hpay, List.length_append]
      omega
    have hfront : slice payload 0 (localId (Γ := Γ)).size = .ok ((localId (Γ := Γ)).encode leftmost) := by
      rw [Cursor.slice_eq _ (Nat.zero_le _) hge, ← hpay]
      exact congrArg _ (List.take_left' hlen)
    have hback : slice payload (localId (Γ := Γ)).size payload.length =
        .ok ((nodeEntries k).encode entries) := by
      rw [Cursor.slice_eq _ hge (Nat.le_refl _), ← hpay, List.drop_left' hlen, List.length_append,
        hlen, Nat.add_sub_cancel_left, List.take_length]
    have hnot : ¬payload.length < (localId (Γ := Γ)).size := by omega
    simp only [bind, Except.bind, hnot, if_false, hfront, hback, ofWire, hfirst, hrest]
    rfl

theorem refused_nodeFromBytes {fuel : Nat} {buf : List UInt8}
    (h : headOf buf ≠ some bptreeNodeStructHash) : Refused (nodeFromBytes k fuel buf) :=
  refused_bind (refused_untagKind h) _

theorem eventually_settled_node (hΓ : Γ.UnitsSized) (hfounded : Γ.Founded) (hk : KeySized k)
    (buf : List UInt8) :
    ∀ᶠ fuel in atTop, Settled (nodeFromBytes k fuel buf) := by
  filter_upwards [k.list.eventually_answered hΓ hfounded ⟨hk.pos, hk.sized⟩ buf.length,
    (localId (Γ := Γ)).eventually_answered hΓ hfounded localId_sized buf.length,
    (nodeEntries k).eventually_answered hΓ hfounded (nodeEntries_sized k hk) buf.length] with fuel hkeys hfirst hrest
  rcases untagKind_cases .bpTreeNodeBadTag bptreeNodeStructHash buf with href | ⟨kind, payload, hle, hok⟩
  · exact (refused_bind href _).settled
  rw [nodeFromBytes, hok]
  simp only [bind, Except.bind]
  split
  · exact (settled_ofWire (hkeys payload hle)).map NodeBody.leaf
  split
  · split
    · exact .inl ⟨_, rfl⟩
    · rw [Cursor.slice_eq _ (Nat.zero_le _) (by omega), Cursor.slice_eq _ (by omega) (Nat.le_refl _)]
      have hpre : ((payload.drop 0).take ((localId (Γ := Γ)).size - 0)).length ≤ buf.length := by
        simp only [List.length_take, List.length_drop]
        omega
      have hsuf : ((payload.drop (localId (Γ := Γ)).size).take
          (payload.length - (localId (Γ := Γ)).size)).length ≤ buf.length := by
        simp only [List.length_take, List.length_drop]
        omega
      exact settled_bind (settled_ofWire (hfirst _ hpre)) fun leftmost =>
        (settled_ofWire (hrest _ hsuf)).map (NodeBody.internal leftmost)
  · exact .inl ⟨_, rfl⟩

end Nodes

section Lanes

def segmentToBytes (p : Codec Γ P) (laneHash : Nat) (seg : Segment (SecKey (List UInt8)) P) :
    List UInt8 :=
  leBytes 8 laneHash ++ (segment p).encode seg

def segmentFromBytes (p : Codec Γ P) (fuel laneHash : Nat) (buf : List UInt8) :
    Except Unread (Segment (SecKey (List UInt8)) P) := do
  let payload ← untag .laneBadTag laneHash buf
  ofWire ((segment p).decode fuel payload)

def slots : Codec Γ (List (Slot (SecKey (List UInt8)))) := slot.list

def branches : Codec Γ (List (Branch (SecKey (List UInt8)))) := branch.list

def sparseToBytes (laneHash : Nat) : SparseNode (SecKey (List UInt8)) → List UInt8
  | .leaf list => leBytes 8 laneHash ++ 0 :: (slots (Γ := coreEnv)).encode list
  | .internal list => leBytes 8 laneHash ++ 1 :: (branches (Γ := coreEnv)).encode list

def sparseFromBytes (fuel laneHash : Nat) (buf : List UInt8) :
    Except Unread (SparseNode (SecKey (List UInt8))) := do
  let (kind, payload) ← untagKind .laneBadTag laneHash buf
  if kind = 0 then
    let list ← ofWire ((slots (Γ := coreEnv)).decode fuel payload)
    return .leaf list
  else if kind = 1 then
    let list ← ofWire ((branches (Γ := coreEnv)).decode fuel payload)
    return .internal list
  else .error (.refused (.laneBadTag laneHash))

def sparseFits : SparseNode (SecKey (List UInt8)) → Prop
  | .leaf list => (slots (Γ := coreEnv)).Fits list ∧ ((slots (Γ := coreEnv)).encode list).length < 2 ^ 32
  | .internal list => (branches (Γ := coreEnv)).Fits list ∧
      ((branches (Γ := coreEnv)).encode list).length < 2 ^ 32

variable {laneHash : Nat}

theorem slots_sized : (slots (Γ := coreEnv)).ty.UnitsSized coreEnv :=
  ⟨Nat.succ_pos 31, keySized_secKey.sized, localId_sized, trivial, trivial⟩

theorem branches_sized : (branches (Γ := coreEnv)).ty.UnitsSized coreEnv :=
  ⟨Nat.succ_pos 31, keySized_secKey.sized, localId_sized, trivial, trivial⟩

theorem eventually_segmentFromBytes {p : Codec Γ P} (hΓ : Γ.UnitsSized) (hp : p.ty.UnitsSized Γ)
    (hhash : laneHash < 2 ^ 64)
    {seg : Segment (SecKey (List UInt8)) P} (hfits : (segment p).Fits seg)
    (hsize : ((segment p).encode seg).length < 2 ^ 32) :
    ∀ᶠ fuel in atTop, segmentFromBytes p fuel laneHash (segmentToBytes p laneHash seg) = .ok seg := by
  filter_upwards [(segment p).eventually_decode_encode hΓ (segment_sized hp) hfits hsize] with fuel hseg
  rw [segmentFromBytes, segmentToBytes, untag_append hhash]
  change ofWire ((segment p).decode fuel ((segment p).encode seg)) = _
  rw [hseg]
  rfl

theorem eventually_sparseFromBytes (hhash : laneHash < 2 ^ 64)
    {node : SparseNode (SecKey (List UInt8))} (hfits : sparseFits node) :
    ∀ᶠ fuel in atTop, sparseFromBytes fuel laneHash (sparseToBytes laneHash node) = .ok node := by
  cases node with
  | leaf list =>
    filter_upwards [slots.eventually_decode_encode coreEnv_unitsSized slots_sized hfits.1 hfits.2] with fuel hlist
    rw [sparseFromBytes, sparseToBytes, untagKind_append hhash]
    change (ofWire (slots.decode fuel (slots.encode list)) >>= fun _ => _) = _
    rw [hlist]
    rfl
  | internal list =>
    filter_upwards [branches.eventually_decode_encode coreEnv_unitsSized branches_sized hfits.1 hfits.2]
      with fuel hlist
    rw [sparseFromBytes, sparseToBytes, untagKind_append hhash]
    change (ofWire (branches.decode fuel (branches.encode list)) >>= fun _ => _) = _
    rw [hlist]
    rfl

theorem eventually_settled_segment (p : Codec Γ P) (hΓ : Γ.UnitsSized) (hfounded : Γ.Founded)
    (hp : p.ty.UnitsSized Γ) (laneHash : Nat) (buf : List UInt8) :
    ∀ᶠ fuel in atTop, Settled (segmentFromBytes p fuel laneHash buf) := by
  filter_upwards [(segment p).eventually_answered hΓ hfounded (segment_sized hp) buf.length] with fuel hseg
  rcases untag_cases .laneBadTag laneHash buf with href | ⟨payload, hle, hok⟩
  · exact (refused_bind href _).settled
  · rw [segmentFromBytes, hok]
    exact settled_ofWire (hseg payload hle)

theorem eventually_settled_sparse (laneHash : Nat) (buf : List UInt8) :
    ∀ᶠ fuel in atTop, Settled (sparseFromBytes fuel laneHash buf) := by
  filter_upwards [slots.eventually_answered coreEnv_unitsSized coreEnv_founded slots_sized buf.length,
    branches.eventually_answered coreEnv_unitsSized coreEnv_founded branches_sized buf.length] with fuel hslots hbranches
  rcases untagKind_cases .laneBadTag laneHash buf with href | ⟨kind, payload, hle, hok⟩
  · exact (refused_bind href _).settled
  rw [sparseFromBytes, hok]
  simp only [bind, Except.bind]
  split
  · exact (settled_ofWire (hslots payload hle)).map SparseNode.leaf
  split
  · exact (settled_ofWire (hbranches payload hle)).map SparseNode.internal
  · exact .inl ⟨_, rfl⟩

end Lanes

structure Foreign (hash : Nat) (bytes : List UInt8) : Prop where
  split : ∀ fuel other, other ≠ hash → Refused (splitRecord fuel other bytes)
  record : ∀ {Γ : Env} {X : Type} (c : Codec Γ X) (fuel other : Nat), other ≠ hash →
    Refused (decodeRecord c fuel other bytes)
  node : hash ≠ bptreeNodeStructHash → ∀ {Γ : Env} {K : Type} (k : Codec Γ K)
    (fuel : Nat), Refused (nodeFromBytes k fuel bytes)
  segment : ∀ {Γ : Env} {P : Type} (p : Codec Γ P) (fuel other : Nat), other ≠ hash →
    Refused (segmentFromBytes p fuel other bytes)
  sparse : ∀ fuel other, other ≠ hash → Refused (sparseFromBytes fuel other bytes)

theorem foreign_of_headOf {hash : Nat} {bytes : List UInt8} (h : headOf bytes = some hash) :
    Foreign hash bytes := by
  have hother : ∀ {other}, other ≠ hash → headOf bytes ≠ some other := fun hne heq =>
    hne (Option.some.inj (heq.symm.trans h))
  constructor
  · exact fun _ _ hne => refused_splitRecord (hother hne)
  · exact fun _ _ _ hne => refused_decodeRecord (hother hne)
  · exact fun hne _ _ k _ => refused_nodeFromBytes k (hother hne.symm)
  · exact fun _ _ _ hne => refused_bind (refused_untag (hother hne)) _
  · exact fun _ _ hne => refused_bind (refused_untagKind (hother hne)) _

theorem headOf_sparseToBytes {laneHash : Nat} (h : laneHash < 2 ^ 64)
    (node : SparseNode (SecKey (List UInt8))) : headOf (sparseToBytes laneHash node) = some laneHash := by
  cases node with
  | leaf list => exact headOf_append h _
  | internal list => exact headOf_append h _

end WaveDb.Collection
