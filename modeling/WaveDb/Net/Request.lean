import WaveDb.Lib.Chunks
import WaveDb.Net.Frames

-- Reading one request off a socket: a head, and for a `POST` its body.
namespace WaveDb.Net

open WaveDb.Lib

def maxHead : Nat := 8 * 1024

structure Head where
  firstLine : List Char
  contentLength : Option Nat
  websocketKey : Option (List Char)
  deriving DecidableEq, Repr

inductive Incoming
  | post (body : List UInt8)
  | upgrade (key : List Char)
  deriving DecidableEq, Repr

section Text

def splitLines : List Char → List (List Char)
  | [] => [[]]
  | '\r' :: '\n' :: rest => [] :: splitLines rest
  | c :: rest =>
    match splitLines rest with
    | [] => [[c]]
    | line :: lines => (c :: line) :: lines

def splitColon : List Char → Option (List Char × List Char)
  | [] => none
  | c :: rest => if c = ':' then some ([], rest) else (splitColon rest).map fun p => (c :: p.1, p.2)

def asciiLower (c : Char) : Char := if 'A' ≤ c ∧ c ≤ 'Z' then Char.ofNat (c.toNat + 32) else c

def eqIgnoreAsciiCase (a b : List Char) : Bool := a.map asciiLower = b.map asciiLower

def isWhite (c : Char) : Bool :=
  (9 ≤ c.toNat && c.toNat ≤ 13) || c.toNat == 0x20 || c.toNat == 0x85 || c.toNat == 0xA0 ||
  c.toNat == 0x1680 || (0x2000 ≤ c.toNat && c.toNat ≤ 0x200A) || c.toNat == 0x2028 ||
  c.toNat == 0x2029 || c.toNat == 0x202F || c.toNat == 0x205F || c.toNat == 0x3000

def trim (text : List Char) : List Char :=
  ((text.dropWhile isWhite).reverse.dropWhile isWhite).reverse

-- Decimal digits, as far as they stay below the limit of `usize`.
def parseDigits (sofar : Nat) : List Char → Option Nat
  | [] => some sofar
  | c :: rest =>
    if c.isDigit ∧ 10 * sofar + (c.toNat - 48) < 2 ^ 64 then
      parseDigits (10 * sofar + (c.toNat - 48)) rest
    else none

def parseUsize (text : List Char) : Option Nat :=
  let digits := match text with
    | '+' :: rest => rest
    | text => text
  if digits.isEmpty then none else parseDigits 0 digits

end Text

section Parsing

def parseLine (head : Head) (line : List Char) : Except TransportError Head :=
  match splitColon line with
  | none => .ok head
  | some (name, value) =>
    if eqIgnoreAsciiCase name "content-length".toList then
      match parseUsize (trim value) with
      | some n => .ok { head with contentLength := some n }
      | none => .error (.http "bad content-length")
    else if eqIgnoreAsciiCase name "sec-websocket-key".toList then
      .ok { head with websocketKey := some (trim value) }
    else .ok head

def parseHead (bytes : List UInt8) : Except TransportError Head :=
  match String.fromUTF8? ⟨bytes.toArray⟩ with
  | none => .error (.http "head is not utf-8")
  | some text =>
    match splitLines text.toList with
    | [] => .error (.http "empty head")
    | firstLine :: lines => lines.foldlM parseLine ⟨firstLine, none, none⟩

def headEnd : List UInt8 → Option Nat
  | [] => none
  | b :: rest =>
    if (b :: rest).take 4 = [13, 10, 13, 10] then some 0 else (headEnd rest).map (· + 1)

end Parsing

section Reading

theorem readSome_shrinks {size : Nat} {r r' : List (List UInt8)} {b : UInt8} {got : List UInt8}
    (h : readSome size r = (b :: got, r')) : r'.flatten.length < r.flatten.length := by
  have hflat := readSome_flatten size r
  rw [h] at hflat
  dsimp only at hflat
  rw [← hflat, List.length_append, List.length_cons]
  omega

-- `none` is a peer that closed without sending anything.
def readHead (buf : List UInt8) (r : List (List UInt8)) :
    Except TransportError (Option (Head × List UInt8 × List (List UInt8))) :=
  match headEnd buf with
  | some e => do
      let head ← parseHead (buf.take e)
      return some (head, buf.drop (e + 4), r)
  | none =>
    if maxHead < buf.length then .error (.http "head too large")
    else
      match hread : readSome 1024 r with
      | ([], _) => if buf.isEmpty then .ok none else .error (.http "connection closed mid-head")
      | (b :: got, r) => readHead (buf ++ b :: got) r
termination_by r.flatten.length
decreasing_by exact readSome_shrinks hread

def readBody (r : List (List UInt8)) (declared : Nat) (leftover : List UInt8) :
    Except TransportError (List UInt8) :=
  if maxBody < declared then .error (.bodyTooLarge maxBody declared)
  else if declared < leftover.length then .error (.http "body longer than declared")
  else
    match readExact (declared - leftover.length) r with
    | some (rest, _) => .ok (leftover ++ rest)
    | none => .error .io

def answer (head : Head) (leftover : List UInt8) (r : List (List UInt8)) :
    Except TransportError (Option Incoming) :=
  if "POST ".toList.isPrefixOf head.firstLine then
    match head.contentLength with
    | none => .error (.http "missing content-length")
    | some declared => (readBody r declared leftover).map fun body => some (.post body)
  else
    match "GET ".toList.isPrefixOf head.firstLine, head.websocketKey with
    | true, some key =>
      if leftover.isEmpty then .ok (some (.upgrade key))
      else .error (.http "bytes before the upgrade completed")
    | _, _ => .error (.http "only POST or websocket upgrade")

def readRequest (r : List (List UInt8)) : Except TransportError (Option Incoming) := do
  match ← readHead [] r with
  | none => return none
  | some (head, leftover, r) => answer head leftover r

end Reading

section Ends

variable {s : List UInt8} {e n : Nat}

def EndsAt (s : List UInt8) (i : Nat) : Prop := (s.drop i).take 4 = [13, 10, 13, 10]

theorem EndsAt.le (h : EndsAt s e) : e + 4 ≤ s.length := by
  have hlen := congrArg List.length h
  rw [List.length_take, List.length_drop] at hlen
  have hval : [13, 10, 13, (10 : UInt8)].length = 4 := rfl
  omega

theorem endsAt_take {i : Nat} : EndsAt (s.take n) i ↔ i + 4 ≤ n ∧ EndsAt s i := by
  constructor
  · intro h
    have hle := h.le
    rw [List.length_take] at hle
    refine ⟨by omega, ?_⟩
    rw [EndsAt, List.drop_take, List.take_take, Nat.min_eq_left (by omega)] at h
    exact h
  · rintro ⟨hle, h⟩
    rw [EndsAt, List.drop_take, List.take_take, Nat.min_eq_left (by omega)]
    exact h

theorem headEnd_eq_some_iff : headEnd s = some e ↔ EndsAt s e ∧ ∀ i < e, ¬EndsAt s i := by
  induction s generalizing e with
  | nil => exact iff_of_false nofun fun h => nomatch h.1.le
  | cons b rest ih =>
    rw [headEnd]
    split
    · rename_i htake
      constructor
      · rintro ⟨⟩
        exact ⟨htake, nofun⟩
      · rintro ⟨-, hfirst⟩
        cases e with
        | zero => rfl
        | succ e => exact absurd htake (hfirst 0 (Nat.succ_pos e))
    · rename_i htake
      rw [Option.map_eq_some_iff]
      constructor
      · rintro ⟨e', he', rfl⟩
        obtain ⟨hat, hfirst⟩ := ih.mp he'
        refine ⟨hat, fun i hi => ?_⟩
        cases i with
        | zero => exact htake
        | succ i => exact hfirst i (Nat.lt_of_succ_lt_succ hi)
      · rintro ⟨hat, hfirst⟩
        cases e with
        | zero => exact absurd hat htake
        | succ e => exact ⟨e, ih.mpr ⟨hat, fun i hi => hfirst (i + 1) (Nat.succ_lt_succ hi)⟩, rfl⟩

theorem headEnd_eq_none_iff : headEnd s = none ↔ ∀ i, ¬EndsAt s i := by
  constructor
  · intro h i hi
    -- The least one would have been found.
    classical
    have hfound := headEnd_eq_some_iff.mpr ⟨Nat.find_spec ⟨i, hi⟩, fun j hj => Nat.find_min ⟨i, hi⟩ hj⟩
    exact nomatch h.symm.trans hfound
  · intro h
    cases he : headEnd s with
    | none => rfl
    | some e => exact absurd (headEnd_eq_some_iff.mp he).1 (h e)

theorem headEnd_take (h : headEnd s = some e) :
    headEnd (s.take n) = if e + 4 ≤ n then some e else none := by
  obtain ⟨hat, hfirst⟩ := headEnd_eq_some_iff.mp h
  split
  · rename_i hle
    exact headEnd_eq_some_iff.mpr ⟨endsAt_take.mpr ⟨hle, hat⟩, fun i hi hends =>
      hfirst i hi (endsAt_take.mp hends).2⟩
  · rename_i hlt
    refine headEnd_eq_none_iff.mpr fun i hends => ?_
    obtain ⟨hle, hi⟩ := endsAt_take.mp hends
    have hge : e ≤ i := Nat.not_lt.mp fun hlt' => hfirst i hlt' hi
    omega

theorem headEnd_take_of_none (h : headEnd s = none) : headEnd (s.take n) = none :=
  headEnd_eq_none_iff.mpr fun i hends => headEnd_eq_none_iff.mp h i (endsAt_take.mp hends).2

end Ends

section Chunking

variable {s buf : List UInt8} {r : List (List UInt8)} {e : Nat}

theorem readHead_found (h : headEnd buf = some e) :
    readHead buf r = (parseHead (buf.take e)).map fun head => some (head, buf.drop (e + 4), r) := by
  rw [readHead, h]
  dsimp only
  cases parseHead (buf.take e) <;> rfl

theorem readHead_large (h : headEnd buf = none) (hlen : maxHead < buf.length) :
    readHead buf r = .error (.http "head too large") := by
  rw [readHead, h]
  exact if_pos hlen

theorem readHead_closed (h : headEnd buf = none) (hlen : buf.length ≤ maxHead) (hr : r.flatten = []) :
    readHead buf r = if buf.isEmpty then .ok none else .error (.http "connection closed mid-head") := by
  rw [readHead, h]
  dsimp only
  rw [if_neg (Nat.not_lt.mpr hlen)]
  split
  · rfl
  · rename_i b got r' hread
    have hnil := (readSome_eq_nil_iff (by decide : 0 < 1024) r).mpr hr
    rw [hread] at hnil
    exact nomatch hnil

theorem readHead_more (h : headEnd buf = none) (hlen : buf.length ≤ maxHead) (hr : r.flatten ≠ []) :
    ∃ got r', r'.flatten.length < r.flatten.length ∧ got.length ≤ 1024 ∧
      got ++ r'.flatten = r.flatten ∧ readHead buf r = readHead (buf ++ got) r' := by
  have hflat := readSome_flatten 1024 r
  have hsize := length_readSome_le 1024 r
  rw [readHead, h]
  dsimp only
  rw [if_neg (Nat.not_lt.mpr hlen)]
  split
  · rename_i r' hread
    exact absurd ((readSome_eq_nil_iff (by decide : 0 < 1024) r).mp (by rw [hread])) hr
  · rename_i b got r' hread
    rw [hread] at hflat hsize
    exact ⟨b :: got, r', readSome_shrinks hread, hsize, hflat, rfl⟩

theorem headEnd_buf (hs : s = buf ++ r.flatten) (he : headEnd s = some e) :
    headEnd buf = if e + 4 ≤ buf.length then some e else none := by
  have htake : s.take buf.length = buf := by rw [hs, List.take_left]
  rw [← headEnd_take he, htake]

theorem flatten_ne_nil (hs : s = buf ++ r.flatten) (he : headEnd s = some e)
    (hlt : buf.length < e + 4) : r.flatten ≠ [] := by
  intro hnil
  have hle := (headEnd_eq_some_iff.mp he).1.le
  rw [hs, hnil, List.append_nil] at hle
  omega

theorem readHead_of_le (hs : s = buf ++ r.flatten) (he : headEnd s = some e) (hle : e + 4 ≤ maxHead + 1) :
    ∃ leftover r', leftover ++ r'.flatten = s.drop (e + 4) ∧
      readHead buf r = (parseHead (s.take e)).map fun head => some (head, leftover, r') := by
  induction hn : r.flatten.length using Nat.strongRecOn generalizing buf r with
  | ind n ih =>
    have hbuf := headEnd_buf hs he
    by_cases hin : e + 4 ≤ buf.length
    · rw [if_pos hin] at hbuf
      refine ⟨buf.drop (e + 4), r, ?_, ?_⟩
      · rw [hs, List.drop_append_of_le_length hin]
      · rw [readHead_found hbuf, hs, List.take_append_of_le_length (by omega)]
    · rw [if_neg hin] at hbuf
      obtain ⟨got, r', hless, -, hflat, hmore⟩ :=
        readHead_more hbuf (by omega) (flatten_ne_nil hs he (by omega))
      rw [hmore]
      exact ih _ (hn ▸ hless) (by rw [hs, ← hflat, List.append_assoc]) rfl

theorem readHead_of_lt (hs : s = buf ++ r.flatten) (he : headEnd s = some e)
    (hlt : maxHead + 1024 < e + 4) (hlen : buf.length ≤ maxHead + 1024) :
    readHead buf r = .error (.http "head too large") := by
  induction hn : r.flatten.length using Nat.strongRecOn generalizing buf r with
  | ind n ih =>
    have hout : ¬e + 4 ≤ buf.length := by omega
    have hbuf := headEnd_buf hs he
    rw [if_neg hout] at hbuf
    by_cases hlarge : maxHead < buf.length
    · exact readHead_large hbuf hlarge
    · have hle : buf.length ≤ maxHead := Nat.not_lt.mp hlarge
      obtain ⟨got, r', hless, hsize, hflat, hmore⟩ :=
        readHead_more hbuf hle (flatten_ne_nil hs he (Nat.not_le.mp hout))
      have hlen' : (buf ++ got).length ≤ maxHead + 1024 := by
        rw [List.length_append]
        exact Nat.add_le_add hle hsize
      rw [hmore]
      exact ih _ (hn ▸ hless) (by rw [hs, ← hflat, List.append_assoc]) hlen' rfl

theorem readHead_of_none (hs : s = buf ++ r.flatten) (he : headEnd s = none) :
    readHead buf r = if maxHead < s.length then .error (.http "head too large")
      else if s.isEmpty then .ok none else .error (.http "connection closed mid-head") := by
  induction hn : r.flatten.length using Nat.strongRecOn generalizing buf r with
  | ind n ih =>
    have htake : s.take buf.length = buf := by rw [hs, List.take_left]
    have hbuf : headEnd buf = none := htake ▸ headEnd_take_of_none he
    have hle : buf.length ≤ s.length := by
      rw [hs, List.length_append]
      omega
    by_cases hlarge : maxHead < buf.length
    · rw [readHead_large hbuf hlarge, if_pos (by omega)]
    by_cases hnil : r.flatten = []
    · rw [hnil, List.append_nil] at hs
      rw [readHead_closed hbuf (by omega) hnil, hs, if_neg hlarge]
    · obtain ⟨got, r', hless, -, hflat, hmore⟩ := readHead_more hbuf (by omega) hnil
      rw [hmore]
      exact ih _ (hn ▸ hless) (by rw [hs, ← hflat, List.append_assoc]) rfl

theorem readHead_sound (hs : s = buf ++ r.flatten) {head : Head} {leftover : List UInt8}
    {r' : List (List UInt8)} (h : readHead buf r = .ok (some (head, leftover, r'))) :
    ∃ e, headEnd s = some e ∧ parseHead (s.take e) = .ok head ∧
      leftover ++ r'.flatten = s.drop (e + 4) := by
  induction hn : r.flatten.length using Nat.strongRecOn generalizing buf r with
  | ind n ih =>
    cases hbuf : headEnd buf with
    | some e =>
      have hle := (headEnd_eq_some_iff.mp hbuf).1.le
      have htake : s.take buf.length = buf := by rw [hs, List.take_left]
      have he : headEnd s = some e := by
        cases hwhole : headEnd s with
        | none =>
          have hnone : headEnd (s.take buf.length) = none := headEnd_take_of_none hwhole
          rw [htake, hbuf] at hnone
          exact nomatch hnone
        | some e' =>
          have heq := headEnd_buf hs hwhole
          rw [hbuf] at heq
          split at heq
          · exact heq.symm
          · exact nomatch heq
      rw [readHead_found hbuf] at h
      cases hparse : parseHead (buf.take e) with
      | error err =>
        rw [hparse] at h
        exact nomatch h
      | ok found =>
        rw [hparse] at h
        cases h
        refine ⟨e, he, ?_, ?_⟩
        · rw [hs, List.take_append_of_le_length (by omega), hparse]
        · rw [hs, List.drop_append_of_le_length hle]
    | none =>
      by_cases hlarge : maxHead < buf.length
      · exact nomatch (readHead_large hbuf hlarge).symm.trans h
      by_cases hnil : r.flatten = []
      · rw [readHead_closed hbuf (by omega) hnil] at h
        split at h <;> exact nomatch h
      · obtain ⟨got, r₁, hless, -, hflat, hmore⟩ := readHead_more hbuf (by omega) hnil
        rw [hmore] at h
        exact ih _ (hn ▸ hless) (by rw [hs, ← hflat, List.append_assoc]) h rfl

end Chunking

section Outcome

inductive Ending
  | post (body : List UInt8)
  | upgrade (key : List Char)
  | closed
  | refused
  deriving DecidableEq, Repr

def ending : Except TransportError (Option Incoming) → Ending
  | .ok (some (.post body)) => .post body
  | .ok (some (.upgrade key)) => .upgrade key
  | .ok none => .closed
  | .error _ => .refused

-- Nothing follows the declared body of a `POST`, or the head of an upgrade.
def NothingAfter (head : Head) (rest : List UInt8) : Prop :=
  if "POST ".toList.isPrefixOf head.firstLine then
    ∀ declared, head.contentLength = some declared → declared ≤ maxBody → rest.length ≤ declared
  else "GET ".toList.isPrefixOf head.firstLine = true → head.websocketKey ≠ none → rest = []

-- The head ends within the limit or beyond the reach of one read past it, and the peer
-- waits.
def OneRequest (s : List UInt8) : Prop :=
  ∀ e, headEnd s = some e →
    (e + 4 ≤ maxHead + 1 ∧ ∀ head, parseHead (s.take e) = .ok head → NothingAfter head (s.drop (e + 4))) ∨
    maxHead + 1024 < e + 4

variable {head : Head} {leftover rest : List UInt8} {r : List (List UInt8)}

theorem readBody_eq {declared : Nat} (hrest : leftover ++ r.flatten = rest)
    (hlen : declared ≤ maxBody → rest.length ≤ declared) :
    readBody r declared leftover = if maxBody < declared then .error (.bodyTooLarge maxBody declared)
      else if rest.length = declared then .ok rest else .error .io := by
  rw [readBody]
  by_cases hlarge : maxBody < declared
  · rw [if_pos hlarge, if_pos hlarge]
  · have hle := hlen (Nat.not_lt.mp hlarge)
    have hall : leftover.length + r.flatten.length = rest.length := by
      rw [← hrest, List.length_append]
    rw [if_neg hlarge, if_neg hlarge, if_neg (by omega)]
    by_cases heq : rest.length = declared
    · have hflat : r.flatten = r.flatten ++ [] := (List.append_nil r.flatten).symm
      obtain ⟨r', hread, -⟩ := readExact_append hflat
        (show r.flatten.length = declared - leftover.length by omega)
      rw [if_pos heq, hread]
      exact congrArg Except.ok hrest
    · have hnone : readExact (declared - leftover.length) r = none :=
        readExact_eq_none_iff.mpr (by omega)
      rw [if_neg heq, hnone]

theorem answer_eq (hrest : leftover ++ r.flatten = rest) (hafter : NothingAfter head rest) :
    answer head leftover r = answer head rest [] := by
  rw [answer, answer]
  rw [NothingAfter] at hafter
  split
  · rename_i hpost
    rw [if_pos hpost] at hafter
    cases hlength : head.contentLength with
    | none => rfl
    | some declared =>
      dsimp only
      have hlen := hafter declared hlength
      rw [readBody_eq hrest hlen, readBody_eq (r := []) (List.append_nil rest) hlen]
  · rename_i hpost
    rw [if_neg hpost] at hafter
    cases hget : "GET ".toList.isPrefixOf head.firstLine with
    | false => rfl
    | true =>
      cases hkey : head.websocketKey with
      | none => rfl
      | some key =>
        obtain rfl : rest = [] := hafter hget (by rw [hkey]; exact Option.some_ne_none key)
        obtain ⟨rfl, -⟩ := List.append_eq_nil_iff.mp hrest
        rfl

def expected (s : List UInt8) : Ending :=
  match headEnd s with
  | none => if s.isEmpty then .closed else .refused
  | some e =>
    if maxHead + 1 < e + 4 then .refused
    else
      match parseHead (s.take e) with
      | .error _ => .refused
      | .ok head => ending (answer head (s.drop (e + 4)) [])

theorem ending_readRequest {s : List UInt8} (hone : OneRequest s) (hr : r.flatten = s) :
    ending (readRequest r) = expected s := by
  have hs : s = [] ++ r.flatten := hr.symm
  rw [readRequest, expected]
  cases he : headEnd s with
  | none =>
    rw [readHead_of_none hs he]
    dsimp only
    split
    · rename_i hlarge
      have hne : s.isEmpty = false := by
        rw [List.isEmpty_eq_false_iff]
        exact List.ne_nil_of_length_pos (by omega)
      rw [hne]
      rfl
    · split <;> rfl
  | some e =>
    dsimp only
    rcases hone e he with ⟨hle, hafter⟩ | hlt
    · obtain ⟨leftover, r', hrest, hread⟩ := readHead_of_le hs he hle
      rw [hread, if_neg (Nat.not_lt.mpr hle)]
      cases hparse : parseHead (s.take e) with
      | error err => rfl
      | ok head =>
        change ending (answer head leftover r') = _
        rw [answer_eq hrest (hafter head hparse)]
    · rw [readHead_of_lt hs he hlt (Nat.zero_le _), if_pos (Nat.lt_of_le_of_lt (by decide) hlt)]
      rfl

theorem readBody_length {declared : Nat} {body : List UInt8} (hrest : leftover ++ r.flatten = rest)
    (h : readBody r declared leftover = .ok body) :
    body.length = declared ∧ body = rest.take declared := by
  rw [readBody] at h
  split at h
  · exact nomatch h
  · split at h
    · exact nomatch h
    · rename_i hle
      split at h
      · rename_i got r' hread
        cases h
        obtain ⟨hgot, hflat⟩ := readExact_eq_some hread
        have hlen : (leftover ++ got).length = declared := by
          rw [List.length_append, hgot]
          omega
        refine ⟨hlen, ?_⟩
        rw [← hrest, ← hflat, ← List.append_assoc, List.take_left' hlen]
      · exact nomatch h

theorem post_length {s body : List UInt8} (hr : r.flatten = s)
    (h : readRequest r = .ok (some (.post body))) :
    ∃ e head declared, headEnd s = some e ∧ parseHead (s.take e) = .ok head ∧
      head.contentLength = some declared ∧ body.length = declared ∧
      body = (s.drop (e + 4)).take declared := by
  rw [readRequest] at h
  cases hhead : readHead [] r with
  | error err =>
    rw [hhead] at h
    exact nomatch h
  | ok found =>
    cases found with
    | none =>
      rw [hhead] at h
      exact nomatch h
    | some found =>
      obtain ⟨head, leftover, r'⟩ := found
      rw [hhead] at h
      obtain ⟨e, he, hparse, hrest⟩ := readHead_sound hr.symm hhead
      have hanswer : answer head leftover r' = .ok (some (.post body)) := h
      rw [answer] at hanswer
      split at hanswer
      · split at hanswer
        · exact nomatch hanswer
        · rename_i declared hlength
          cases hbody : readBody r' declared leftover with
          | error err =>
            rw [hbody] at hanswer
            exact nomatch hanswer
          | ok got =>
            rw [hbody] at hanswer
            cases hanswer
            obtain ⟨hlen, heq⟩ := readBody_length hrest hbody
            exact ⟨e, head, declared, he, hparse, hlength, hlen, heq⟩
      · split at hanswer
        · split at hanswer <;> exact nomatch hanswer
        · exact nomatch hanswer

def utf8 (text : String) : List UInt8 := text.toUTF8.data.toList

theorem readHead_first {b : UInt8} {got : List UInt8} {e : Nat} (hlen : (b :: got).length ≤ 1024)
    (he : headEnd (b :: got) = some e) (hhead : parseHead ((b :: got).take e) = .ok head) :
    readHead [] ((b :: got) :: r) = .ok (some (head, (b :: got).drop (e + 4), [] :: r)) := by
  have hread : readSome 1024 ((b :: got) :: r) = (b :: got, [] :: r) := by
    rw [readSome, List.take_of_length_le hlen, List.drop_of_length_le hlen]
  have hnone : headEnd [] = none := rfl
  have hsmall : ¬maxHead < ([] : List UInt8).length := Nat.not_lt_zero _
  rw [readHead, hnone]
  dsimp only
  rw [if_neg hsmall]
  split
  · rename_i r' h
    cases hread.symm.trans h
  · rename_i b' got' r' h
    cases hread.symm.trans h
    rw [List.nil_append, readHead_found he, hhead]
    rfl

end Outcome

end WaveDb.Net
