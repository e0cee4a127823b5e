import Snix.Lib.AsyncStream
import Snix.Lib.Occurrences

/-!
# Scanning for references

A reader that scans everything it reads for the candidates, and marks those that occur.
References may lie across the ends of reads, so it keeps the last bytes of what it read
and scans them again with what comes next.

## Main definitions

- `ReferencePattern`, `ReferenceScanner` — the candidates, and which of them occurred
- `ReferenceReader` — the reader, with `pollFillBuf`, `consume` and `pollRead`
- `ReferenceSession` — a caller that views, consumes and reads

## Main results

- `scans_all_iff` — when reading gives the stream unchanged and marks what occurs in it
- `scan_marks_isolated_iff` — when a scan marks what occurs in the haystack
-/

namespace Snix.Castore

/-- The candidates, and the length of the longest of them. -/
structure ReferencePattern (P : Type) where
  candidates : List P
  longestCandidate : ℕ

/-- The candidates with a mark for each. -/
structure ReferenceScanner (P : Type) where
  pattern : ReferencePattern P
  marks : List Bool

/-- The last of what was read, and how much of it was consumed. -/
structure ReferenceReader (P : Type) where
  scanner : ReferenceScanner P
  buffer : Bytes
  consumed : ℕ
  capacity : ℕ
  reader : AsyncStream

section

-- `find` is the searcher: the indices of the candidates that occur in the haystack
variable {P : Type} (asRef : P → Bytes) (find : List Bytes → Bytes → List ℕ)

def ReferencePattern.new (candidates : List P) : ReferencePattern P where
  candidates := candidates
  longestCandidate := candidates.foldl (fun v c => max v (asRef c).length) 0

namespace ReferenceScanner

def new (candidates : List P) : ReferenceScanner P where
  pattern := .new asRef candidates
  marks := List.replicate candidates.length false

/-- Marks a candidate. -/
def mark (marks : List Bool) (patIdx : ℕ) : List Bool := marks.set patIdx true

/-- Marks the candidates that occur. There is no searcher if there are no candidates. -/
def scan (s : ReferenceScanner P) (haystack : Bytes) : ReferenceScanner P :=
  if haystack.length < s.pattern.longestCandidate then s
  else if s.pattern.candidates = [] then s
  else { s with marks := (find (s.pattern.candidates.map asRef) haystack).foldl mark s.marks }

/-- The candidates that occurred. -/
def candidateMatches (s : ReferenceScanner P) : List P :=
  (s.pattern.candidates.zip s.marks).filterMap fun c => if c.2 then some c.1 else none

end ReferenceScanner

namespace ReferenceReader

def withCapacity (capacity : ℕ) (scanner : ReferenceScanner P) (reader : AsyncStream) :
    ReferenceReader P where
  scanner := scanner
  buffer := []
  consumed := 0
  -- with less than the longest candidate there would be no scan
  capacity := max capacity scanner.pattern.longestCandidate
  reader := reader

/-- The bytes that are kept for the next scan. -/
def overlap (r : ReferenceReader P) : ℕ := r.scanner.pattern.longestCandidate - 1

/-- Reads until there is enough for a scan. Each round but the last adds a byte, so that there are at
    most as many as the first argument says. -/
def fill : ℕ → ReferenceReader P → Poll (Except IoError Unit) × ReferenceReader P
  | 0, r => (.ready (.ok ()), r)
  | n + 1, r =>
    match r.reader.pollRead (r.capacity - r.buffer.length) with
    | (.pending, reader) => (.pending, { r with reader := reader })
    | (.ready (.error e), reader) => (.ready (.error e), { r with reader := reader })
    | (.ready (.ok filled), reader) =>
      if filled = [] ∨ r.overlap < (r.buffer ++ filled).length then
        (.ready (.ok ()), { r with reader := reader, buffer := r.buffer ++ filled })
      else fill n { r with reader := reader, buffer := r.buffer ++ filled }

/-- Moves the bytes to keep to the front. -/
def keepOverlap (r : ReferenceReader P) : ReferenceReader P :=
  if r.overlap < r.consumed then
    { r with buffer := r.buffer.drop (r.buffer.length - r.overlap), consumed := r.overlap }
  else r

def pollFillBuf (r : ReferenceReader P) : Poll (Except IoError Bytes) × ReferenceReader P :=
  if r.consumed < r.buffer.length then (.ready (.ok (r.buffer.drop r.consumed)), r)
  else
    match fill (r.overlap + 1) r.keepOverlap with
    | (.pending, r) => (.pending, r)
    | (.ready (.error e), r) => (.ready (.error e), r)
    | (.ready (.ok ()), r) =>
      (.ready (.ok (r.buffer.drop r.consumed)), { r with scanner := r.scanner.scan asRef find r.buffer })

def consume (r : ReferenceReader P) (amt : ℕ) : ReferenceReader P :=
  { r with consumed := r.consumed + amt }

def pollRead (r : ReferenceReader P) (remaining : ℕ) :
    Poll (Except IoError Bytes) × ReferenceReader P :=
  match r.pollFillBuf asRef find with
  | (.pending, r) => (.pending, r)
  | (.ready (.error e), r) => (.ready (.error e), r)
  | (.ready (.ok internalBuf), r) =>
    let amt := min remaining internalBuf.length
    (.ready (.ok (internalBuf.take amt)), r.consume amt)

end ReferenceReader

/-- What a caller does. -/
inductive ReferenceOp where
  | fillBuf
  | consume (amt : ℕ)
  | read (remaining : ℕ)

/-- A reader, and the bytes it handed over. -/
structure ReferenceSession (P : Type) where
  reader : ReferenceReader P
  handed : Bytes

namespace ReferenceSession

def start (capacity : ℕ) (candidates : List P) (stream : AsyncStream) : ReferenceSession P :=
  ⟨.withCapacity capacity (.new asRef candidates) stream, []⟩

/-- A caller consumes at most what is there. -/
def step (s : ReferenceSession P) : ReferenceOp → ReferenceSession P
  | .fillBuf => { s with reader := (s.reader.pollFillBuf asRef find).2 }
  | .consume amt =>
    let amt := min amt (s.reader.buffer.length - s.reader.consumed)
    ⟨s.reader.consume amt, s.handed ++ (s.reader.buffer.drop s.reader.consumed).take amt⟩
  | .read remaining =>
    match s.reader.pollRead asRef find remaining with
    | (.ready (.ok bytes), r) => ⟨r, s.handed ++ bytes⟩
    | (_, r) => { s with reader := r }

def run (s : ReferenceSession P) (ops : List ReferenceOp) : ReferenceSession P :=
  ops.foldl (step asRef find) s

/-- A caller that only reads. -/
def reads (sizes : ℕ → ℕ) : ℕ → ReferenceSession P → ReferenceSession P
  | 0, s => s
  | m + 1, s => reads (fun i => sizes (i + 1)) m (s.step asRef find (.read (sizes 0)))

end ReferenceSession

end

-- ====================
-- Scanning
-- ====================

/-- What is known of the searcher: where the occurrences of the candidates do not overlap, it reports
    those and only those that occur. -/
def FindsAll (find : List Bytes → Bytes → List ℕ) (patterns : List Bytes) : Prop :=
  ∀ haystack, Separated patterns haystack →
    ∀ i, i ∈ find patterns haystack ↔ ∃ p, patterns[i]? = some p ∧ p <:+: haystack

variable {P : Type} {asRef : P → Bytes} {find : List Bytes → Bytes → List ℕ} {candidates : List P}
  {len : ℕ}

/-- All candidates are as long as each other, and not shorter than the searcher allows. -/
structure CommonLength (asRef : P → Bytes) (candidates : List P) (len : ℕ) : Prop where
  two_le : 2 ≤ len
  length_eq : ∀ c ∈ candidates, (asRef c).length = len

theorem CommonLength.pattern_length (h : CommonLength asRef candidates len) {p : Bytes}
    (hp : p ∈ candidates.map asRef) : p.length = len := by
  obtain ⟨c, hc, rfl⟩ := List.mem_map.mp hp
  exact h.length_eq c hc

theorem CommonLength.pattern_ne_nil (h : CommonLength asRef candidates len) :
    ∀ p ∈ candidates.map asRef, p ≠ [] := by
  rintro p hp rfl
  have hlen := h.pattern_length hp
  have := h.two_le
  rw [List.length_nil] at hlen
  omega

theorem CommonLength.longestCandidate (h : CommonLength asRef candidates len) :
    (ReferencePattern.new asRef candidates).longestCandidate = if candidates = [] then 0 else len := by
  have hfold : ∀ (l : List P) v, (∀ c ∈ l, (asRef c).length = len) →
      l.foldl (fun v c => max v (asRef c).length) v = if l = [] then v else max v len := by
    intro l
    induction l with
    | nil => intro v _; rfl
    | cons c l ih =>
      intro v hl
      have hc := hl c List.mem_cons_self
      rw [List.foldl_cons, ih _ fun d hd => hl d (List.mem_cons_of_mem _ hd), hc,
        if_neg (List.cons_ne_nil c l)]
      split_ifs
      · rfl
      · omega
  show candidates.foldl _ 0 = _
  rw [hfold candidates 0 h.length_eq, Nat.zero_max]

namespace ReferenceScanner

theorem length_foldl_mark (idxs : List ℕ) (marks : List Bool) :
    (idxs.foldl mark marks).length = marks.length := by
  induction idxs generalizing marks with
  | nil => rfl
  | cons i idxs ih => rw [List.foldl_cons, ih, mark, List.length_set]

theorem getElem?_foldl_mark (idxs : List ℕ) (marks : List Bool) (i : ℕ) :
    (idxs.foldl mark marks)[i]? = some true ↔
      marks[i]? = some true ∨ i ∈ idxs ∧ i < marks.length := by
  induction idxs generalizing marks with
  | nil => simp
  | cons j idxs ih =>
    rw [List.foldl_cons, ih, mark, List.getElem?_set, List.length_set, List.mem_cons]
    split_ifs with hji hlt
    · subst hji
      simp [hlt]
    · subst hji
      simp [hlt]
    · simp only [ne_comm.mp hji, false_or]

/-- The marks are those of the candidates that occur in the bytes. -/
structure Marks (asRef : P → Bytes) (candidates : List P) (s : ReferenceScanner P) (seen : Bytes) :
    Prop where
  pattern : s.pattern = .new asRef candidates
  length : s.marks.length = candidates.length
  marked : ∀ i : ℕ, s.marks[i]? = some true ↔ ∃ p, (candidates.map asRef)[i]? = some p ∧ p <:+: seen

theorem marks_new (h : CommonLength asRef candidates len) :
    Marks asRef candidates (new asRef candidates) [] := by
  refine ⟨rfl, List.length_replicate, fun i => iff_of_false ?_ ?_⟩
  · intro hi
    have hmem := List.mem_of_getElem? hi
    exact absurd (List.eq_of_mem_replicate hmem) (by decide)
  · rintro ⟨p, hp, hinf⟩
    exact h.pattern_ne_nil p (List.mem_of_getElem? hp) (List.infix_nil.mp hinf)

/-- A scan of the last bytes makes up for what was not scanned before them. -/
theorem Marks.scan {s : ReferenceScanner P} {seen seen' w : Bytes} (h : Marks asRef candidates s seen)
    (hlen : CommonLength asRef candidates len) (hfind : FindsAll find (candidates.map asRef))
    (hsep : Separated (candidates.map asRef) seen') (hw : w <:+: seen') (hseen : seen <:+: seen')
    (hnew : ∀ p ∈ candidates.map asRef, p <:+: seen' → p <:+: seen ∨ p <:+: w) :
    Marks asRef candidates (s.scan asRef find w) seen' := by
  -- the candidates that occur in the bytes that are scanned were marked before or are now
  have hocc : ∀ i : ℕ, (∃ p, (candidates.map asRef)[i]? = some p ∧ p <:+: seen') ↔
      s.marks[i]? = some true ∨ ∃ p, (candidates.map asRef)[i]? = some p ∧ p <:+: w := by
    intro i
    rw [h.marked]
    constructor
    · rintro ⟨p, hp, hinf⟩
      exact (hnew p (List.mem_of_getElem? hp) hinf).imp (fun h => ⟨p, hp, h⟩) fun h => ⟨p, hp, h⟩
    · rintro (⟨p, hp, hinf⟩ | ⟨p, hp, hinf⟩)
      · exact ⟨p, hp, hinf.trans hseen⟩
      · exact ⟨p, hp, hinf.trans hw⟩
  rw [ReferenceScanner.scan, h.pattern, hlen.longestCandidate]
  by_cases hnil : candidates = []
  · subst hnil
    simp only [ReferencePattern.new, if_true, ite_self]
    refine ⟨h.pattern, h.length, fun i => ?_⟩
    rw [hocc]
    simp
  · simp only [ReferencePattern.new, hnil, if_false]
    split_ifs with hshort
    · refine ⟨h.pattern, h.length, fun i => ?_⟩
      rw [hocc, or_iff_left]
      rintro ⟨p, hp, hinf⟩
      have hle := hinf.length_le
      rw [hlen.pattern_length (List.mem_of_getElem? hp)] at hle
      omega
    · refine ⟨rfl, ?_, fun i => ?_⟩
      · show (List.foldl mark s.marks _).length = _
        rw [length_foldl_mark, h.length]
      · show (List.foldl mark s.marks _)[i]? = some true ↔ _
        rw [getElem?_foldl_mark, hocc, hfind w (hsep.of_infix hlen.pattern_ne_nil hw), and_iff_left_of_imp]
        rintro ⟨p, hp, -⟩
        have hlt := (List.getElem?_eq_some_iff.mp hp).1
        rw [List.length_map] at hlt
        rw [h.length]
        exact hlt

/-- The candidates that occurred are those that occur in the bytes. -/
theorem Marks.mem_candidateMatches {s : ReferenceScanner P} {seen : Bytes}
    (h : Marks asRef candidates s seen) (c : P) :
    c ∈ s.candidateMatches ↔ c ∈ candidates ∧ asRef c <:+: seen := by
  have hmem : c ∈ s.candidateMatches ↔ ∃ i : ℕ, candidates[i]? = some c ∧ s.marks[i]? = some true := by
    rw [candidateMatches, h.pattern, List.mem_filterMap]
    constructor
    · rintro ⟨⟨c', b⟩, hzip, hb⟩
      obtain ⟨i, hi⟩ := List.mem_iff_getElem?.mp hzip
      rw [List.getElem?_zip_eq_some] at hi
      cases b with
      | false => cases hb
      | true =>
        cases hb
        exact ⟨i, hi⟩
    · rintro ⟨i, hc, hb⟩
      exact ⟨(c, true), List.mem_of_getElem? (List.getElem?_zip_eq_some.mpr ⟨hc, hb⟩), rfl⟩
  rw [hmem]
  simp only [h.marked, List.getElem?_map]
  constructor
  · rintro ⟨i, hc, p, hp, hinf⟩
    rw [hc] at hp
    cases hp
    exact ⟨List.mem_of_getElem? hc, hinf⟩
  · rintro ⟨hc, hinf⟩
    obtain ⟨i, hi⟩ := List.mem_iff_getElem?.mp hc
    exact ⟨i, hi, asRef c, by rw [hi]; rfl, hinf⟩

end ReferenceScanner

-- ====================
-- Reading
-- ====================

namespace ReferenceReader

open ReferenceScanner

variable {stream : AsyncStream} {handed seen : Bytes} {r : ReferenceReader P}

/-- Where the reader stands: `seen` was taken from the stream, `handed` was handed over. Only what
    lies before the bytes to keep is gone from the buffer. -/
structure Reads (stream : AsyncStream) (handed seen : Bytes) (r : ReferenceReader P) : Prop where
  room : r.overlap < r.capacity
  input : stream.rest = seen ++ r.reader.rest
  later : r.reader.Later stream
  consumed_le : r.consumed ≤ r.buffer.length
  buffered : ∃ gone, seen = gone ++ r.buffer ∧ handed = gone ++ r.buffer.take r.consumed ∧
    (gone = [] ∨ r.overlap ≤ r.buffer.length)

/-- Everything seen is also scanned. -/
structure Inv (asRef : P → Bytes) (candidates : List P) (stream : AsyncStream) (handed : Bytes)
    (r : ReferenceReader P) (seen : Bytes) : Prop extends Reads stream handed seen r where
  marks : Marks asRef candidates r.scanner seen

theorem overlap_eq {r r' : ReferenceReader P} (h : r'.scanner.pattern = r.scanner.pattern) :
    r'.overlap = r.overlap := by
  rw [overlap, overlap, h]

/-- Bytes are added to the buffer. -/
theorem Reads.extend (h : Reads stream handed seen r) {filled : Bytes} {reader : AsyncStream}
    (hrest : r.reader.rest = filled ++ reader.rest) (hans : reader.answers = r.reader.tick.answers) :
    Reads stream handed (seen ++ filled) { r with reader := reader, buffer := r.buffer ++ filled } where
  room := h.room
  input := by rw [h.input, hrest, List.append_assoc]
  later := h.later.of_tick hans
  consumed_le := by
    rw [List.length_append]
    exact Nat.le_add_right_of_le h.consumed_le
  buffered := by
    obtain ⟨gone, hseen, hhanded, hgone⟩ := h.buffered
    refine ⟨gone, by rw [hseen, List.append_assoc], ?_, ?_⟩
    · rw [hhanded, List.take_append_of_le_length h.consumed_le]
    · refine hgone.imp_right fun hle => ?_
      rw [List.length_append]
      exact Nat.le_add_right_of_le hle

/-- Only the reader beneath changes. -/
theorem Reads.poll (h : Reads stream handed seen r) {reader : AsyncStream}
    (hrest : reader.rest = r.reader.rest) (hans : reader.answers = r.reader.tick.answers) :
    Reads stream handed seen { r with reader := reader } where
  room := h.room
  input := by rw [h.input, hrest]
  later := h.later.of_tick hans
  consumed_le := h.consumed_le
  buffered := h.buffered

/-- The bytes to keep are moved to the front. -/
theorem Inv.keepOverlap (h : Inv asRef candidates stream handed r seen)
    (hall : ¬ r.consumed < r.buffer.length) :
    Inv asRef candidates stream handed r.keepOverlap seen ∧
      r.keepOverlap.buffer.length ≤ r.overlap ∧ r.keepOverlap.overlap = r.overlap ∧
      r.keepOverlap.reader = r.reader := by
  have hle := h.consumed_le
  have heq : r.consumed = r.buffer.length := by omega
  rw [ReferenceReader.keepOverlap]
  split_ifs with hlt
  · obtain ⟨gone, hseen, hhanded, -⟩ := h.buffered
    have hlen : (r.buffer.drop (r.buffer.length - r.overlap)).length = r.overlap := by
      rw [List.length_drop]
      omega
    refine ⟨⟨⟨h.room, h.input, h.later, Nat.le_of_eq hlen.symm, ?_⟩, h.marks⟩, Nat.le_of_eq hlen, rfl, rfl⟩
    refine ⟨gone ++ r.buffer.take (r.buffer.length - r.overlap), ?_, ?_, .inr (Nat.le_of_eq hlen.symm)⟩
    · rw [List.append_assoc, List.take_append_drop, hseen]
    · dsimp only
      rw [List.take_of_length_le (Nat.le_of_eq hlen), List.append_assoc, List.take_append_drop, hhanded, heq,
        List.take_length]
  · exact ⟨h, by omega, rfl, rfl⟩

/-- What is known when enough was read for a scan, or the end is reached. -/
structure Filled (asRef : P → Bytes) (candidates : List P) (stream : AsyncStream) (handed : Bytes)
    (r : ReferenceReader P) (before seen : Bytes) : Prop extends Reads stream handed seen r where
  marks : Marks asRef candidates r.scanner before
  seen_before : before <:+: seen
  /-- What is new lies in the buffer. -/
  fresh : ∀ p ∈ candidates.map asRef, p <:+: seen → p <:+: before ∨ p <:+: r.buffer
  end_or_more : r.reader.rest = [] ∨ r.consumed < r.buffer.length

/-- New occurrences lie in the buffer: it has kept enough of what was scanned. -/
theorem Reads.fresh (h : Reads stream handed seen r) {filled p : Bytes}
    (hp : p.length ≤ r.overlap + 1) (hinf : p <:+: seen ++ filled) :
    p <:+: seen ∨ p <:+: r.buffer ++ filled := by
  obtain ⟨gone, hseen, -, hgone⟩ := h.buffered
  obtain rfl | hle := hgone
  · right
    rw [hseen] at hinf
    exact hinf
  · refine (infix_of_append hinf r.overlap hp).imp_right fun hlast => hlast.trans ?_
    rw [hseen, List.length_append, List.drop_append, List.drop_of_length_le (by omega), List.nil_append]
    exact ⟨r.buffer.take (gone.length + r.buffer.length - r.overlap - gone.length), [], by
      rw [List.append_nil, ← List.append_assoc, List.take_append_drop]⟩

/-- Before there is enough for a scan, nothing occurs. -/
theorem Inv.extend_short (h : Inv asRef candidates stream handed r seen)
    (hlen : ∀ p ∈ candidates.map asRef, p.length = r.overlap + 1) {filled : Bytes}
    {reader : AsyncStream} (hrest : r.reader.rest = filled ++ reader.rest)
    (hans : reader.answers = r.reader.tick.answers) (hne : filled ≠ [])
    (hshort : (r.buffer ++ filled).length ≤ r.overlap) :
    Inv asRef candidates stream handed { r with reader := reader, buffer := r.buffer ++ filled }
      (seen ++ filled) := by
  refine ⟨h.toReads.extend hrest hans, h.marks.pattern, h.marks.length, fun i => ?_⟩
  have hpos := List.length_pos_iff.mpr hne
  rw [List.length_append] at hshort
  obtain ⟨gone, hseen, -, hgone⟩ := h.buffered
  have hnone : ∀ w : Bytes, w.length ≤ r.overlap →
      ¬ ∃ p, (candidates.map asRef)[i]? = some p ∧ p <:+: w := by
    rintro w hw ⟨p, hp, hinf⟩
    have hle := hinf.length_le
    rw [hlen p (List.mem_of_getElem? hp)] at hle
    omega
  have hnil : gone = [] := by
    obtain hnil | hle := hgone
    · exact hnil
    · omega
  rw [h.marks.marked, hseen, hnil, List.nil_append]
  refine iff_of_false (hnone _ (by omega)) (hnone _ ?_)
  rw [List.length_append]
  exact hshort

/-- What reading comes to, until there is enough for a scan. -/
theorem fill_cases (hlen : ∀ p ∈ candidates.map asRef, p.length = r.overlap + 1) {n : ℕ}
    (h : Inv asRef candidates stream handed r seen) (hshort : r.buffer.length ≤ r.overlap)
    (hn : r.overlap < r.buffer.length + n) :
    (∃ r' seen', fill n r = (.pending, r') ∧ Inv asRef candidates stream handed r' seen' ∧
        Stalled r.reader r'.reader) ∨
      (∃ r' seen', fill n r = (.ready (.error .inner), r') ∧
        Inv asRef candidates stream handed r' seen' ∧ ¬ stream.Faultless) ∨
      ∃ r' before seen', fill n r = (.ready (.ok ()), r') ∧
        Filled asRef candidates stream handed r' before seen' := by
  induction n generalizing r seen with
  | zero => omega
  | succ n ih =>
    rw [fill]
    obtain ⟨reader, hpoll, hrest, hans⟩ | ⟨reader, hpoll, hrest, hans, hfault⟩ |
        ⟨filled, reader, hpoll, hrest, hans, hle, hend⟩ :=
      r.reader.pollRead_cases (r.capacity - r.buffer.length)
    · rw [hpoll]
      exact .inl ⟨_, seen, rfl, ⟨h.toReads.poll hrest hans, h.marks⟩,
        .inr ⟨AsyncStream.pending_of_pollRead hpoll, hrest, hans⟩⟩
    · rw [hpoll]
      exact .inr (.inl ⟨_, seen, rfl, ⟨h.toReads.poll hrest hans, h.marks⟩,
        fun hF => hfault (h.later.faultless hF)⟩)
    · rw [hpoll]
      dsimp only
      split_ifs with hdone
      · refine .inr (.inr ⟨_, seen, seen ++ filled, rfl, h.toReads.extend hrest hans, h.marks,
          (List.prefix_append _ _).isInfix, fun p hp hinf => ?_, ?_⟩)
        · exact h.toReads.fresh (Nat.le_of_eq (hlen p hp)) hinf
        · obtain hnil | hmore := hdone
          · have hroom := h.room
            obtain h0 | h0 := hend hnil
            · omega
            · rw [hrest, hnil] at h0
              exact .inl h0
          · exact .inr (Nat.lt_of_le_of_lt (Nat.le_trans h.consumed_le hshort) hmore)
      · rw [not_or] at hdone
        obtain ⟨hne, hmore⟩ := hdone
        have hinv := h.extend_short hlen hrest hans hne (Nat.not_lt.mp hmore)
        have hpos := List.length_pos_iff.mpr hne
        have hbuf : (r.buffer ++ filled).length = r.buffer.length + filled.length := List.length_append
        obtain ⟨r', seen', hfill, hinv', hstalled⟩ | ⟨r', seen', hfill, hinv', hfault⟩ |
            ⟨r', before, seen', hfill, hfilled⟩ :=
          @ih _ { r with reader := reader, buffer := r.buffer ++ filled } hlen hinv (Nat.not_lt.mp hmore) (by
            show r.overlap < (r.buffer ++ filled).length + n
            omega)
        · refine .inl ⟨r', seen', hfill, hinv', .inl ?_⟩
          have hlt : reader.rest.length < r.reader.rest.length := by
            rw [hrest, List.length_append]
            omega
          obtain hless | ⟨-, heq, -⟩ := hstalled
          · exact Nat.lt_trans hless hlt
          · rw [heq]
            exact hlt
        · exact .inr (.inl ⟨r', seen', hfill, hinv', hfault⟩)
        · exact .inr (.inr ⟨r', before, seen', hfill, hfilled⟩)

/-- What a poll for a view comes to. -/
theorem pollFillBuf_cases (hlen : CommonLength asRef candidates len)
    (hfind : FindsAll find (candidates.map asRef))
    (hsep : Separated (candidates.map asRef) stream.rest)
    (h : Inv asRef candidates stream handed r seen) :
    (∃ r' seen', r.pollFillBuf asRef find = (.pending, r') ∧
        Inv asRef candidates stream handed r' seen' ∧ Stalled r.reader r'.reader) ∨
      (∃ r' seen', r.pollFillBuf asRef find = (.ready (.error .inner), r') ∧
        Inv asRef candidates stream handed r' seen' ∧ ¬ stream.Faultless) ∨
      ∃ r' seen', r.pollFillBuf asRef find = (.ready (.ok (r'.buffer.drop r'.consumed)), r') ∧
        Inv asRef candidates stream handed r' seen' ∧
        (r'.buffer.drop r'.consumed = [] → r'.reader.rest = []) := by
  rw [pollFillBuf]
  split_ifs with hview
  · refine .inr (.inr ⟨r, seen, rfl, h, fun hnil => ?_⟩)
    rw [List.drop_eq_nil_iff] at hnil
    omega
  · obtain ⟨hkept, hshort, hover, hreader⟩ := h.keepOverlap hview
    have hpattern : ∀ p ∈ candidates.map asRef, p.length = r.keepOverlap.overlap + 1 := by
      intro p hp
      have hne : candidates ≠ [] := List.map_eq_nil_iff.not.mp (List.ne_nil_of_mem hp)
      have htwo := hlen.two_le
      rw [hlen.pattern_length hp, overlap, hkept.marks.pattern, hlen.longestCandidate, if_neg hne]
      omega
    obtain ⟨r', seen', hfill, hinv, hstalled⟩ | ⟨r', seen', hfill, hinv, hfault⟩ |
        ⟨r', before, seen', hfill, hfilled⟩ :=
      fill_cases hpattern hkept (by rw [hover]; exact hshort)
        (show _ < _ + (r.overlap + 1) by rw [hover]; omega)
    · rw [hfill]
      exact .inl ⟨r', seen', rfl, hinv, hreader ▸ hstalled⟩
    · rw [hfill]
      exact .inr (.inl ⟨r', seen', rfl, hinv, hfault⟩)
    · rw [hfill]
      have hseen : seen' <:+: stream.rest := by
        rw [hfilled.input]
        exact (List.prefix_append _ _).isInfix
      have hbuf : r'.buffer <:+: seen' := by
        obtain ⟨gone, hgone, -⟩ := hfilled.buffered
        rw [hgone]
        exact (List.suffix_append _ _).isInfix
      have hmarks : Marks asRef candidates (r'.scanner.scan asRef find r'.buffer) seen' :=
        hfilled.marks.scan hlen hfind (hsep.of_infix hlen.pattern_ne_nil hseen) hbuf
          hfilled.seen_before hfilled.fresh
      have hsame : (r'.scanner.scan asRef find r'.buffer).pattern = r'.scanner.pattern :=
        hmarks.pattern.trans hfilled.marks.pattern.symm
      have hover' : overlap { r' with scanner := r'.scanner.scan asRef find r'.buffer } = r'.overlap :=
        overlap_eq hsame
      refine .inr (.inr ⟨{ r' with scanner := r'.scanner.scan asRef find r'.buffer }, seen', rfl, 
        ⟨⟨?_, hfilled.input, hfilled.later, hfilled.consumed_le, ?_⟩, hmarks⟩, fun hnil => ?_⟩)
      · rw [hover']
        exact hfilled.room
      · rw [hover']
        exact hfilled.buffered
      · obtain hend | hmore := hfilled.end_or_more
        · exact hend
        · rw [List.drop_eq_nil_iff] at hnil
          exact absurd hmore (Nat.not_lt.mpr hnil)

/-- Bytes of the buffer are handed over. -/
theorem Inv.consume (h : Inv asRef candidates stream handed r seen) {amt : ℕ}
    (hle : amt ≤ r.buffer.length - r.consumed) :
    Inv asRef candidates stream (handed ++ (r.buffer.drop r.consumed).take amt) (r.consume amt) seen := by
  have hcons := h.consumed_le
  obtain ⟨gone, hseen, hhanded, hgone⟩ := h.buffered
  refine ⟨⟨h.room, h.input, h.later, ?_, gone, hseen, ?_, hgone⟩, h.marks⟩
  · show r.consumed + amt ≤ r.buffer.length
    omega
  · show _ = gone ++ r.buffer.take (r.consumed + amt)
    rw [hhanded, List.append_assoc, ← List.take_add]

/-- At the end of the stream everything was handed over and scanned. -/
theorem Inv.at_end (h : Inv asRef candidates stream handed r seen) (hrest : r.reader.rest = [])
    (hnil : r.buffer.drop r.consumed = []) :
    handed = stream.rest ∧ Marks asRef candidates r.scanner stream.rest := by
  obtain ⟨gone, hseen, hhanded, -⟩ := h.buffered
  have hinput : stream.rest = seen := by rw [h.input, hrest, List.append_nil]
  refine ⟨?_, hinput ▸ h.marks⟩
  rw [hinput, hhanded, hseen, List.take_of_length_le (List.drop_eq_nil_iff.mp hnil)]

/-- What was handed over and what is still in the buffer begin the stream. -/
theorem Inv.begins (h : Inv asRef candidates stream handed r seen) :
    handed ++ r.buffer.drop r.consumed <+: stream.rest := by
  obtain ⟨gone, hseen, hhanded, -⟩ := h.buffered
  rw [h.input, hhanded, List.append_assoc, List.take_append_drop, ← hseen]
  exact List.prefix_append _ _

/-- What a read comes to. -/
theorem pollRead_cases (hlen : CommonLength asRef candidates len)
    (hfind : FindsAll find (candidates.map asRef))
    (hsep : Separated (candidates.map asRef) stream.rest)
    (h : Inv asRef candidates stream handed r seen) (remaining : ℕ) :
    (∃ r' seen', r.pollRead asRef find remaining = (.pending, r') ∧
        Inv asRef candidates stream handed r' seen' ∧ Stalled r.reader r'.reader) ∨
      (∃ r' seen', r.pollRead asRef find remaining = (.ready (.error .inner), r') ∧
        Inv asRef candidates stream handed r' seen' ∧ ¬ stream.Faultless) ∨
      ∃ bytes r' seen', r.pollRead asRef find remaining = (.ready (.ok bytes), r') ∧
        Inv asRef candidates stream (handed ++ bytes) r' seen' ∧
        (bytes = [] → remaining = 0 ∨
          handed = stream.rest ∧ Marks asRef candidates r'.scanner stream.rest) := by
  rw [pollRead]
  obtain ⟨r', seen', hpoll, hinv, hstalled⟩ | ⟨r', seen', hpoll, hinv, hfault⟩ |
      ⟨r', seen', hpoll, hinv, hend⟩ := pollFillBuf_cases hlen hfind hsep h
  · rw [hpoll]
    exact .inl ⟨r', seen', rfl, hinv, hstalled⟩
  · rw [hpoll]
    exact .inr (.inl ⟨r', seen', rfl, hinv, hfault⟩)
  · rw [hpoll]
    refine .inr (.inr ⟨_, _, seen', rfl, hinv.consume ?_, fun hnil => ?_⟩)
    · rw [← List.length_drop]
      exact Nat.min_le_right _ _
    · obtain h0 | h0 := List.take_eq_nil_iff.mp hnil
      · rcases Nat.eq_zero_or_pos remaining with hz | hpos
        · exact .inl hz
        · have hview : r'.buffer.drop r'.consumed = [] := by
            rw [← List.length_eq_zero_iff]
            omega
          exact .inr (hinv.at_end (hend hview) hview)
      · exact .inr (hinv.at_end (hend h0) h0)

end ReferenceReader

namespace ReferenceSession

open ReferenceReader ReferenceScanner

variable {stream : AsyncStream} {s : ReferenceSession P}

/-- What any caller sees from here on: what it got begins the stream, only candidates of the stream
    are marked, at the end it got the whole stream and all of these are marked, nothing fails but
    the stream itself, and a caller that reads on comes to the end. -/
structure Transparent (asRef : P → Bytes) (find : List Bytes → Bytes → List ℕ) (candidates : List P)
    (stream : AsyncStream) (s : ReferenceSession P) : Prop where
  handed : s.handed <+: stream.rest
  matched : ∀ c ∈ s.reader.scanner.candidateMatches, c ∈ candidates ∧ asRef c <:+: stream.rest
  viewed : ∀ view r, s.reader.pollFillBuf asRef find = (.ready (.ok view), r) →
    s.handed ++ view <+: stream.rest ∧ (view = [] → s.handed = stream.rest ∧
      ∀ c, c ∈ r.scanner.candidateMatches ↔ c ∈ candidates ∧ asRef c <:+: stream.rest)
  read_end : ∀ n r, 0 < n → s.reader.pollRead asRef find n = (.ready (.ok []), r) →
    s.handed = stream.rest ∧
      ∀ c, c ∈ r.scanner.candidateMatches ↔ c ∈ candidates ∧ asRef c <:+: stream.rest
  faults : ∀ n e, (s.reader.pollFillBuf asRef find).1 = .ready (.error e) ∨
    (s.reader.pollRead asRef find n).1 = .ready (.error e) → ¬ stream.Faultless
  finishes : stream.Fair → stream.Faultless → ∀ sizes : ℕ → ℕ, (∀ i, 0 < sizes i) →
    ∃ m, ((s.reads asRef find sizes m).reader.pollRead asRef find (sizes m)).1 = .ready (.ok [])

/-- The reader of a session stands in some place. -/
def Inv (asRef : P → Bytes) (candidates : List P) (stream : AsyncStream) (s : ReferenceSession P) :
    Prop :=
  ∃ seen, s.reader.Inv asRef candidates stream s.handed seen

section

variable (hlen : CommonLength asRef candidates len) (hfind : FindsAll find (candidates.map asRef))
  (hsep : Separated (candidates.map asRef) stream.rest)
include hlen hfind hsep

theorem Inv.step (h : s.Inv asRef candidates stream) (op : ReferenceOp) :
    (s.step asRef find op).Inv asRef candidates stream := by
  obtain ⟨seen, h⟩ := h
  cases op with
  | fillBuf =>
    rw [ReferenceSession.step]
    obtain ⟨r', seen', hpoll, hinv, -⟩ | ⟨r', seen', hpoll, hinv, -⟩ | ⟨r', seen', hpoll, hinv, -⟩ :=
      pollFillBuf_cases hlen hfind hsep h
    · rw [hpoll]
      exact ⟨seen', hinv⟩
    · rw [hpoll]
      exact ⟨seen', hinv⟩
    · rw [hpoll]
      exact ⟨seen', hinv⟩
  | consume amt => exact ⟨seen, h.consume (Nat.min_le_right _ _)⟩
  | read remaining =>
    rw [ReferenceSession.step]
    obtain ⟨r', seen', hpoll, hinv, -⟩ | ⟨r', seen', hpoll, hinv, -⟩ |
        ⟨bytes, r', seen', hpoll, hinv, -⟩ := pollRead_cases hlen hfind hsep h remaining
    · rw [hpoll]
      exact ⟨seen', hinv⟩
    · rw [hpoll]
      exact ⟨seen', hinv⟩
    · rw [hpoll]
      exact ⟨seen', hinv⟩

theorem Inv.run (h : s.Inv asRef candidates stream) (ops : List ReferenceOp) :
    (s.run asRef find ops).Inv asRef candidates stream := by
  induction ops generalizing s with
  | nil => exact h
  | cons op ops ih => exact ih (h.step hlen hfind hsep op)

/-- A read ends, hands bytes over, or the next one has less to wait for. -/
theorem Inv.read_progress (h : s.Inv asRef candidates stream) (hfault : stream.Faultless) (n : ℕ) :
    (s.reader.pollRead asRef find n).1 = .ready (.ok []) ∨
      s.handed.length < (s.step asRef find (.read n)).handed.length ∨
      (s.step asRef find (.read n)).handed = s.handed ∧
        Stalled s.reader.reader (s.step asRef find (.read n)).reader.reader := by
  obtain ⟨seen, h⟩ := h
  rw [ReferenceSession.step]
  obtain ⟨r', seen', hpoll, -, hstalled⟩ | ⟨r', seen', hpoll, -, hnot⟩ |
      ⟨bytes, r', seen', hpoll, hinv, hend⟩ := pollRead_cases hlen hfind hsep h n
  · rw [hpoll]
    exact .inr (.inr ⟨rfl, hstalled⟩)
  · exact absurd hfault hnot
  · rw [hpoll]
    cases bytes with
    | nil => exact .inl rfl
    | cons b bytes =>
      right; left
      show s.handed.length < (s.handed ++ b :: bytes).length
      rw [List.length_append, List.length_cons]
      omega

/-- A caller that reads on comes to the end. -/
theorem Inv.ends (h : s.Inv asRef candidates stream) (hfair : stream.Fair)
    (hfault : stream.Faultless) {sizes : ℕ → ℕ} (hsizes : ∀ i, 0 < sizes i) :
    ∃ m, ((s.reads asRef find sizes m).reader.pollRead asRef find (sizes m)).1 = .ready (.ok []) := by
  -- by the bytes that are not handed over yet, and then by the polls of the stream
  induction hk : stream.rest.length - s.handed.length using Nat.strong_induction_on
    generalizing s sizes with
  | _ k ihk =>
  subst hk
  have hlater : ∀ {s : ReferenceSession P}, s.Inv asRef candidates stream →
      s.reader.reader.Later stream := by
    rintro s ⟨seen, h⟩
    exact h.later
  have hle : ∀ {s : ReferenceSession P}, s.Inv asRef candidates stream →
      s.handed.length ≤ stream.rest.length := by
    rintro s ⟨seen, h⟩
    exact ((List.prefix_append _ _).trans h.begins).length_le
  refine stalled_induction (P := fun reader => ∀ (s' : ReferenceSession P) (sizes : ℕ → ℕ),
      s'.reader.reader = reader → s'.handed = s.handed → s'.Inv asRef candidates stream →
      (∀ i, 0 < sizes i) →
        ∃ m, ((s'.reads asRef find sizes m).reader.pollRead asRef find (sizes m)).1 = .ready (.ok []))
    hfair ?_ (hlater h) s sizes rfl rfl h hsizes
  rintro reader - ih s' sizes rfl hhanded h' hsizes
  have hnext := h'.step hlen hfind hsep (.read (sizes 0))
  obtain hend | hmore | ⟨hsame, hstalled⟩ := h'.read_progress hlen hfind hsep hfault (sizes 0)
  · exact ⟨0, hend⟩
  · have hfewer : stream.rest.length - (s'.step asRef find (.read (sizes 0))).handed.length <
        stream.rest.length - s.handed.length := by
      have := hle hnext
      rw [hhanded] at hmore
      omega
    obtain ⟨m, hm⟩ := ihk _ hfewer hnext (fun i => hsizes (i + 1)) rfl
    exact ⟨m + 1, hm⟩
  · obtain ⟨m, hm⟩ := ih _ hstalled (hlater hnext) _ (fun i => sizes (i + 1)) rfl
      (hsame.trans hhanded) hnext fun i => hsizes (i + 1)
    exact ⟨m + 1, hm⟩

theorem Inv.transparent (h : s.Inv asRef candidates stream) :
    s.Transparent asRef find candidates stream := by
  obtain ⟨seen, hinv⟩ := h
  have hseen : seen <:+: stream.rest := by
    rw [hinv.input]
    exact (List.prefix_append _ _).isInfix
  refine ⟨(List.prefix_append _ _).trans hinv.begins, fun c hc => ?_, fun view r hview => ?_,
    fun n r hn hread => ?_, fun n e hres => ?_,
    fun hfair hfault sizes hsizes => Inv.ends hlen hfind hsep ⟨seen, hinv⟩ hfair hfault hsizes⟩
  · obtain ⟨hmem, hinf⟩ := (hinv.marks.mem_candidateMatches c).mp hc
    exact ⟨hmem, hinf.trans hseen⟩
  · obtain ⟨r', seen', hpoll, -⟩ | ⟨r', seen', hpoll, -⟩ | ⟨r', seen', hpoll, hinv', hend⟩ :=
      pollFillBuf_cases hlen hfind hsep hinv
    · rw [hpoll] at hview
      cases hview
    · rw [hpoll] at hview
      cases hview
    · rw [hpoll] at hview
      cases hview
      refine ⟨hinv'.begins, fun hnil => ?_⟩
      obtain ⟨heq, hmarks⟩ := hinv'.at_end (hend hnil) hnil
      exact ⟨heq, hmarks.mem_candidateMatches⟩
  · obtain ⟨r', seen', hpoll, -⟩ | ⟨r', seen', hpoll, -⟩ | ⟨bytes, r', seen', hpoll, -, hend⟩ :=
      pollRead_cases hlen hfind hsep hinv n
    · rw [hpoll] at hread
      cases hread
    · rw [hpoll] at hread
      cases hread
    · rw [hpoll] at hread
      cases hread
      obtain h0 | ⟨heq, hmarks⟩ := hend rfl
      · omega
      · exact ⟨heq, hmarks.mem_candidateMatches⟩
  · obtain hview | hread := hres
    · obtain ⟨r', seen', hpoll, -⟩ | ⟨r', seen', hpoll, -, hfault⟩ | ⟨r', seen', hpoll, -⟩ :=
        pollFillBuf_cases hlen hfind hsep hinv
      · rw [hpoll] at hview
        cases hview
      · exact hfault
      · rw [hpoll] at hview
        cases hview
    · obtain ⟨r', seen', hpoll, -⟩ | ⟨r', seen', hpoll, -, hfault⟩ | ⟨bytes, r', seen', hpoll, -⟩ :=
        pollRead_cases hlen hfind hsep hinv n
      · rw [hpoll] at hread
        cases hread
      · exact hfault
      · rw [hpoll] at hread
        cases hread

end

end ReferenceSession

theorem ReferenceSession.inv_start (hlen : CommonLength asRef candidates len) {capacity : ℕ}
    (hroom : candidates ≠ [] ∨ 0 < capacity) (stream : AsyncStream) :
    (start asRef capacity candidates stream).Inv asRef candidates stream := by
  refine ⟨[], ⟨?_, rfl, .refl _, Nat.le_refl 0, [], rfl, rfl, .inl rfl⟩,
    ReferenceScanner.marks_new hlen⟩
  show (ReferencePattern.new asRef candidates).longestCandidate - 1 <
    max capacity (ReferencePattern.new asRef candidates).longestCandidate
  rw [hlen.longestCandidate]
  have htwo := hlen.two_le
  split_ifs with hnil
  · obtain hne | hpos := hroom
    · exact absurd hnil hne
    · omega
  · omega

/-- Without candidates, a reader that was given no room reads nothing. -/
theorem pollFillBuf_no_room (asRef : P → Bytes) (find : List Bytes → Bytes → List ℕ) :
    ((ReferenceSession.start asRef 0 [] ⟨[0], fun _ => .chunk 0⟩).reader.pollFillBuf asRef find).1 =
      .ready (.ok []) := rfl

/-- Reading through the scanner gives the stream unchanged and marks what occurs in it, for every
    stream and every caller, unless there are no candidates and no room. -/
theorem scans_all_iff (asRef : P → Bytes) (find : List Bytes → Bytes → List ℕ) (candidates : List P)
    (len capacity : ℕ) (hlen : CommonLength asRef candidates len)
    (hfind : FindsAll find (candidates.map asRef)) :
    (∀ stream : AsyncStream, Separated (candidates.map asRef) stream.rest → ∀ ops,
      ((ReferenceSession.start asRef capacity candidates stream).run asRef find ops).Transparent asRef
        find candidates stream) ↔
      candidates ≠ [] ∨ 0 < capacity := by
  constructor
  · intro h
    by_contra hno
    rw [not_or, not_not] at hno
    obtain ⟨rfl, hzero⟩ := hno
    obtain rfl : capacity = 0 := Nat.eq_zero_of_not_pos hzero
    have hsep : Separated (([] : List P).map asRef) [0] := by
      intro a b p q i j ha
      cases ha
    have hview := (h ⟨[0], fun _ => .chunk 0⟩ hsep []).viewed [] _
      (Prod.ext (pollFillBuf_no_room asRef find) rfl)
    cases (hview.2 rfl).1
  · intro hroom stream hsep ops
    exact ((ReferenceSession.inv_start hlen hroom stream).run hlen hfind hsep ops).transparent hlen hfind
      hsep

/-- A searcher that looks for every candidate in turn. -/
def findEach (patterns : List Bytes) (haystack : Bytes) : List ℕ :=
  (List.range patterns.length).filter fun i => decide ((patterns[i]?.getD []) <:+: haystack)

theorem mem_findEach {patterns : List Bytes} {haystack : Bytes} {i : ℕ} :
    i ∈ findEach patterns haystack ↔ ∃ p, patterns[i]? = some p ∧ p <:+: haystack := by
  rw [findEach, List.mem_filter, List.mem_range, decide_eq_true_iff]
  constructor
  · rintro ⟨hlt, hinf⟩
    rw [List.getElem?_eq_getElem hlt] at hinf
    exact ⟨_, List.getElem?_eq_getElem hlt, hinf⟩
  · rintro ⟨p, hp, hinf⟩
    rw [hp]
    exact ⟨(List.getElem?_eq_some_iff.mp hp).1, hinf⟩

theorem findsAll_findEach (patterns : List Bytes) : FindsAll findEach patterns :=
  fun _ _ _ => mem_findEach

theorem scans_all_iff_ab :
    CommonLength id [[97, 97], [98, 98]] 2 ∧
      ((∀ stream : AsyncStream, Separated ([[97, 97], [98, 98]].map id) stream.rest → ∀ ops,
        ((ReferenceSession.start id 0 [[97, 97], [98, 98]] stream).run id findEach ops).Transparent id
          findEach [[97, 97], [98, 98]] stream) ↔
        [[97, 97], [98, 98]] ≠ ([] : List Bytes) ∨ 0 < 0) := by
  have hlen : CommonLength id [[97, 97], [98, 98]] 2 := ⟨by decide, by decide⟩
  exact ⟨hlen, scans_all_iff id findEach _ 2 0 hlen (findsAll_findEach _)⟩

/-- A stream of one byte seems to be empty. -/
theorem scans_all_no_room :
    CommonLength id ([] : List Bytes) 2 ∧ FindsAll findEach [] ∧ Separated [] ([0] : Bytes) ∧
      ¬ ((ReferenceSession.start id 0 ([] : List Bytes) ⟨[0], fun _ => .chunk 0⟩).run id findEach
        []).Transparent id findEach [] ⟨[0], fun _ => .chunk 0⟩ := by
  refine ⟨⟨by decide, fun c hc => by cases hc⟩, findsAll_findEach _, ?_, fun h => ?_⟩
  · intro a b p q i j ha
    cases ha
  · have hview := h.viewed [] _ (Prod.ext (pollFillBuf_no_room id findEach) rfl)
    cases (hview.2 rfl).1

-- ====================
-- Candidates of different lengths
-- ====================

/-- What is known of the searcher for any candidates: it reports those with an occurrence that
    overlaps no other one, and only those that occur. -/
structure FindsIsolated (find : List Bytes → Bytes → List ℕ) (patterns : List Bytes) : Prop where
  complete : ∀ haystack i, Isolated patterns haystack i → i ∈ find patterns haystack
  sound : ∀ haystack, ∀ i ∈ find patterns haystack, ∃ p, patterns[i]? = some p ∧ p <:+: haystack

theorem FindsIsolated.findsAll {patterns : List Bytes} (h : FindsIsolated find patterns) :
    FindsAll find patterns := by
  intro haystack hsep i
  refine ⟨h.sound haystack i, ?_⟩
  rintro ⟨p, hp, hinf⟩
  exact h.complete haystack i (hsep.isolated hp hinf)

namespace ReferencePattern

/-- A haystack that is as long as the longest candidate is as long as each of them. -/
theorem longestCandidate_le_iff {n : ℕ} :
    (new asRef candidates).longestCandidate ≤ n ↔ ∀ c ∈ candidates, (asRef c).length ≤ n := by
  have hfold : ∀ (l : List P) v, l.foldl (fun v c => max v (asRef c).length) v ≤ n ↔
      v ≤ n ∧ ∀ c ∈ l, (asRef c).length ≤ n := by
    intro l
    induction l with
    | nil => simp
    | cons c l ih =>
      intro v
      rw [List.foldl_cons, ih, Nat.max_le, List.forall_mem_cons, and_assoc]
  show candidates.foldl _ 0 ≤ n ↔ _
  rw [hfold, and_iff_right (Nat.zero_le n)]

end ReferencePattern

namespace ReferenceScanner

/-- A scanner for the candidates, with a mark for each. -/
structure ScansFor (asRef : P → Bytes) (candidates : List P) (s : ReferenceScanner P) : Prop where
  pattern : s.pattern = .new asRef candidates
  length : s.marks.length = candidates.length

variable {s : ReferenceScanner P}

theorem scansFor_new : ScansFor asRef candidates (new asRef candidates) :=
  ⟨rfl, List.length_replicate⟩

theorem ScansFor.scan (h : ScansFor asRef candidates s) (haystack : Bytes) :
    ScansFor asRef candidates (s.scan asRef find haystack) := by
  unfold ReferenceScanner.scan
  split_ifs
  · exact h
  · exact h
  · exact ⟨h.pattern, (length_foldl_mark _ s.marks).trans h.length⟩

/-- A haystack that is shorter than some candidate is not scanned. -/
theorem ScansFor.scan_short (h : ScansFor asRef candidates s) {haystack : Bytes}
    (hshort : ¬∀ c ∈ candidates, (asRef c).length ≤ haystack.length) :
    s.scan asRef find haystack = s := by
  rw [← ReferencePattern.longestCandidate_le_iff, ← h.pattern, Nat.not_le] at hshort
  exact if_pos hshort

/-- In a haystack that is as long as each candidate, every candidate that the searcher reports is
    marked. -/
theorem ScansFor.marked_scan (h : ScansFor asRef candidates s) {haystack : Bytes}
    (hlong : ∀ c ∈ candidates, (asRef c).length ≤ haystack.length) {i : ℕ}
    (hlt : i < candidates.length) :
    (s.scan asRef find haystack).marks[i]? = some true ↔
      s.marks[i]? = some true ∨ i ∈ find (candidates.map asRef) haystack := by
  have hle := ReferencePattern.longestCandidate_le_iff.mpr hlong
  have hne : candidates ≠ [] := List.ne_nil_of_length_pos (Nat.zero_lt_of_lt hlt)
  rw [ReferenceScanner.scan, h.pattern, if_neg (Nat.not_lt.mpr hle)]
  show (if candidates = [] then s else _).marks[i]? = some true ↔ _
  rw [if_neg hne]
  show (List.foldl mark s.marks (find (candidates.map asRef) haystack))[i]? = some true ↔ _
  rw [getElem?_foldl_mark, h.length, and_iff_left hlt]

/-- A scan marks each candidate that occurs without overlapping another occurrence, unless the
    haystack is shorter than some candidate: then it marks nothing. -/
theorem scan_marks_isolated_iff (asRef : P → Bytes) (find : List Bytes → Bytes → List ℕ)
    (candidates : List P) (haystack : Bytes) (s : ReferenceScanner P)
    (hs : ScansFor asRef candidates s) (hfind : FindsIsolated find (candidates.map asRef)) :
    (∀ i, Isolated (candidates.map asRef) haystack i →
        (s.scan asRef find haystack).marks[i]? = some true) ↔
      (∀ c ∈ candidates, (asRef c).length ≤ haystack.length) ∨
        ∀ i, Isolated (candidates.map asRef) haystack i → s.marks[i]? = some true := by
  by_cases hlong : ∀ c ∈ candidates, (asRef c).length ≤ haystack.length
  · refine iff_of_true (fun i hi => ?_) (.inl hlong)
    obtain ⟨p, hp, -⟩ := hi.exists_infix
    have hlt := (List.getElem?_eq_some_iff.mp hp).1
    rw [List.length_map] at hlt
    exact (hs.marked_scan hlong hlt).mpr (.inr (hfind.complete haystack i hi))
  · rw [hs.scan_short hlong, or_iff_right hlong]

end ReferenceScanner

theorem findsIsolated_findEach (patterns : List Bytes) : FindsIsolated findEach patterns :=
  ⟨fun _ _ hi => mem_findEach.mpr hi.exists_infix, fun _ _ => mem_findEach.mp⟩

theorem isolated_aa : Isolated [[97, 97], [98, 98, 98]] ([97, 97] : Bytes) 0 := by
  refine ⟨[97, 97], 0, rfl, List.prefix_rfl, fun b q j hq hj => ?_⟩
  have hle := hj.length_le
  rw [List.length_drop, List.length_cons, List.length_singleton] at hle
  cases b with
  | zero =>
    cases hq
    rw [List.length_cons, List.length_singleton] at hle
    exact .inl ⟨rfl, by omega⟩
  | succ b =>
    cases b with
    | zero =>
      cases hq
      simp only [List.length_cons, List.length_nil] at hle
      omega
    | succ b => cases hq

theorem isolated_aac : Isolated [[97, 97], [98, 98, 98]] ([97, 97, 99] : Bytes) 0 := by
  refine ⟨[97, 97], 0, rfl, List.prefix_append [97, 97] [99], fun b q j hq hj => ?_⟩
  have hle := hj.length_le
  rw [List.length_drop] at hle
  cases b with
  | zero =>
    cases hq
    have hj' : j = 0 ∨ j = 1 := by
      simp only [List.length_cons, List.length_nil] at hle
      omega
    obtain rfl | rfl := hj'
    · exact .inl ⟨rfl, rfl⟩
    · have hno : ¬ ([97, 97] : Bytes) <+: [97, 99] := by decide
      exact absurd hj hno
  | succ b =>
    cases b with
    | zero =>
      cases hq
      have hj' : j = 0 := by
        simp only [List.length_cons, List.length_nil] at hle
        omega
      subst hj'
      have hno : ¬ ([98, 98, 98] : Bytes) <+: [97, 97, 99] := by decide
      exact absurd hj hno
    | succ b => cases hq

theorem scan_marks_isolated_aac :
    ((ReferenceScanner.new id [[97, 97], [98, 98, 98]]).scan id findEach [97, 97, 99]).marks[0]? =
      some true :=
  (ReferenceScanner.scan_marks_isolated_iff id findEach [[97, 97], [98, 98, 98]] [97, 97, 99] _
    ReferenceScanner.scansFor_new (findsIsolated_findEach _)).mpr (.inl (by decide)) 0 isolated_aac

/-- A candidate that is the whole haystack is not marked, because there is a longer one. -/
theorem scan_short_unmarked :
    FindsIsolated findEach [[97, 97], [98, 98, 98]] ∧
      Isolated [[97, 97], [98, 98, 98]] ([97, 97] : Bytes) 0 ∧
      ((ReferenceScanner.new id [[97, 97], [98, 98, 98]]).scan id findEach [97, 97]).marks[0]? =
        some false :=
  ⟨findsIsolated_findEach _, isolated_aa, rfl⟩

end Snix.Castore
