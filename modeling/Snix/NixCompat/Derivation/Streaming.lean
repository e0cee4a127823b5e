import Snix.Lib.StreamPrefix
import Snix.NixCompat.Derivation.RoundTrip

/-!
# Parsing derivations as they arrive

The streaming parser is run again on all that has been received whenever more arrives. It takes the
bytes that it read for those that are left over, as the combinator that returns both the rest of the
input and what was consumed has them in another place than expected.

## Main definitions

- `Derivation.parseStreaming` — one run, with what it reports as left over
- `Derivation.fromStreamingAtermBytes` — the loop over a buffered reader
- `received` — the chunks that are received until there are so many bytes

## Main results

- `prefixStable_parseDerivation` — the parser only ever runs out of input
- `Derivation.fromStreamingAtermBytes_iff` — what is returned, and when the leftover is right
-/

namespace Snix

open StreamParser Aterm

/-- What a buffered reader hands out. It hands out nothing only at the end. -/
abbrev Chunk := { c : Bytes // c ≠ [] }

def contents (chunks : List Chunk) : Bytes := chunks.flatMap Subtype.val

/-- The chunks up to the one that completes the first `n` bytes. -/
def received (n : ℕ) : List Chunk → Bytes
  | [] => []
  | c :: rest => if n ≤ c.val.length then c.val else c.val ++ received (n - c.val.length) rest

namespace Derivation

/-- Parses what has been received, and reports what is left over. -/
def parseStreaming (i : Bytes) : Except ParserError Derivation × Bytes :=
  match consumed parseDerivation i with
  | .ok (_, rest, derivation) =>
    match derivation.validate with
    | .error e => (.error (.validation e), i)
    | .ok _ => (.ok derivation, rest)
  | .error .incomplete => (.error .incomplete, i)
  | .error (.error e) => (.error (.parser e), i)
  | .error (.failure e) => (.error (.parser e), i)

/-- The loop, with what has been received before. Returns what the reader is left with. -/
def fromStreamingLoop (buffer : Bytes) :
    List Chunk → Except ParserError Derivation × List Bytes
  | [] => (.error .incomplete, [])
  | rest :: reader =>
    let length := rest.val.length
    match parseStreaming (buffer ++ rest.val) with
    | (.error .incomplete, _) => fromStreamingLoop (buffer ++ rest.val) reader
    | (.ok derivation, leftover) =>
      let leftoverLength := leftover.length
      if length ≥ leftoverLength then
        (.ok derivation, rest.val.drop (length - leftoverLength) :: reader.map Subtype.val)
      else (.ok derivation, rest.val :: reader.map Subtype.val)
    | (.error e, _) => (.error e, rest.val :: reader.map Subtype.val)

/-- Parses a derivation from a buffered reader. -/
def fromStreamingAtermBytes (reader : List Chunk) : Except ParserError Derivation × List Bytes :=
  fromStreamingLoop [] reader

end Derivation

-- ====================
-- The parser on partial input
-- ====================

theorem prefixStable_parseEscapedBytes : PrefixStable parseEscapedBytes := by
  refine .escapedTransform 92 (.isNot _) (.alt fun p hp => ?_)
  simp only [List.mem_cons, List.not_mem_nil, or_false] at hp
  rcases hp with rfl | rfl | rfl | rfl | rfl
  all_goals exact .value (.char _) _

theorem prefixStable_parseBytesField : PrefixStable parseBytesField :=
  .delimited (.char _) (.map (.opt prefixStable_parseEscapedBytes) _) (.char _)

theorem prefixStable_parseStringField : PrefixStable parseStringField :=
  .delimited (.char _) (.mapRes (.map (.opt prefixStable_parseEscapedBytes) _) _) (.char _)

theorem prefixStable_parseStringList : PrefixStable parseStringList :=
  .delimited (.char _) (.separatedList0 (.char _) prefixStable_parseStringField) (.char _)

/-- What is converted after it was read fails wherever the input ends. -/
theorem extends_orFailAt {α : Type} {i i' rest t : Bytes} (r : Except ErrorKind α) :
    Extends t (orFailAt i rest r) (orFailAt i' (rest ++ t) r) := by
  cases r with
  | error e => exact .failure
  | ok a => exact .ok

theorem prefixStable_parseOutput : PrefixStable parseOutput := by
  have hfield : PrefixStable (terminated parseStringField (char COMMA)) :=
    .terminated prefixStable_parseStringField (.char _)
  have hfields : PrefixStable parseOutputFields :=
    .andThen hfield fun _ => .andThen hfield fun _ => .andThen hfield fun _ =>
      .andThen prefixStable_parseBytesField fun _ => .success _
  exact .delimited (.char _) (.mapRes (.mapErr hfields _) _) (.char _)

theorem prefixStable_parseOutputs : PrefixStable parseOutputs := by
  have hlist : PrefixStable (delimited (char BRACKET_OPEN) (separatedList1 (tag [COMMA]) parseOutput)
      (char BRACKET_CLOSE) : Parser NomError (List (OutputName × Output))) :=
    .delimited (.char _) (.separatedList1 (.tag _) prefixStable_parseOutput) (.char _)
  exact .of_cases hlist (fun i rest a h => by rw [parseOutputs, h])
    (fun i e h => by rw [parseOutputs, h]) fun i rest t a => extends_orFailAt _

theorem prefixStable_parseKv {β : Type} {vf : Parser StreamParser.Error β} (hvf : PrefixStable vf) :
    PrefixStable (parseKv vf) := by
  have hlist : PrefixStable (intoNomError (separatedList0 (char COMMA) (parsePair vf))) :=
    .mapErr (.separatedList0 (.char _) (.delimited (.char _)
      (.separatedPair prefixStable_parseStringField (.char _) hvf) (.char _))) _
  -- The position of a failure is the start of the map, so the inner parser is not the same.
  intro i t
  refine .andThen (PrefixStable.char _ i t) fun _ ii => .andThen ?_ fun m rest =>
    .andThen (PrefixStable.char _ rest t) fun _ rest => .ok
  have hext := hlist ii t
  generalize intoNomError _ ii = r at hext ⊢
  generalize intoNomError _ (ii ++ t) = r' at hext ⊢
  cases hext with
  | incomplete => exact .incomplete
  | ok => exact extends_orFailAt _
  | error => exact .error
  | failure => exact .failure

theorem prefixStable_parseInputDerivations : PrefixStable parseInputDerivations :=
  .of_cases (prefixStable_parseKv prefixStable_parseStringList)
    (fun i rest a h => by rw [parseInputDerivations, h])
    (fun i e h => by rw [parseInputDerivations, h]) fun i rest t a => extends_orFailAt _

theorem prefixStable_parseInputSources : PrefixStable parseInputSources :=
  .of_cases (.mapErr prefixStable_parseStringList NomError.ofError)
    (fun i rest a h => by rw [parseInputSources, intoNomError, h])
    (fun i e h => by rw [parseInputSources, intoNomError, h]) fun i rest t a => extends_orFailAt _

/-- The parser only ever runs out of input, whatever the input goes on with. -/
theorem prefixStable_parseDerivation : PrefixStable parseDerivation := by
  have hcomma : ∀ {E α : Type} [ParseError E] {p : Parser E α}, PrefixStable p →
      PrefixStable (terminated p (char COMMA)) := fun hp => hp.terminated (.char _)
  refine .preceded (.tag _) (.delimited (.char _) ?_ (.char _))
  exact .andThen (hcomma prefixStable_parseOutputs) fun _ =>
    .andThen (hcomma prefixStable_parseInputDerivations) fun _ =>
    .andThen (hcomma prefixStable_parseInputSources) fun _ =>
    .andThen (.mapErr (hcomma prefixStable_parseStringField) _) fun _ =>
    .andThen (.mapErr (hcomma prefixStable_parseStringField) _) fun _ =>
    .andThen (.mapErr (hcomma prefixStable_parseStringList) _) fun _ =>
    .andThen (prefixStable_parseKv prefixStable_parseBytesField) fun _ => .success _

-- ====================
-- Chunks
-- ====================

@[simp] theorem contents_append (before after : List Chunk) :
    contents (before ++ after) = contents before ++ contents after := List.flatMap_append

@[simp] theorem contents_cons (c : Chunk) (chunks : List Chunk) :
    contents (c :: chunks) = c.val ++ contents chunks := List.flatMap_cons

/-- One chunk completes the first bytes. -/
theorem exists_split_of_le {chunks : List Chunk} {n : ℕ} (hpos : 0 < n)
    (hn : n ≤ (contents chunks).length) :
    ∃ before c after, chunks = before ++ c :: after ∧ (contents before).length < n ∧
      n ≤ (contents before ++ c.val).length ∧ received n chunks = contents before ++ c.val := by
  induction chunks generalizing n with
  | nil => exact absurd (hpos.trans_le hn) (lt_irrefl 0)
  | cons c chunks ih =>
    rw [received]
    split_ifs with hc
    · exact ⟨[], c, chunks, rfl, hpos, hc, rfl⟩
    · rw [contents_cons, List.length_append] at hn
      obtain ⟨before, c', after, rfl, hbefore, hc', hreceived⟩ :=
        ih (n := n - c.val.length) (by omega) (by omega)
      rw [List.length_append] at hc'
      refine ⟨c :: before, c', after, rfl, ?_, ?_, ?_⟩
      · rw [contents_cons, List.length_append]
        omega
      · rw [contents_cons, List.append_assoc, List.length_append, List.length_append]
        omega
      · rw [hreceived, contents_cons, List.append_assoc]

-- ====================
-- What is returned
-- ====================

namespace Derivation

variable {b t : Bytes} {d : Derivation} {chunks before after : List Chunk} {c : Chunk}

/-- The bytes that make up the derivation are reported as left over. -/
theorem parseStreaming_append (h : fromAtermBytes b = .ok d) (t : Bytes) :
    parseStreaming (b ++ t) = (.ok d, b) := by
  obtain ⟨hparse, hvalid⟩ := fromAtermBytes_eq_ok_iff.mp h
  have hparse : parseDerivation (b ++ t) = .ok (t, d) :=
    prefixStable_parseDerivation.append_of_ok hparse t
  rw [parseStreaming, consumed_of_ok hparse]
  dsimp only
  rw [hvalid]

theorem parseStreaming_of_incomplete {buffer : Bytes} (h : fromAtermBytes (buffer ++ t) = .ok d)
    (ht : t ≠ []) : parseStreaming buffer = (.error .incomplete, buffer) := by
  have hparse := prefixStable_parseDerivation.eq_incomplete (fromAtermBytes_eq_ok_iff.mp h).1 ht
  rw [parseStreaming, consumed_of_error hparse]

/-- What the reader is left with when the derivation is complete. -/
def unconsumed (n : ℕ) (c : Chunk) : Bytes :=
  if c.val.length ≥ n then c.val.drop (c.val.length - n) else c.val

/-- The loop goes on as long as the derivation is incomplete. -/
theorem fromStreamingLoop_eq (h : fromAtermBytes b = .ok d) {buffer u : Bytes}
    (hshort : (buffer ++ contents before).length < b.length)
    (hc : buffer ++ contents before ++ c.val = b ++ u) :
    fromStreamingLoop buffer (before ++ c :: after) =
      (.ok d, unconsumed b.length c :: after.map Subtype.val) := by
  induction before generalizing buffer with
  | nil =>
    have hc : buffer ++ c.val = b ++ u := by simpa [contents] using hc
    rw [List.nil_append, fromStreamingLoop, hc, parseStreaming_append h]
    dsimp only
    rw [unconsumed]
    split_ifs
    · rfl
    · rfl
  | cons c₀ before ih =>
    rw [contents_cons, ← List.append_assoc] at hshort hc
    have hprefix : buffer ++ c₀.val <+: b := by
      have hfront : buffer ++ c₀.val <+: b ++ u := by
        rw [← hc, List.append_assoc]
        exact List.prefix_append _ _
      refine List.prefix_of_prefix_length_le hfront (List.prefix_append b u) ?_
      rw [List.length_append] at hshort
      omega
    obtain ⟨rest, rfl⟩ := hprefix
    have hrest : rest ≠ [] := by
      rintro rfl
      simp at hshort
    rw [List.cons_append, fromStreamingLoop, parseStreaming_of_incomplete h hrest]
    exact ih hshort hc

/-- The reader is left with what follows the known bytes only if these are as many as are asked
    for. -/
theorem unconsumed_eq_iff {known u : Bytes} {n : ℕ} (hc : c.val = known ++ u) (hknown : known ≠ []) :
    unconsumed n c = u ↔ u.length = n := by
  have hpos := List.length_pos_of_ne_nil hknown
  have hclen : c.val.length = known.length + u.length := by rw [hc, List.length_append]
  rw [unconsumed]
  split_ifs with hn
  · constructor
    · intro h
      rw [← h, List.length_drop]
      omega
    · intro h
      rw [hc, List.length_append, h, Nat.add_sub_cancel, List.drop_left]
  · refine iff_of_false (fun h => ?_) (by omega)
    have hlen' := congrArg List.length h
    omega

/-- A derivation is parsed however it arrives. What is reported as left over is right if the
    derivation is followed by another copy of itself, as far as it has been received by then; the
    position of the reader is right if as many bytes follow. -/
theorem fromStreamingAtermBytes_iff (h : fromAtermBytes b = .ok d)
    (hchunks : contents chunks = b ++ t) :
    (fromStreamingAtermBytes chunks).1 = .ok d ∧
      (parseStreaming (received b.length chunks) =
          (.ok d, (received b.length chunks).drop b.length) ∧
        (fromStreamingAtermBytes chunks).2.flatten = t ↔
          received b.length chunks = b ++ b) ∧
      ((fromStreamingAtermBytes chunks).2.flatten = t ↔
        (received b.length chunks).length = 2 * b.length) := by
  have hpos : 0 < b.length := by
    refine List.length_pos_of_ne_nil ?_
    rintro rfl
    cases h
  have hle : b.length ≤ (contents chunks).length := by
    rw [hchunks, List.length_append]
    omega
  obtain ⟨before, c, after, rfl, hshort, hlong, hreceived⟩ := exists_split_of_le hpos hle
  rw [contents_append, contents_cons, ← List.append_assoc] at hchunks
  obtain ⟨u, hu⟩ : b <+: contents before ++ c.val :=
    List.prefix_of_prefix_length_le (hchunks ▸ List.prefix_append b t)
      (List.prefix_append _ (contents after)) hlong
  obtain rfl : u ++ contents after = t := by
    rw [← hu, List.append_assoc] at hchunks
    exact List.append_cancel_left hchunks
  obtain ⟨known, rfl⟩ : contents before <+: b :=
    List.prefix_of_prefix_length_le (hu ▸ List.prefix_append _ c.val) (List.prefix_append b u)
      hshort.le
  have hknown : known ≠ [] := by
    rintro rfl
    simp at hshort
  have hc : c.val = known ++ u := by
    rw [List.append_assoc] at hu
    exact (List.append_cancel_left hu).symm
  have hrun : fromStreamingAtermBytes (before ++ c :: after) =
      (.ok d, unconsumed (contents before ++ known).length c :: after.map Subtype.val) :=
    fromStreamingLoop_eq h hshort (by rw [hu]; rfl)
  have hreader : (fromStreamingAtermBytes (before ++ c :: after)).2.flatten = u ++ contents after ↔
      u.length = (contents before ++ known).length := by
    rw [hrun, ← unconsumed_eq_iff hc hknown]
    exact List.append_left_inj (contents after)
  have hlen : ((contents before ++ known) ++ u).length = 2 * (contents before ++ known).length ↔
      u.length = (contents before ++ known).length := by
    rw [List.length_append]
    omega
  rw [hreceived, ← hu, parseStreaming_append h, List.drop_left, hreader, hlen]
  refine ⟨by rw [hrun], ?_, Iff.rfl⟩
  constructor
  · rintro ⟨hleft, -⟩
    rw [(Prod.mk.inj hleft).2]
  · intro hleft
    have hu : u = contents before ++ known := List.append_cancel_left hleft
    exact ⟨by rw [← hu], by rw [hu]⟩

theorem fromAtermBytes_minimal :
    fromAtermBytes (minimal .empty).toAtermBytes = .ok (minimal .empty) := by
  have hkeys : (minimal .empty).PlainEnvironmentKeys := by decide +kernel
  have hvalid : (minimal .empty).validate = .ok () := by decide +kernel
  have hpaths : (minimal .empty).allPaths := by decide +kernel
  exact fromAtermBytes_eq_ok_iff.mpr ⟨(parseDerivation_toAtermBytes_iff hpaths).mpr hkeys, hvalid⟩

theorem minimal_ne_nil : (minimal .empty).toAtermBytes ≠ [] := by decide +kernel

/-- The derivation twice, in one chunk. -/
def twice : Chunk :=
  ⟨(minimal .empty).toAtermBytes ++ (minimal .empty).toAtermBytes,
    List.append_ne_nil_of_left_ne_nil minimal_ne_nil _⟩

theorem fromStreamingAtermBytes_twice :
    (fromStreamingAtermBytes [twice]).1 = .ok (minimal .empty) :=
  (fromStreamingAtermBytes_iff (t := (minimal .empty).toAtermBytes) fromAtermBytes_minimal
    (List.append_nil _)).1

/-- A derivation that is followed by nothing, in one chunk, is reported as left over, and the reader
    is left where it started. -/
theorem parseStreaming_leftover :
    ¬∀ (b t : Bytes) (d : Derivation) (chunks : List Chunk), fromAtermBytes b = .ok d →
      contents chunks = b ++ t →
        (fromStreamingAtermBytes chunks).1 = .ok d ∧
          parseStreaming (received b.length chunks) =
            (.ok d, (received b.length chunks).drop b.length) ∧
          (fromStreamingAtermBytes chunks).2.flatten = t := by
  intro h
  have hrun := (h (minimal .empty).toAtermBytes [] (minimal .empty)
    [⟨(minimal .empty).toAtermBytes, minimal_ne_nil⟩] fromAtermBytes_minimal rfl).2.1
  have hreceived : received (minimal .empty).toAtermBytes.length
      [⟨(minimal .empty).toAtermBytes, minimal_ne_nil⟩] = (minimal .empty).toAtermBytes ++ [] := by
    rw [received, if_pos le_rfl, List.append_nil]
  rw [hreceived, parseStreaming_append fromAtermBytes_minimal, List.drop_left] at hrun
  exact minimal_ne_nil (Prod.mk.inj hrun).2

end Derivation

end Snix
