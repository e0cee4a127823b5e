import Snix.NixCompat.Derivation.Parser

/-!
# Reading back a written derivation

Every section of a written derivation is read back, except that the names of
environment variables are written without escaping. Such a name is read back
exactly when it has no quotes and backslashes: counting backslashes and control
bytes on both sides of the parser shows that nothing else can make up for them.

## Main results

- `parseDerivationFields_written` — everything before the environment is read back
- `parseKv_writeEnvironment_iff` — when the environment is read back
- `fromAtermBytes_toAtermBytes_iff` — when a derivation is read back
-/

namespace Snix

open StreamParser Aterm

-- ====================
-- Fields that need no escaping
-- ====================

/-- A string of plain bytes. -/
def Utf8.ofPlain (s : Bytes) (h : ∀ c ∈ s, isPlain c = true) : Utf8 :=
  ⟨s, utf8Valid_of_ascii fun c hc => by
    have := h c hc
    simp only [isPlain, Bool.and_eq_true, decide_eq_true_eq] at this
    exact this.1.1.2⟩

theorem intoNomError_ok {α : Type} {p : Parser StreamParser.Error α} {i rest : Bytes} {a : α}
    (h : p i = .ok (rest, a)) : intoNomError p i = .ok (rest, a) := by
  simp [intoNomError, mapErr, h]

/-- A value and the comma after it. -/
theorem terminated_comma_ok {E α : Type} [ParseError E] {p : Parser E α} {w rest : Bytes} {a : α}
    (h : ∀ r, p (w ++ r) = .ok (r, a)) :
    terminated p (char COMMA) (w ++ COMMA :: rest) = .ok (rest, a) :=
  terminated_ok (h _) (char_cons _)

-- ====================
-- Outputs
-- ====================

/-- The four fields of an output, as strings. -/
def outputFields (e : OutputName × Output) (path : StorePath) : Utf8 × Utf8 × Utf8 × Bytes :=
  (Utf8.ofPlain e.1.name fun _ => OutputName.isPlain_of_mem_name,
    Utf8.ofPlain path.toAbsolutePath fun _ => StorePath.isPlain_of_mem_toAbsolutePath,
    match e.2.outputHash with
    | some h => Utf8.ofPlain h.asModeAndAlgoStr fun _ => OutputHash.isPlain_of_mem_asModeAndAlgoStr
    | none => Utf8.ofPlain [] (by simp),
    match e.2.outputHash with
    | some h => hexEncode h.hash.digestAsBytes
    | none => [])

theorem writeOutput_eq {e : OutputName × Output} {path : StorePath} (h : e.2.path = some path) :
    writeOutput e = PAREN_OPEN ::
      (writeField (outputFields e path).1.val true ++ COMMA ::
        (writeField (outputFields e path).2.1.val true ++ COMMA ::
          (writeField (outputFields e path).2.2.1.val true ++ COMMA ::
            writeField (outputFields e path).2.2.2 true)) ++ [PAREN_CLOSE]) := by
  obtain ⟨name, opath, ohash⟩ := e
  cases h
  cases ohash <;>
    simp [writeOutput, outputFields, writeArrayElements, joined, strAtermWrite, Utf8.ofPlain]

theorem outputOfFields_outputFields {e : OutputName × Output} {path : StorePath}
    (h : e.2.path = some path) : outputOfFields (outputFields e path) = .ok e := by
  obtain ⟨name, opath, ohash⟩ := e
  cases h
  cases ohash with
  | none =>
    simp [outputOfFields, outputFields, Utf8.ofPlain, stringToStorePath, parseOutputHash,
      Except.mapError, Bind.bind, Except.bind, Pure.pure, Except.pure]
  | some h =>
    have hne : h.asModeAndAlgoStr.isEmpty = false := by
      simpa using OutputHash.asModeAndAlgoStr_ne_nil h
    simp [outputOfFields, outputFields, Utf8.ofPlain, stringToStorePath, parseOutputHash, hne,
      Except.mapError, Bind.bind, Except.bind, Pure.pure, Except.pure,
      OutputHash.fromModeAlgoAndDigest_of_parts]

theorem parseOutputFields_written (x : Utf8 × Utf8 × Utf8 × Bytes) (rest : Bytes) :
    parseOutputFields ((writeField x.1.val true ++ COMMA ::
      (writeField x.2.1.val true ++ COMMA :: (writeField x.2.2.1.val true ++ COMMA ::
        writeField x.2.2.2 true))) ++ rest) = .ok (rest, x) := by
  obtain ⟨name, path, algo, digest⟩ := x
  have hdigest : parseBytesField (writeField digest true ++ rest) = .ok (rest, digest) :=
    parseBytesField_of_unescapes (unescapes_writeEscaped digest) rest
  simp only [List.append_assoc, List.cons_append]
  rw [parseOutputFields, andThen_ok (terminated_comma_ok (parseStringField_writeField name)),
    andThen_ok (terminated_comma_ok (parseStringField_writeField path)),
    andThen_ok (terminated_comma_ok (parseStringField_writeField algo)), andThen_ok hdigest]
  rfl

theorem parseOutput_writeOutput {e : OutputName × Output} (h : e.2.path.isSome = true)
    (rest : Bytes) : parseOutput (writeOutput e ++ rest) = .ok (rest, e) := by
  obtain ⟨path, hpath⟩ := Option.isSome_iff_exists.mp h
  rw [writeOutput_eq hpath]
  have hfields := intoNomError_ok
    (parseOutputFields_written (outputFields e path) (PAREN_CLOSE :: rest))
  refine delimited_char_ok (mapRes_ok hfields ?_)
  rw [outputOfFields_outputFields hpath]
  rfl

theorem parseOutputs_writeOutputs {o : Outputs} (h : ∀ e ∈ o.iter, e.2.path.isSome = true)
    (rest : Bytes) : parseOutputs (writeOutputs o ++ rest) = .ok (rest, o) := by
  have hlist : separatedList1 (tag [COMMA]) parseOutput
      (joined COMMA writeOutput o.iter ++ BRACKET_CLOSE :: rest) =
        .ok (BRACKET_CLOSE :: rest, o.iter) := by
    have hsep : ∀ r : Bytes, (tag [COMMA] : Parser NomError Bytes) (COMMA :: r) =
        .ok (r, [COMMA]) := fun r => tag_append [COMMA]
    have hend : (tag [COMMA] : Parser NomError Bytes) (BRACKET_CLOSE :: rest) =
        .error (.error ⟨BRACKET_CLOSE :: rest, .nom .tag⟩) := by
      simp [tag, COMMA, BRACKET_CLOSE, ParseError.fromErrorKind]
    have hne := o.iter_ne_nil
    cases hiter : o.iter with
    | nil => exact absurd hiter hne
    | cons x xs =>
      rw [hiter] at h
      exact separatedList1_of_elems hsep hend fun y hy r => parseOutput_writeOutput (h y hy) r
  have hdelim := delimited_char_ok (l := BRACKET_OPEN) hlist
  simp only [parseOutputs, writeOutputs, hdelim]
  simp [Outputs.tryFromIter_iter, Except.mapError, orFailAt]

-- ====================
-- Maps
-- ====================

theorem forall₂_ok_iff {α ε : Type} {l es : List α} :
    List.Forall₂ (fun x e => (.ok x : Except ε α) = .ok e) l es ↔ l = es := by
  simp only [Except.ok.injEq]
  exact ⟨fun h => List.forall₂_eq_eq_eq ▸ h, fun h => List.forall₂_eq_eq_eq ▸ h⟩

section Kv

variable {β : Type} {vf : Parser StreamParser.Error β} {w : Utf8 × β → Bytes}

/-- A list of pairs is read as the map of them, if their keys differ. -/
theorem parseKv_of_list {i rest : Bytes} {pairs : List (Utf8 × β)} {m : SortedMap Utf8.cmp β}
    (hlist : separatedList0 (char COMMA) (parsePair vf) (i ++ BRACKET_CLOSE :: rest) =
      .ok (BRACKET_CLOSE :: rest, pairs)) (hm : collectPairs pairs = .ok m) :
    parseKv vf (BRACKET_OPEN :: (i ++ [BRACKET_CLOSE]) ++ rest) = .ok (rest, m) := by
  refine delimited_char_ok ?_
  simp only [intoNomError_ok hlist, hm, orFailAt]

/-- A list of pairs that are read back is read back as a map of them. -/
theorem parseKv_of_pairs {es : List (Utf8 × β)} {m : SortedMap Utf8.cmp β}
    (hp : ∀ e ∈ es, ∀ r, parsePair vf (w e ++ r) = .ok (r, e)) (hm : collectPairs es = .ok m)
    (rest : Bytes) :
    parseKv vf (BRACKET_OPEN :: (joined COMMA w es ++ [BRACKET_CLOSE]) ++ rest) =
      .ok (rest, m) := by
  have hend : (char COMMA : Parser StreamParser.Error UInt8) (BRACKET_CLOSE :: rest) =
      .error (.error ⟨BRACKET_CLOSE :: rest, .char⟩) := char_cons_ne (by decide)
  have hnone : parsePair vf (BRACKET_CLOSE :: rest) =
      .error (.error ⟨BRACKET_CLOSE :: rest, .char⟩) := rfl
  exact parseKv_of_list (separatedList0_of_elems (fun r => char_cons COMMA) hend hnone hp) hm

/-- What was read as a map is a list of pairs, whose keys differ. -/
theorem exists_pairs_of_parseKv {i rest : Bytes} {m : SortedMap Utf8.cmp β}
    (h : parseKv vf (BRACKET_OPEN :: i) = .ok (rest, m)) :
    ∃ pairs, separatedList0 (char COMMA) (parsePair vf) i =
        .ok (BRACKET_CLOSE :: rest, pairs) ∧ m.entries.Perm pairs := by
  obtain ⟨i₁, b, i₂, c, h₁, h₂, h₃⟩ := delimited_eq_ok.mp h
  obtain ⟨hi, -⟩ := char_eq_ok.mp h₁
  obtain ⟨rfl, -⟩ := char_eq_ok.mp h₃
  obtain rfl : i = i₁ := by simpa using hi
  split at h₂
  · next i₂ pairs hpairs =>
    unfold orFailAt at h₂
    split at h₂
    · next hcoll =>
      cases h₂
      obtain ⟨es, hes, hperm⟩ := SortedMap.perm_of_collectNew hcoll
      obtain rfl := forall₂_ok_iff.mp hes
      refine ⟨pairs, ?_, by simpa [SortedMap.empty] using hperm⟩
      unfold intoNomError mapErr at hpairs
      split at hpairs
      · next r hr =>
        cases hpairs
        exact hr
      · cases hpairs
    · cases h₂
  · cases h₂

end Kv

-- ====================
-- Input derivations and sources
-- ====================

/-- A store path as a string. -/
def StorePath.toStr (p : StorePath) : Utf8 :=
  Utf8.ofPlain p.toAbsolutePath fun _ => StorePath.isPlain_of_mem_toAbsolutePath

/-- An output name as a string. -/
def OutputName.toStr (n : OutputName) : Utf8 :=
  Utf8.ofPlain n.name fun _ => OutputName.isPlain_of_mem_name

theorem stringToStorePath_toStr (p : StorePath) : stringToStorePath p.toStr.val = .ok p := by
  simp [stringToStorePath, StorePath.toStr, Utf8.ofPlain, Except.mapError]

theorem StorePath.plain_toStr (p : StorePath) : ∀ c ∈ p.toStr.val, c ≠ 34 ∧ c ≠ 92 :=
  fun _ hc => ne_of_isPlain (StorePath.isPlain_of_mem_toAbsolutePath hc)

theorem OutputName.plain_toStr (n : OutputName) : ∀ c ∈ n.toStr.val, c ≠ 34 ∧ c ≠ 92 :=
  fun _ hc => ne_of_isPlain (OutputName.isPlain_of_mem_name hc)

/-- A list that is written without escaping is read back if it needs none. -/
theorem parseStringList_of_plain {vs : List Utf8} (h : ∀ v ∈ vs, ∀ c ∈ v.val, c ≠ 34 ∧ c ≠ 92)
    (rest : Bytes) :
    parseStringList (BRACKET_OPEN ::
      (writeArrayElements (fun v : Utf8 => writeField v.val false) vs ++ [BRACKET_CLOSE]) ++ rest) =
        .ok (rest, vs) :=
  parseStringList_of_fields (fun v hv r => parseStringField_writeField_false (h v hv) r) rest

/-- An input derivation as it is written: the key and the output names, as
    strings. -/
def inputDerivationStrings {κ : Type} (str : κ → Utf8) (e : κ × OutputNames) :
    Utf8 × List Utf8 :=
  (str e.1, e.2.elems.map OutputName.toStr)

/-- Such an entry in writing. -/
def writeStrings (e : Utf8 × List Utf8) : Bytes :=
  PAREN_OPEN ::
    (writeField e.1.val false ++ COMMA :: BRACKET_OPEN ::
      (writeArrayElements (fun s : Utf8 => writeField s.val false) e.2 ++ [BRACKET_CLOSE]) ++
      [PAREN_CLOSE])

section InputDerivation

variable {κ : Type} {str : κ → Utf8}

theorem writeInputDerivation_eq :
    writeInputDerivation (fun k => writeField (str k).val false) =
      fun e => writeStrings (inputDerivationStrings str e) := by
  funext e
  simp only [writeStrings, inputDerivationStrings, writeArrayElements, joined_map]
  rfl

theorem parsePair_inputDerivation (hstr : ∀ k, ∀ c ∈ (str k).val, c ≠ 34 ∧ c ≠ 92)
    (e : κ × OutputNames) (rest : Bytes) :
    parsePair parseStringList (writeStrings (inputDerivationStrings str e) ++ rest) =
      .ok (rest, inputDerivationStrings str e) := by
  have hkey := parseStringField_writeField_false (hstr e.1)
  have hplain : ∀ v ∈ e.2.elems.map OutputName.toStr, ∀ c ∈ v.val, c ≠ 34 ∧ c ≠ 92 := by
    intro v hv
    obtain ⟨n, -, rfl⟩ := List.mem_map.mp hv
    exact n.plain_toStr
  have hnames := parseStringList_of_plain hplain (PAREN_CLOSE :: rest)
  refine delimited_char_ok ?_
  simp only [inputDerivationStrings, List.append_assoc, List.cons_append] at hnames ⊢
  rw [separatedPair, andThen_ok (hkey _), preceded_eq (char_cons _)]
  rw [List.nil_append] at hnames ⊢
  rw [andThen_ok hnames]
  rfl

/-- Written input derivations are read back, as strings, up to the closing bracket. -/
theorem separatedList0_inputDerivations (hstr : ∀ k, ∀ c ∈ (str k).val, c ≠ 34 ∧ c ≠ 92)
    (es : List (κ × OutputNames)) (rest : Bytes) :
    separatedList0 (char COMMA) (parsePair parseStringList)
      (joined COMMA (writeInputDerivation fun k => writeField (str k).val false) es ++
        BRACKET_CLOSE :: rest) =
      .ok (BRACKET_CLOSE :: rest, es.map (inputDerivationStrings str)) := by
  have hend : (char COMMA : Parser StreamParser.Error UInt8) (BRACKET_CLOSE :: rest) =
      .error (.error ⟨BRACKET_CLOSE :: rest, .char⟩) := char_cons_ne (by decide)
  have hnone : parsePair parseStringList (BRACKET_CLOSE :: rest) =
      .error (.error ⟨BRACKET_CLOSE :: rest, .char⟩) := rfl
  have hp : ∀ e ∈ es.map (inputDerivationStrings str), ∀ r,
      parsePair parseStringList (writeStrings e ++ r) = .ok (r, e) := by
    intro e he r
    obtain ⟨d, -, rfl⟩ := List.mem_map.mp he
    exact parsePair_inputDerivation hstr d r
  have hlist := separatedList0_of_elems (fun r => char_cons COMMA) hend hnone hp
  rw [joined_map] at hlist
  rwa [writeInputDerivation_eq]

end InputDerivation

/-- The elements of a set, converted from strings one by one. -/
theorem forall₂_elems {α ε : Type} {cmp : α → α → Ordering} {str : α → Utf8}
    {conv : Utf8 → Except ε (α × Unit)} (h : ∀ a, conv (str a) = .ok (a, ()))
    (s : SortedSet cmp) :
    List.Forall₂ (fun x e => conv x = .ok e) (s.elems.map str) s.entries := by
  rw [List.forall₂_map_left_iff, SortedMap.elems, SortedMap.keys, List.forall₂_map_left_iff]
  exact List.forall₂_same.mpr fun e _ => h e.1

theorem collectOutputNames_elems (inputDerivation : Utf8) (names : OutputNames) :
    collectOutputNames inputDerivation (names.elems.map OutputName.toStr) = .ok names := by
  refine SortedMap.collectNew_of_perm (forall₂_elems (fun n => ?_) names) ?_
  · simp [OutputName.toStr, Utf8.ofPlain, Except.mapError, Bind.bind, Except.bind, Pure.pure,
      Except.pure]
  · simp [SortedMap.empty]

theorem collectInputSources_elems (sources : SortedSet StorePath.cmp) :
    collectInputSources (sources.elems.map StorePath.toStr) = .ok sources := by
  refine SortedMap.collectNew_of_perm (forall₂_elems (fun p => ?_) sources) ?_
  · simp [stringToStorePath_toStr, Bind.bind, Except.bind, Pure.pure, Except.pure]
  · simp [SortedMap.empty]

/-- Input derivations are collected from their written entries in any order. -/
theorem collectInputDerivations_of_forall₂ {l : List (Utf8 × List Utf8)}
    {es : List (StorePath × OutputNames)} (m : InputDerivations)
    (h : List.Forall₂ (fun x e => x = inputDerivationStrings StorePath.toStr e) l es) :
    collectInputDerivations l m = .ok (es.foldl (fun m e => m.insert e.1 e.2) m) := by
  induction h generalizing m with
  | nil => rfl
  | @cons x e l es hx _ ih =>
    subst hx
    simp [collectInputDerivations, inputDerivationStrings, collectOutputNames_elems,
      stringToStorePath_toStr, Bind.bind, Except.bind, ih]

/-- The written paths of input derivations differ. -/
theorem pairwise_inputDerivationStrings (m : InputDerivations) :
    (m.entries.map (inputDerivationStrings StorePath.toStr)).Pairwise
      fun x y => Utf8.cmp x.1 y.1 ≠ .eq := by
  refine List.pairwise_map.mpr (m.sorted.imp fun {x y} hxy heq => ?_)
  have hstr : x.1.toStr.val = y.1.toStr.val := by
    simpa [Utf8.cmp, compareOn, inputDerivationStrings] using heq
  have hpath : x.1 = y.1 := by
    have hx := stringToStorePath_toStr x.1
    rw [hstr, stringToStorePath_toStr] at hx
    simpa using hx.symm
  rw [entryLt, hpath] at hxy
  simp [StorePath.cmp, compareOn] at hxy

theorem parseInputDerivations_written (m : InputDerivations) (rest : Bytes) :
    parseInputDerivations (writeInputDerivations StorePath.atermWrite m.entries ++ rest) =
      .ok (rest, m) := by
  -- The parser first sorts the entries by the text of the path, then by the path.
  obtain ⟨kvs, hkvs⟩ : ∃ kvs,
      collectPairs (m.entries.map (inputDerivationStrings StorePath.toStr)) = .ok kvs :=
    SortedMap.exists_collectNew (forall₂_ok_iff.mpr rfl) (pairwise_inputDerivationStrings m)
      (by simp [SortedMap.empty])
  obtain ⟨es, hes, hperm⟩ := SortedMap.perm_of_collectNew hkvs
  obtain rfl := forall₂_ok_iff.mp hes
  have hperm : kvs.entries.Perm (m.entries.map (inputDerivationStrings StorePath.toStr)) := by
    simpa [SortedMap.empty] using hperm
  have hforall : List.Forall₂ (fun x e => x = inputDerivationStrings StorePath.toStr e)
      (m.entries.map (inputDerivationStrings StorePath.toStr)) m.entries := by
    rw [List.forall₂_map_left_iff]
    exact List.forall₂_same.mpr fun _ _ => rfl
  obtain ⟨ds, hds, hdsPerm⟩ := List.perm_comp_forall₂ hperm hforall
  have hfold : ds.foldl (fun m e => m.insert e.1 e.2) (.empty : InputDerivations) = m :=
    SortedMap.foldl_insert_of_perm (by simpa [SortedMap.empty] using hdsPerm)
  have hcoll := collectInputDerivations_of_forall₂ .empty hds
  rw [hfold] at hcoll
  have hkv : parseKv parseStringList
      (writeInputDerivations StorePath.atermWrite m.entries ++ rest) = .ok (rest, kvs) :=
    parseKv_of_list (separatedList0_inputDerivations StorePath.plain_toStr m.entries rest) hkvs
  simp only [parseInputDerivations, hkv, hcoll, orFailAt]

theorem parseInputSources_written (s : SortedSet StorePath.cmp) (rest : Bytes) :
    parseInputSources (writeInputSources s ++ rest) = .ok (rest, s) := by
  have hplain : ∀ v ∈ s.elems.map StorePath.toStr, ∀ c ∈ v.val, c ≠ 34 ∧ c ≠ 92 := by
    intro v hv
    obtain ⟨p, -, rfl⟩ := List.mem_map.mp hv
    exact p.plain_toStr
  have hlist := intoNomError_ok (parseStringList_of_plain hplain rest)
  rw [writeArrayElements, joined_map] at hlist
  have hwrite : (fun p : StorePath => writeField p.toStr.val false) = StorePath.atermWrite := rfl
  rw [hwrite] at hlist
  simp only [parseInputSources, writeInputSources, writeArrayElements, hlist,
    collectInputSources_elems, orFailAt]

theorem parseArguments_written (arguments : List Utf8) (rest : Bytes) :
    parseStringList (writeArguments arguments ++ rest) = .ok (rest, arguments) :=
  parseStringList_of_fields (fun v _ r => parseStringField_writeField v r) rest

-- ====================
-- The environment
-- ====================

/-- The names of the environment variables have no quotes and backslashes, and so
    can be written without escaping. -/
def Derivation.PlainEnvironmentKeys (d : Derivation) : Prop :=
  ∀ k ∈ d.environment.keys, ∀ c ∈ k.val, c ≠ QUOTE ∧ c ≠ 92

instance (d : Derivation) : Decidable d.PlainEnvironmentKeys :=
  have (k : Utf8) : Decidable (∀ c ∈ k.val, c ≠ QUOTE ∧ c ≠ 92) := List.decidableBAll _ k.val
  inferInstanceAs (Decidable (∀ k ∈ d.environment.keys, ∀ c ∈ k.val, c ≠ QUOTE ∧ c ≠ 92))

theorem parsePair_writeEnvironmentEntry {e : Utf8 × Bytes} (h : ∀ c ∈ e.1.val, c ≠ 34 ∧ c ≠ 92)
    (rest : Bytes) :
    parsePair parseBytesField (writeEnvironmentEntry e ++ rest) = .ok (rest, e) := by
  have hkey := parseStringField_writeField_false h
  have hvalue := parseBytesField_of_unescapes (unescapes_writeEscaped e.2) (PAREN_CLOSE :: rest)
  refine delimited_char_ok ?_
  rw [List.append_assoc, separatedPair, andThen_ok (hkey _), List.cons_append,
    preceded_eq (char_cons _)]
  exact andThen_ok hvalue

theorem textWeight_writeEnvironmentEntry (e : Utf8 × Bytes) :
    textWeight (writeEnvironmentEntry e) = textWeight e.1.val + valueWeight e.2 := by
  have hvalue := textWeight_of_unescapes (unescapes_writeEscaped e.2)
  simp [writeEnvironmentEntry, writeField, textWeight_cons_eq, hvalue, PAREN_OPEN, PAREN_CLOSE,
    QUOTE, COMMA, show textWeight [] = 0 from rfl]

theorem weighs_parsePair : Weighs textWeight (parsePair parseBytesField) fun e =>
    valueWeight e.1.val + valueWeight e.2 :=
  .delimited (.char (textWeight_cons_eq (by decide)))
    (.separatedPair weighs_parseStringField (.char (textWeight_cons_eq (by decide)))
      weighs_parseBytesField) (.char (textWeight_cons_eq (by decide)))

/-- If the environment is read back, its names weigh the same written plainly and
    escaped. -/
theorem weights_of_parseKv {env : Environment} {rest : Bytes}
    (h : parseKv parseBytesField (writeEnvironment env ++ rest) = .ok (rest, env)) :
    (env.entries.map fun e => textWeight e.1.val).sum =
      (env.entries.map fun e => valueWeight e.1.val).sum := by
  obtain ⟨pairs, hpairs, hperm⟩ := exists_pairs_of_parseKv h
  have hweigh : textWeight (joined COMMA writeEnvironmentEntry env.entries ++
      [BRACKET_CLOSE] ++ rest) =
        (pairs.map fun e => valueWeight e.1.val + valueWeight e.2).sum +
          textWeight (BRACKET_CLOSE :: rest) :=
    Weighs.separatedList0 (.char (textWeight_cons_eq (by decide))) weighs_parsePair _ _ _ hpairs
  have hsum := (hperm.map fun e => valueWeight e.1.val + valueWeight e.2).sum_eq
  rw [← hsum] at hweigh
  simp only [List.append_assoc, textWeight_append, textWeight_joined,
    textWeight_writeEnvironmentEntry, List.singleton_append, List.sum_map_add] at hweigh
  omega

theorem sum_eq_sum_of_le {α : Type} {f g : α → ℕ} {l : List α} (hle : ∀ a, f a ≤ g a)
    (h : (l.map f).sum = (l.map g).sum) : ∀ a ∈ l, f a = g a := by
  induction l with
  | nil => simp
  | cons a l ih =>
    have hl : (l.map f).sum ≤ (l.map g).sum := List.sum_le_sum fun b _ => hle b
    have ha := hle a
    simp only [List.map_cons, List.sum_cons] at h
    exact List.forall_mem_cons.mpr ⟨by omega, ih (by omega)⟩

/-- The environment is read back exactly when its names need no escaping. -/
theorem parseKv_writeEnvironment_iff (d : Derivation) (rest : Bytes) :
    parseKv parseBytesField (writeEnvironment d.environment ++ rest) =
      .ok (rest, d.environment) ↔ d.PlainEnvironmentKeys := by
  constructor
  · intro h k hk
    obtain ⟨e, he, rfl⟩ := List.mem_map.mp hk
    have hsum := weights_of_parseKv h
    exact ne_of_textWeight_eq
      (sum_eq_sum_of_le (fun e => textWeight_le_valueWeight e.1.val) hsum e he)
  · intro h
    refine parseKv_of_pairs (fun e he r => ?_) ?_ rest
    · exact parsePair_writeEnvironmentEntry (h e.1 (List.mem_map_of_mem he)) r
    · exact SortedMap.collectNew_of_perm (forall₂_ok_iff.mpr rfl) (by simp [SortedMap.empty])

-- ====================
-- The derivation
-- ====================

/-- Everything before the environment is read back. -/
theorem parseDerivationFields_written {d : Derivation} (h : d.allPaths) (tail : Bytes) :
    parseDerivationFields
      (writeOutputs d.outputs ++ COMMA ::
        (writeInputDerivations StorePath.atermWrite d.inputDerivations.entries ++ COMMA ::
          (writeInputSources d.inputSources ++ COMMA ::
            (writeSystem d.system ++ COMMA ::
              (writeBuilder d.builder ++ COMMA ::
                (writeArguments d.arguments ++ COMMA ::
                  (writeEnvironment d.environment ++ tail))))))) =
      andThen (parseKv parseBytesField)
        (fun environment => success { d with environment := environment })
        (writeEnvironment d.environment ++ tail) := by
  rw [parseDerivationFields, andThen_ok (terminated_comma_ok (parseOutputs_writeOutputs h)),
    andThen_ok (terminated_comma_ok (parseInputDerivations_written d.inputDerivations)),
    andThen_ok (terminated_comma_ok (parseInputSources_written d.inputSources)),
    writeSystem,
    andThen_ok (intoNomError_ok (terminated_comma_ok (parseStringField_writeField d.system))),
    writeBuilder,
    andThen_ok (intoNomError_ok (terminated_comma_ok (parseStringField_writeField d.builder))),
    andThen_ok (intoNomError_ok (terminated_comma_ok (parseArguments_written d.arguments)))]

theorem parseDerivation_toAtermBytes_iff {d : Derivation} (h : d.allPaths) :
    parseDerivation d.toAtermBytes = .ok ([], d) ↔ d.PlainEnvironmentKeys := by
  have hfields := parseDerivationFields_written h [PAREN_CLOSE]
  have htag : (tag DERIVATION_PREFIX : Parser NomError Bytes) d.toAtermBytes = .ok (_, _) :=
    tag_append DERIVATION_PREFIX
  rw [← parseKv_writeEnvironment_iff d [PAREN_CLOSE], parseDerivation, preceded_eq htag,
    delimited, preceded_eq (char_cons _), terminated_eq_ok, hfields]
  simp only [andThen_eq_ok]
  constructor
  · rintro ⟨i₁, b, ⟨i₂, env, hkv, hsucc⟩, hclose⟩
    obtain ⟨rfl, hd⟩ : i₂ = i₁ ∧ { d with environment := env } = d := by
      simpa [success] using hsucc
    obtain ⟨rfl, -⟩ := char_eq_ok.mp hclose
    obtain rfl : env = d.environment := by rw [← hd]
    exact hkv
  · intro hkv
    exact ⟨_, _, ⟨_, _, hkv, rfl⟩, char_cons _⟩

/-- Parsing accepts what the term parser reads completely, if it is valid. -/
theorem fromAtermBytes_eq_ok_iff {i : Bytes} {d : Derivation} :
    Derivation.fromAtermBytes i = .ok d ↔
      parseDerivation i = .ok ([], d) ∧ d.validate = .ok () := by
  unfold Derivation.fromAtermBytes allConsuming
  cases hparse : parseDerivation i with
  | error e => cases e <;> simp
  | ok r =>
    obtain ⟨rest, d'⟩ := r
    cases rest with
    | cons c rest => simp
    | nil =>
      cases hval : d'.validate with
      | error e =>
        simp only [List.isEmpty_nil, if_true, hval, reduceCtorEq, false_iff, Except.ok.injEq,
          Prod.mk.injEq, true_and]
        rintro ⟨rfl, h⟩
        rw [hval] at h
        cases h
      | ok u =>
        simp only [List.isEmpty_nil, if_true, hval, Except.ok.injEq, Prod.mk.injEq, true_and]
        refine ⟨?_, fun h => h.1⟩
        rintro rfl
        exact ⟨rfl, hval⟩

/-- A valid derivation with output paths is read back exactly when the names of its
    environment variables have no quotes and backslashes, and different such
    derivations have different serialisations. -/
theorem fromAtermBytes_toAtermBytes_iff (d : Derivation) (hpaths : d.allPaths)
    (hvalid : d.validate = .ok ()) :
    (Derivation.fromAtermBytes d.toAtermBytes = .ok d ↔ d.PlainEnvironmentKeys) ∧
      ∀ d' : Derivation, d'.allPaths → d'.validate = .ok () → d.PlainEnvironmentKeys →
        d'.PlainEnvironmentKeys → d.toAtermBytes = d'.toAtermBytes → d = d' := by
  have hiff : ∀ d : Derivation, d.allPaths → d.validate = .ok () →
      (Derivation.fromAtermBytes d.toAtermBytes = .ok d ↔ d.PlainEnvironmentKeys) := by
    intro d hpaths hvalid
    rw [fromAtermBytes_eq_ok_iff, parseDerivation_toAtermBytes_iff hpaths]
    exact and_iff_left hvalid
  refine ⟨hiff d hpaths hvalid, fun d' hpaths' hvalid' hkeys hkeys' heq => ?_⟩
  have hd := (hiff d hpaths hvalid).mpr hkeys
  have hd' := (hiff d' hpaths' hvalid').mpr hkeys'
  rw [heq, hd'] at hd
  simpa using hd.symm

/-- A derivation with one output and nothing but an environment. -/
def Derivation.minimal (environment : Environment) : Derivation where
  arguments := []
  builder := ⟨ascii "/bin/sh", utf8Valid_of_ascii (by decide +kernel)⟩
  environment := environment
  inputDerivations := .empty
  inputSources := .empty
  outputs :=
    ⟨.single ⟨some ⟨List.Vector.replicate 20 0, ascii "hello", by decide +kernel⟩, none⟩, trivial⟩
  system := ⟨ascii "x86_64-linux", utf8Valid_of_ascii (by decide +kernel)⟩

/-- Two variables. -/
def twoVariables : Environment :=
  .ofList [(⟨ascii "a", utf8Valid_of_ascii (by decide +kernel)⟩, ascii "b"),
    (⟨ascii "c", utf8Valid_of_ascii (by decide +kernel)⟩, ascii "x")]

/-- One variable, whose name is the text between the first and the last quote of
    those two. -/
def quoteVariable : Environment :=
  .ofList [(⟨ascii "a\",\"b\"),(\"c", utf8Valid_of_ascii (by decide +kernel)⟩, ascii "x")]

theorem fromAtermBytes_toAtermBytes_twoVariables :
    (Derivation.minimal twoVariables).allPaths ∧
      (Derivation.minimal twoVariables).validate = .ok () ∧
      Derivation.fromAtermBytes (Derivation.minimal twoVariables).toAtermBytes =
        .ok (Derivation.minimal twoVariables) := by
  have hpaths : (Derivation.minimal twoVariables).allPaths := by decide +kernel
  have hvalid : (Derivation.minimal twoVariables).validate = .ok () := by decide +kernel
  have hkeys : (Derivation.minimal twoVariables).PlainEnvironmentKeys := by decide +kernel
  exact ⟨hpaths, hvalid,
    (fromAtermBytes_toAtermBytes_iff (Derivation.minimal twoVariables) hpaths hvalid).1.mpr hkeys⟩

/-- A quote in a name is not read back, and the serialisation is that of another
    derivation. -/
theorem fromAtermBytes_toAtermBytes_quoteVariable :
    (Derivation.minimal quoteVariable).allPaths ∧
      (Derivation.minimal quoteVariable).validate = .ok () ∧
      Derivation.fromAtermBytes (Derivation.minimal quoteVariable).toAtermBytes ≠
        .ok (Derivation.minimal quoteVariable) ∧
      Derivation.minimal quoteVariable ≠ Derivation.minimal twoVariables ∧
      (Derivation.minimal quoteVariable).toAtermBytes =
        (Derivation.minimal twoVariables).toAtermBytes := by
  have henv : writeEnvironment quoteVariable = writeEnvironment twoVariables := by
    decide +kernel
  refine ⟨by decide +kernel, by decide +kernel, fun h => ?_, ?_, ?_⟩
  · obtain ⟨h, -⟩ := fromAtermBytes_eq_ok_iff.mp h
    have hkeys := (parseDerivation_toAtermBytes_iff (by decide +kernel)).mp h
    exact absurd hkeys (by decide +kernel)
  · intro h
    have hlen := congrArg (fun d => d.environment.entries.length) h
    exact absurd hlen (by decide +kernel)
  · simp only [Derivation.toAtermBytes, Derivation.serializeWithReplacements, Derivation.minimal,
      henv]

end Snix
