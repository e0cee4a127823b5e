import Snix.Lib.ByteReader
import Snix.NixCompat.FlakeRef.Basic

/-!
# Printed flake references

A reference that was read keeps the URL it was read from, with the query the parameters
were read from. Printing appends the parameters to that query again, and the reference that
is read from it has another URL. Forges are read from a path `owner/repo`, but printed
with the owner in place of the host.

## Main definitions

- `FlakeRef.Stable` — the references that survive

## Main results

- `FlakeRef.reparses_iff` — exactly these are read back from what is printed
-/

namespace Snix

namespace FlakeRef

open UrlCrate LawfulUrlCrate

variable {Url : Type} [UrlCrate Url]

-- ====================
-- Parameters
-- ====================

/-- The parameters that are given. -/
def present (params : List (Bytes × Option Bytes)) : List (Bytes × Bytes) :=
  params.filterMap fun param => param.2.map fun val => (param.1, val)

theorem lookup_cons (pair : Bytes × Bytes) (pairs : List (Bytes × Bytes)) (key : Bytes) :
    lookup (pair :: pairs) key =
      (lookup pairs key).or (if pair.1 = key then some pair.2 else none) := by
  unfold lookup
  rw [List.reverse_cons, List.find?_append, Option.map_or]
  apply congrArg
  by_cases hkey : pair.1 = key
  · simp [hkey]
  · simp [hkey]

theorem present_cons (key : Bytes) (val : Option Bytes) (params : List (Bytes × Option Bytes)) :
    present ((key, val) :: params) = (val.map fun v => (key, v)).toList ++ present params := by
  cases val <;> rfl

theorem lookup_present_cons (key : Bytes) (val : Option Bytes)
    (params : List (Bytes × Option Bytes)) (other : Bytes) :
    lookup (present ((key, val) :: params)) other =
      (lookup (present params) other).or (if key = other then val else none) := by
  cases val with
  | none =>
    show lookup (present params) other = _
    rw [ite_self, Option.or_none]
  | some v =>
    show lookup ((key, v) :: present params) other = _
    rw [lookup_cons]

theorem lookup_present_none {params : List (Bytes × Option Bytes)} {key : Bytes}
    (h : key ∉ params.map Prod.fst) : lookup (present params) key = none := by
  induction params with
  | nil => rfl
  | cons param params ih =>
    rw [List.map_cons, List.mem_cons, not_or] at h
    rw [lookup_present_cons, ih h.2, if_neg fun heq => h.1 heq.symm]
    rfl

/-- Parameters are found under their names. -/
theorem lookup_present {params : List (Bytes × Option Bytes)} {key : Bytes} {val : Option Bytes}
    (hkeys : (params.map Prod.fst).Nodup) (h : (key, val) ∈ params) :
    lookup (present params) key = val := by
  induction params with
  | nil => exact absurd h List.not_mem_nil
  | cons param params ih =>
    obtain ⟨hparam, hkeys⟩ := List.nodup_cons.mp hkeys
    rw [lookup_present_cons]
    cases h with
    | head => rw [lookup_present_none hparam, if_pos rfl, Option.none_or]
    | tail _ h =>
      have hne : param.1 ≠ key := by
        rintro rfl
        exact hparam (List.mem_map.mpr ⟨_, h, rfl⟩)
      rw [ih hkeys h, if_neg hne, Option.or_none]

theorem publicKeysParam_eq_none {keys : Option (List Bytes)} :
    publicKeysParam keys = none ↔ keys = none := Option.map_eq_none_iff

theorem flag_eq_none {value : Bool} : flag value = none ↔ value = false := by
  cases value <;> decide

theorem present_eq_nil {params : List (Bytes × Option Bytes)} :
    present params = [] ↔ ∀ param ∈ params, param.2 = none := by
  unfold present
  rw [List.filterMap_eq_nil_iff]
  exact forall₂_congr fun param _ => Option.map_eq_none_iff

theorem present_fileParams_eq_nil {params : FileParams} :
    present (fileParams params) = [] ↔ params = {} := by
  obtain ⟨narHash, rev, revCount, lastModified⟩ := params
  simp [present_eq_nil, fileParams]

theorem present_gitParams_eq_nil {params : GitParams} :
    present (gitParams params) = [] ↔ params = {} := by
  obtain ⟨ref, rev, keytype, publicKey, publicKeys, submodules, shallow, exportIgnore, allRefs,
    verifyCommit⟩ := params
  simp only [present_eq_nil, gitParams, List.forall_mem_cons, publicKeysParam_eq_none,
    flag_eq_none, List.not_mem_nil, false_implies, implies_true, and_true, GitParams.mk.injEq]
  grind

theorem getParam_lt {pairs : List (Bytes × Bytes)} {key : Bytes} {n : ℕ}
    (h : getParam pairs key = some n) : n < 2 ^ 64 := by
  obtain ⟨v, -, hv⟩ := Option.bind_eq_some_iff.mp h
  exact parseU64_lt hv

theorem parse_decimal {n : Option ℕ} (h : ∀ m, n = some m → m < 2 ^ 64) :
    (n.map decimal).bind parseU64 = n := by
  cases n with
  | none => rfl
  | some m => exact parseU64_decimal (h m rfl)

/-- The parameters of files are extracted from what is appended for them. -/
theorem extract_present (pairs : List (Bytes × Bytes)) :
    extractCommonFileParams (present (fileParams (extractCommonFileParams pairs))) =
      extractCommonFileParams pairs := by
  have hkeys : ((fileParams (extractCommonFileParams pairs)).map Prod.fst).Nodup := by
    show [ascii "narHash", ascii "rev", ascii "revCount", ascii "lastModified"].Nodup
    decide +kernel
  have hfind : ∀ {key val}, (key, val) ∈ fileParams (extractCommonFileParams pairs) →
      lookup (present (fileParams (extractCommonFileParams pairs))) key = val :=
    fun h => lookup_present hkeys h
  have hnarHash := hfind (.head _)
  have hrev := hfind (.tail _ (.head _))
  have hrevCount := hfind (.tail _ (.tail _ (.head _)))
  have hlastModified := hfind (.tail _ (.tail _ (.tail _ (.head _))))
  have hcount := parse_decimal (n := (extractCommonFileParams pairs).revCount)
    fun m hm => getParam_lt hm
  have hmodified := parse_decimal (n := (extractCommonFileParams pairs).lastModified)
    fun m hm => getParam_lt hm
  rw [extractCommonFileParams, getParam, getParam, hnarHash, hrev, hrevCount, hlastModified,
    hcount, hmodified]

-- ====================
-- Printed URLs
-- ====================

theorem appendParams_cons (u : Url) (key : Bytes) (val : Option Bytes)
    (params : List (Bytes × Option Bytes)) :
    appendParams u ((key, val) :: params) = appendParams (appendParam u key val) params := rfl

section

variable [LawfulUrlCrate Url]

theorem scheme_appendParams (u : Url) (params : List (Bytes × Option Bytes)) :
    scheme (appendParams u params) = scheme u := by
  induction params generalizing u with
  | nil => rfl
  | cons param params ih =>
    obtain ⟨key, val⟩ := param
    rw [appendParams_cons, ih]
    cases val with
    | none => rfl
    | some v => exact scheme_appendPair key v u

theorem path_appendParams (u : Url) (params : List (Bytes × Option Bytes)) :
    UrlCrate.path (appendParams u params) = UrlCrate.path u := by
  induction params generalizing u with
  | nil => rfl
  | cons param params ih =>
    obtain ⟨key, val⟩ := param
    rw [appendParams_cons, ih]
    cases val with
    | none => rfl
    | some v => exact path_appendPair key v u

theorem queryPairs_appendParams (u : Url) (params : List (Bytes × Option Bytes)) :
    queryPairs (appendParams u params) = queryPairs u ++ present params := by
  induction params generalizing u with
  | nil => exact (List.append_nil _).symm
  | cons param params ih =>
    obtain ⟨key, val⟩ := param
    rw [appendParams_cons, ih, present_cons]
    cases val with
    | none => rfl
    | some v =>
      show queryPairs (appendPair key v u) ++ present params = _
      rw [queryPairs_appendPair, List.append_assoc]
      rfl

/-- A URL keeps what is appended to it. -/
theorem appendParams_eq_self {u : Url} {params : List (Bytes × Option Bytes)} :
    appendParams u params = u ↔ present params = [] := by
  constructor
  · intro h
    have hquery := queryPairs_appendParams u params
    rw [h] at hquery
    exact List.self_eq_append_right.mp hquery
  · intro h
    induction params with
    | nil => rfl
    | cons param params ih =>
      obtain ⟨key, val⟩ := param
      rw [present_cons] at h
      obtain ⟨hval, hparams⟩ := List.append_eq_nil_iff.mp h
      cases val with
      | none => exact ih hparams
      | some v => exact absurd hval (List.cons_ne_nil _ _)

theorem fromStr_asStr (u : Url) : (fromStr (asStr u) : Except FlakeRefError (FlakeRef Url)) =
    fromUrl u := by
  rw [fromStr, parse_asStr]

/-- One of the comparisons of the scheme, none of which decides about the new scheme. -/
theorem snd_eq_of_ite {c : Prop} [Decidable c] {t : FetchType} {new : Option Bytes}
    {e : Except FlakeRefError (FetchType × Option Bytes)} {r : FetchType × Option Bytes}
    (he : e = .ok r → r.2 = new) (h : (if c then .ok (t, new) else e) = .ok r) : r.2 = new := by
  by_cases hc : c
  · rw [if_pos hc] at h
    cases h
    rfl
  · rw [if_neg hc] at h
    exact he h

theorem fetchType_some {s path : Bytes} {type : FetchType} {protocol : Bytes}
    (h : fetchType s path = .ok (type, some protocol)) :
    ∃ typePart, s = typePart ++ 43 :: protocol := by
  unfold fetchType at h
  cases hsplit : splitOnce 43 s with
  | none =>
    rw [hsplit] at h
    have hnew : some protocol = none := by
      apply snd_eq_of_ite _ h
      iterate 5 apply snd_eq_of_ite
      intro hfile
      cases hfile
    cases hnew
  | some parts =>
    obtain ⟨typePart, rest⟩ := parts
    rw [hsplit] at h
    have hnew : some protocol = some rest := by
      apply snd_eq_of_ite _ h
      iterate 7 apply snd_eq_of_ite
      intro herror
      cases herror
    cases hnew
    exact ⟨typePart, (splitOnce_eq_some_iff.mp hsplit).1⟩

/-- A plus sign in the scheme goes away with the type in front of it. -/
theorem replaceScheme_ne {u w : Url} {path : Bytes} {type : FetchType} {protocol : Bytes}
    (htype : fetchType (scheme u) path = .ok (type, some protocol))
    (h : replaceScheme u (some protocol) = .ok w) : scheme w ≠ scheme u := by
  obtain ⟨typePart, hscheme⟩ := fetchType_some htype
  obtain ⟨rest, hstr⟩ := asStr_eq u
  have hchars : protocol.all isSchemeChar = true := by
    have hall := scheme_chars u
    rw [hscheme, List.all_append, Bool.and_eq_true, List.all_cons, Bool.and_eq_true] at hall
    exact hall.2.2
  rw [replaceScheme, hstr, List.drop_left] at h
  cases hparse : (parse (protocol ++ 58 :: rest) : Option Url) with
  | none =>
    rw [hparse] at h
    cases h
  | some v =>
    rw [hparse] at h
    cases h
    rw [scheme_of_parse hchars hparse, hscheme]
    intro heq
    have hlength := congrArg List.length heq
    rw [List.length_append, List.length_cons] at hlength
    omega

end

-- ====================
-- What is read
-- ====================

/-- What a reference fetches. -/
def fetched : FlakeRef Url → Option FetchType
  | .file _ _ => some .file
  | .git _ _ => some .git
  | .gitHub _ => some .gitHub
  | .gitLab _ => some .gitLab
  | .indirect _ _ _ => some .indirect
  | .mercurial _ _ => none
  | .path _ _ => some .path
  | .sourceHut _ => some .sourceHut
  | .tarball _ _ => some .tarball

/-- The URL in a reference. -/
def url? : FlakeRef Url → Option Url
  | .file url _ => some url
  | .git url _ => some url
  | .tarball url _ => some url
  | _ => none

omit [UrlCrate Url] in
theorem map_eq_ok {x : Except FlakeRefError RepoHostParams} {f : RepoHostParams → FlakeRef Url}
    {r : FlakeRef Url} (h : x.map f = .ok r) : ∃ params, x = .ok params ∧ r = f params := by
  cases x with
  | error e => cases h
  | ok params =>
    cases h
    exact ⟨params, rfl, rfl⟩

theorem ofUrl_eq_ok {w : Url} {type : FetchType} {r : FlakeRef Url}
    (h : ofUrl w type = .ok r) : r.fetched = some type ∧ ∀ u, r.url? = some u → u = w := by
  have hnone : ∀ u : Url, (none : Option Url) = some u → u = w := by
    intro u hu
    cases hu
  cases type with
  | file | tarball | git =>
    cases h
    exact ⟨rfl, fun u hu => (Option.some.inj hu).symm⟩
  | indirect | path =>
    cases h
    exact ⟨rfl, hnone⟩
  | gitHub | gitLab | sourceHut =>
    obtain ⟨params, -, rfl⟩ := map_eq_ok h
    exact ⟨rfl, hnone⟩

theorem fromUrl_eq_ok {u : Url} {r : FlakeRef Url} (h : fromUrl u = .ok r) :
    ∃ type newProtocol w, fetchType (scheme u) (UrlCrate.path u) = .ok (type, newProtocol) ∧
      replaceScheme u newProtocol = .ok w ∧ ofUrl w type = .ok r := by
  obtain ⟨⟨type, newProtocol⟩, htype, h⟩ := except_bind_eq_ok_iff.mp h
  obtain ⟨w, hw, h⟩ := except_bind_eq_ok_iff.mp h
  exact ⟨type, newProtocol, w, htype, hw, h⟩

theorem fromUrl_eq {u w : Url} {type : FetchType} {newProtocol : Option Bytes}
    (htype : fetchType (scheme u) (UrlCrate.path u) = .ok (type, newProtocol))
    (hw : replaceScheme u newProtocol = .ok w) : fromUrl u = ofUrl w type := by
  rw [fromUrl, htype]
  show (replaceScheme u newProtocol >>= fun url => ofUrl url type) = _
  rw [hw]
  rfl

theorem fromStr_eq_ok {s : Bytes} {r : FlakeRef Url} (h : fromStr s = .ok r) :
    ∃ w type, r.fetched = some type ∧ ofUrl w type = .ok r := by
  unfold fromStr at h
  cases hparse : (parse s : Option Url) with
  | none =>
    rw [hparse] at h
    cases h
  | some u =>
    rw [hparse] at h
    obtain ⟨type, newProtocol, w, -, -, h⟩ := fromUrl_eq_ok h
    exact ⟨w, type, (ofUrl_eq_ok h).1, h⟩

/-- The reference is read back from the URL it is printed as. -/
def Reparses (r : FlakeRef Url) : Prop := ∃ u, toUri r = some u ∧ fromStr (asStr u) = .ok r

section

variable [LawfulUrlCrate Url]

/-- With the scheme and the path of the URL in a reference, the same is fetched only if the
    scheme is not replaced, since its own scheme is not the one that would replace it. -/
theorem fromUrl_eq_ok_iff {u v : Url} {r : FlakeRef Url} {type : FetchType}
    (hr : r.fetched = some type) (hu : r.url? = some u) (hscheme : scheme v = scheme u)
    (hpath : UrlCrate.path v = UrlCrate.path u) :
    fromUrl v = .ok r ↔
      fetchType (scheme u) (UrlCrate.path u) = .ok (type, none) ∧ ofUrl v type = .ok r := by
  rw [← hscheme, ← hpath]
  constructor
  · intro h
    obtain ⟨type', newProtocol, w, htype, hw, hof⟩ := fromUrl_eq_ok h
    obtain ⟨hfetched, hurl⟩ := ofUrl_eq_ok hof
    obtain rfl := hurl u hu
    obtain rfl : type = type' := Option.some.inj (hr.symm.trans hfetched)
    cases newProtocol with
    | none =>
      rw [fromUrl_eq htype rfl] at h
      exact ⟨htype, h⟩
    | some protocol => exact absurd hscheme.symm (replaceScheme_ne htype hw)
  · rintro ⟨htype, h⟩
    exact (fromUrl_eq htype rfl).trans h

/-- Whatever is fetched, the URL may not change, and nothing may be appended to it. -/
theorem appended_iff {u : Url} {params : List (Bytes × Option Bytes)} {r : FlakeRef Url}
    {type : FetchType} (hu : r.url? = some u) (hof : ofUrl u type = .ok r) :
    ofUrl (appendParams u params) type = .ok r ↔ present params = [] := by
  rw [← appendParams_eq_self (u := u)]
  constructor
  · intro h
    exact ((ofUrl_eq_ok h).2 u hu).symm
  · intro h
    rw [h, hof]

theorem reparses_file_iff (u : Url) :
    Reparses (.file u (extractCommonFileParams (queryPairs u))) ↔
      extractCommonFileParams (queryPairs u) = {} ∧
        fetchType (scheme u) (UrlCrate.path u) = .ok (.file, none) := by
  have hof : ofUrl u .file = .ok (.file u (extractCommonFileParams (queryPairs u))) := rfl
  rw [← present_fileParams_eq_nil, ← appended_iff rfl hof]
  unfold Reparses
  simp only [toUri, Option.some.injEq, exists_eq_left', fromStr_asStr]
  rw [fromUrl_eq_ok_iff rfl rfl (scheme_appendParams u _) (path_appendParams u _), and_comm]

theorem reparses_tarball_iff (u : Url) :
    Reparses (.tarball u (extractCommonFileParams (queryPairs u))) ↔
      extractCommonFileParams (queryPairs u) = {} ∧
        fetchType (scheme u) (UrlCrate.path u) = .ok (.tarball, none) := by
  have hof : ofUrl u .tarball = .ok (.tarball u (extractCommonFileParams (queryPairs u))) := rfl
  rw [← present_fileParams_eq_nil, ← appended_iff rfl hof]
  unfold Reparses
  simp only [toUri, Option.some.injEq, exists_eq_left', fromStr_asStr]
  rw [fromUrl_eq_ok_iff rfl rfl (scheme_appendParams u _) (path_appendParams u _), and_comm]

/-- In front of the scheme of a printed URL the type is put, and taken away again. -/
theorem fromUrl_git {v w : Url} (h : parse (ascii "git+" ++ asStr v) = some w)
    (hw : asStr w = ascii "git+" ++ asStr v) : fromUrl w = ofUrl v .git := by
  obtain ⟨rest, hstr⟩ := asStr_eq v
  have hchars : (ascii "git+" ++ scheme v).all isSchemeChar = true := by
    rw [List.all_append, scheme_chars v]
    decide
  have hparse : parse (ascii "git+" ++ scheme v ++ 58 :: rest) = some w := by
    rw [← h, hstr, List.append_assoc]
  have hscheme : scheme w = ascii "git+" ++ scheme v := scheme_of_parse hchars hparse
  have hsplit : splitOnce 43 (scheme w) = some (ascii "git", scheme v) := by
    rw [splitOnce_eq_some_iff, hscheme]
    exact ⟨rfl, by decide⟩
  have htype : fetchType (scheme w) (UrlCrate.path w) = .ok (.git, some (scheme v)) := by
    rw [fetchType, hsplit]
    rfl
  have hdrop : (asStr w).drop (scheme w).length = 58 :: rest := by
    rw [hw, hstr, hscheme, ← List.append_assoc, List.drop_left]
  apply fromUrl_eq htype
  rw [replaceScheme, hdrop, ← hstr, parse_asStr]

theorem reparses_git_iff (u : Url) :
    Reparses (.git u (extractGitParams (queryPairs u))) ↔ extractGitParams (queryPairs u) = {} := by
  have hof : ofUrl u .git = .ok (.git u (extractGitParams (queryPairs u))) := rfl
  rw [← present_gitParams_eq_nil, ← appended_iff rfl hof]
  obtain ⟨w, hparse, hw⟩ := parse_git (appendParams u (gitParams (extractGitParams (queryPairs u))))
  unfold Reparses
  simp only [toUri, hparse, Option.some.injEq, exists_eq_left', fromStr_asStr,
    fromUrl_git hparse hw]

/-- A path behind an empty authority is read as it was printed, if it is absolute. -/
theorem reparses_path_iff (u : Url) :
    Reparses (.path (UrlCrate.path u) (extractCommonFileParams (queryPairs u)) : FlakeRef Url) ↔
      IsHierarchical (UrlCrate.path u) := by
  have hread : ∀ (w : Url) (params), parse (withAuthority (ascii "path") (UrlCrate.path u)) = some w →
      fromUrl (appendParams w params) = ofUrl (appendParams w params) .path := by
    intro w params hw
    have htype : fetchType (scheme (appendParams w params)) (UrlCrate.path (appendParams w params)) =
        .ok (.path, none) := by
      rw [scheme_appendParams, scheme_of_parse (by decide) hw]
      rfl
    exact fromUrl_eq htype rfl
  constructor
  · rintro ⟨v, hv, h⟩
    obtain ⟨w, hw, rfl⟩ := Option.map_eq_some_iff.mp hv
    rw [fromStr_asStr, hread w _ hw] at h
    have hpath : UrlCrate.path (appendParams w _) = UrlCrate.path u :=
      (FlakeRef.path.inj (Except.ok.inj h)).1
    rw [← hpath, path_appendParams]
    exact (path_of_parse (List.mem_cons_self) hw).1
  · intro h
    obtain ⟨w, hw, hpath, hquery⟩ := parse_path u h
    refine ⟨_, Option.map_eq_some_iff.mpr ⟨w, hw, rfl⟩, ?_⟩
    rw [fromStr_asStr, hread w _ hw, ofUrl, path_appendParams, hpath, queryPairs_appendParams,
      hquery, List.nil_append, extract_present]

-- ====================
-- Forges
-- ====================

theorem segments_no_slash {p owner repo : Bytes} {ref : Option Bytes}
    (h : parsePathSegments p = .ok (owner, repo, ref)) : 47 ∉ owner ∧ 47 ∉ repo := by
  unfold parsePathSegments at h
  cases howner : splitOnce 47 (p.dropWhile (· = 47)) with
  | none =>
    rw [howner] at h
    cases h
  | some parts =>
    obtain ⟨o, rest⟩ := parts
    rw [howner] at h
    dsimp only at h
    cases hrepo : splitOnce 47 rest with
    | none =>
      rw [hrepo] at h
      cases h
      exact ⟨(splitOnce_eq_some_iff.mp howner).2, splitOnce_eq_none_iff.mp hrepo⟩
    | some parts' =>
      rw [hrepo] at h
      cases h
      exact ⟨(splitOnce_eq_some_iff.mp howner).2, (splitOnce_eq_some_iff.mp hrepo).2⟩

/-- A path with one slash in front has no owner and repository. -/
theorem segments_of_count {p : Bytes} (hp : IsHierarchical p) (hcount : p.count 47 ≤ 1) :
    ∃ e, parsePathSegments p = .error e := by
  have hnone : splitOnce 47 (p.dropWhile (· = 47)) = none := by
    rw [splitOnce_eq_none_iff]
    intro hmem
    have hpos := List.count_pos_iff.mpr hmem
    cases p with
    | nil => exact List.not_mem_nil hmem
    | cons c p =>
      have hc : c = 47 := by simpa [IsHierarchical] using hp
      rw [hc, List.dropWhile_cons_of_pos (by decide)] at hpos
      have hle : (p.dropWhile (· = 47)).count 47 ≤ p.count 47 :=
        (List.dropWhile_sublist _).count_le 47
      rw [hc, List.count_cons_self] at hcount
      omega
  rw [parsePathSegments, hnone]
  exact ⟨_, rfl⟩

/-- The schemes of forges. -/
def forges : List Bytes := [ascii "github", ascii "gitlab", ascii "sourcehut"]

/-- Behind the owner in place of the host, only the repository is left in the path. -/
theorem repoUri_eq_some {s : Bytes} {params : RepoHostParams} {v : Url} (hs : s ∈ forges)
    (howner : 47 ∉ params.owner) (hrepo : 47 ∉ params.repo)
    (h : repoUri s params = some v) :
    scheme v = s ∧ IsHierarchical (UrlCrate.path v) ∧ (UrlCrate.path v).count 47 ≤ 1 := by
  have hchars : ∀ s ∈ forges, s.all isSchemeChar = true := by decide +kernel
  obtain ⟨u, hu, h⟩ := Option.bind_eq_some_iff.mp h
  obtain ⟨w, hw, h⟩ := Option.bind_eq_some_iff.mp h
  have hwu : scheme w = scheme u ∧ UrlCrate.path w = UrlCrate.path u := by
    cases hhost : params.host with
    | none =>
      rw [hhost] at hw
      cases hw
      exact ⟨rfl, rfl⟩
    | some host =>
      rw [hhost] at hw
      exact setHost_eq hw
  have hpath := path_of_parse (.tail _ hs) hu
  have hcount : (params.owner ++ 47 :: params.repo).count 47 = 1 := by
    rw [List.count_append, List.count_cons_self, List.count_eq_zero.mpr howner,
      List.count_eq_zero.mpr hrepo]
  cases h
  rw [scheme_appendParams, path_appendParams, hwu.1, hwu.2]
  exact ⟨scheme_of_parse (hchars s hs) hu, hpath.1, hcount ▸ hpath.2⟩

/-- What is printed for a forge is rejected. -/
theorem not_reparses_forge {s : Bytes} {params : RepoHostParams} {r : FlakeRef Url}
    (hs : s ∈ forges) (hr : toUri r = repoUri s params) (howner : 47 ∉ params.owner)
    (hrepo : 47 ∉ params.repo) : ¬ Reparses r := by
  rintro ⟨v, hv, h⟩
  rw [hr] at hv
  obtain ⟨hscheme, hpath, hcount⟩ := repoUri_eq_some hs howner hrepo hv
  obtain ⟨e, he⟩ := segments_of_count hpath hcount
  have hread : extractRepoParams (UrlCrate.path v) (queryPairs v) = .error e := by
    rw [extractRepoParams, he]
    rfl
  rw [fromStr_asStr] at h
  have hnot : ∀ (type : FetchType) (f : RepoHostParams → FlakeRef Url),
      fetchType s (UrlCrate.path v) = .ok (type, none) →
      ofUrl v type = (extractRepoParams (UrlCrate.path v) (queryPairs v)).map f → False := by
    intro type f htype hof
    rw [← hscheme] at htype
    rw [fromUrl_eq htype rfl, hof, hread] at h
    cases h
  simp only [forges, List.mem_cons, List.not_mem_nil, or_false] at hs
  obtain rfl | rfl | rfl := hs
  · exact hnot .gitHub .gitHub rfl rfl
  · exact hnot .gitLab .gitLab rfl rfl
  · exact hnot .sourceHut .sourceHut rfl rfl

theorem not_reparses_indirect (id : Bytes) (ref rev : Option Bytes) :
    ¬ Reparses (.indirect id ref rev : FlakeRef Url) := by
  rintro ⟨v, hv, h⟩
  obtain ⟨w, hw, rfl⟩ := Option.map_eq_some_iff.mp hv
  rw [fromStr_asStr] at h
  obtain ⟨type, newProtocol, u, htype, -, hof⟩ := fromUrl_eq_ok h
  have hscheme : scheme (appendParams w [(ascii "ref", ref), (ascii "rev", rev)]) =
      ascii "indirect" := by
    rw [scheme_appendParams]
    exact scheme_of_parse (by decide) hw
  -- Without a plus sign the scheme is not known.
  have hfetched : ∀ p, fetchType (ascii "indirect") p = .ok (.tarball, none) ∨
      fetchType (ascii "indirect") p = .ok (.file, none) := by
    intro p
    show (if isTarballExtension p then _ else _) = _ ∨ (if isTarballExtension p then _ else _) = _
    split_ifs
    · exact .inl rfl
    · exact .inr rfl
  have hindirect : type = .indirect := (Option.some.inj (ofUrl_eq_ok hof).1).symm
  rw [hscheme, hindirect] at htype
  obtain hfile | hfile := hfetched (UrlCrate.path (appendParams w [(ascii "ref", ref), (ascii "rev", rev)]))
  · rw [hfile] at htype
    cases htype
  · rw [hfile] at htype
    cases htype

-- ====================
-- Main result
-- ====================

/-- The references that survive: absolute paths, and URLs without parameters. -/
def Stable : FlakeRef Url → Prop
  | .file url params =>
    params = {} ∧ fetchType (scheme url) (UrlCrate.path url) = .ok (.file, none)
  | .tarball url params =>
    params = {} ∧ fetchType (scheme url) (UrlCrate.path url) = .ok (.tarball, none)
  | .git _ params => params = {}
  | .path p _ => IsHierarchical p
  | .gitHub _ | .gitLab _ | .sourceHut _ | .indirect _ _ _ | .mercurial _ _ => False

/-- Exactly these references are read back from what is printed. -/
theorem reparses_iff {s : Bytes} {r : FlakeRef Url} (h : fromStr s = .ok r) :
    (∃ u, toUri r = some u ∧ fromStr (asStr u) = .ok r) ↔ Stable r := by
  obtain ⟨w, type, hfetched, hof⟩ := fromStr_eq_ok h
  have hforge : ∀ {f : RepoHostParams → FlakeRef Url} {scheme : Bytes}, scheme ∈ forges →
      (∀ params, toUri (f params) = repoUri scheme params) →
      (extractRepoParams (UrlCrate.path w) (queryPairs w)).map f = .ok r →
      ¬ Reparses r := by
    intro f scheme hs hf hof
    obtain ⟨params, hparams, rfl⟩ := map_eq_ok hof
    obtain ⟨⟨owner, repo, ref⟩, hsegments, hparams⟩ := except_bind_eq_ok_iff.mp hparams
    have hslash := segments_no_slash hsegments
    dsimp only at hparams
    split_ifs at hparams
    cases hparams
    exact not_reparses_forge hs (hf _) hslash.1 hslash.2
  cases type with
  | file =>
    cases hof
    exact reparses_file_iff w
  | tarball =>
    cases hof
    exact reparses_tarball_iff w
  | git =>
    cases hof
    exact reparses_git_iff w
  | path =>
    cases hof
    exact reparses_path_iff w
  | indirect =>
    cases hof
    exact iff_of_false (not_reparses_indirect _ _ _) id
  | gitHub =>
    have hnot := hforge (.head _) (fun _ => rfl) hof
    obtain ⟨params, -, rfl⟩ := map_eq_ok hof
    exact iff_of_false hnot id
  | gitLab =>
    have hnot := hforge (.tail _ (.head _)) (fun _ => rfl) hof
    obtain ⟨params, -, rfl⟩ := map_eq_ok hof
    exact iff_of_false hnot id
  | sourceHut =>
    have hnot := hforge (.tail _ (.tail _ (.head _))) (fun _ => rfl) hof
    obtain ⟨params, -, rfl⟩ := map_eq_ok hof
    exact iff_of_false hnot id

end

/-- `path:/a?rev=b` -/
def samplePath : FlakeRef SimpleUrl := .path (ascii "/a") { rev := some (ascii "b") }

theorem reparses_samplePath :
    (∃ u, toUri samplePath = some u ∧ fromStr (asStr u) = .ok samplePath) ↔ Stable samplePath :=
  @reparses_iff SimpleUrl _ _ (ascii "path:/a?rev=b") samplePath (by decide +kernel)

/-- `github:a/b` -/
def sampleGitHub : FlakeRef SimpleUrl := .gitHub { owner := ascii "a", repo := ascii "b" }

/-- The URL printed for a repository is rejected. -/
theorem sampleGitHub_not_reparsed :
    fromStr (ascii "github:a/b") = .ok sampleGitHub ∧
      (toUri sampleGitHub).map asStr = some (ascii "github://a/b") ∧
      (fromStr (ascii "github://a/b") : Except FlakeRefError (FlakeRef SimpleUrl)) =
        .error (.unsupportedType (ascii "URLs must contain owner and repo")) ∧
      ¬ ∃ u, toUri sampleGitHub = some u ∧ fromStr (asStr u) = .ok sampleGitHub := by
  have hprint : (toUri sampleGitHub).map asStr = some (ascii "github://a/b") := by decide +kernel
  have hread : (fromStr (ascii "github://a/b") : Except FlakeRefError (FlakeRef SimpleUrl)) =
      .error (.unsupportedType (ascii "URLs must contain owner and repo")) := by decide +kernel
  refine ⟨by decide +kernel, hprint, hread, ?_⟩
  rintro ⟨u, hu, h⟩
  rw [hu] at hprint
  rw [Option.some.inj hprint, hread] at h
  cases h

end FlakeRef

end Snix
