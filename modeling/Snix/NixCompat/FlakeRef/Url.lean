import Mathlib.Data.List.TakeWhile
import Snix.Lib.FormUrlencoded

/-!
# URLs

Flake references rely on a library for URLs, which is a parameter here: what it does is
stated as laws. URLs that are printed are parsed to themselves, and the parts that
flake references look at depend on the printed form in the way the URL standard says.

`SimpleUrl` are URLs without fragments whose paths are taken as they are. They keep
the laws, and are what the library makes of such URLs.

## Main definitions

- `UrlCrate`, `LawfulUrlCrate` — the operations of the library, and their laws
- `SimpleUrl` — simple URLs
-/

namespace Snix

/-- URLs: parsing and printing, their parts, and changing the query or the host. -/
class UrlCrate (Url : Type) where
  parse : Bytes → Option Url
  asStr : Url → Bytes
  scheme : Url → Bytes
  path : Url → Bytes
  queryPairs : Url → List (Bytes × Bytes)
  appendPair : Bytes → Bytes → Url → Url
  setHost : Bytes → Url → Option Url

open UrlCrate

/-- The bytes of a scheme, in lower case. -/
def isSchemeChar (c : UInt8) : Bool :=
  (97 ≤ c && c ≤ 122) || (48 ≤ c && c ≤ 57) || c ∈ ascii "+-."

/-- An absolute path, or none. -/
def IsHierarchical (p : Bytes) : Prop := p = [] ∨ p.head? = some 47

instance (p : Bytes) : Decidable (IsHierarchical p) := instDecidableOr

/-- `s://x` -/
def withAuthority (s x : Bytes) : Bytes := s ++ 58 :: 47 :: 47 :: x

/-- What flake references expect of the library. -/
class LawfulUrlCrate (Url : Type) [UrlCrate Url] : Prop where
  /-- A printed URL is parsed to itself. -/
  parse_asStr (u : Url) : parse (asStr u) = some u
  /-- A printed URL starts with its scheme. -/
  asStr_eq (u : Url) : ∃ rest, asStr u = scheme u ++ 58 :: rest
  scheme_chars (u : Url) : (scheme u).all isSchemeChar = true
  /-- What stands before the first colon is the scheme. -/
  scheme_of_parse {s rest : Bytes} {u : Url} (hs : s.all isSchemeChar = true)
    (h : parse (s ++ 58 :: rest) = some u) : scheme u = s
  /-- A printed URL is one with a longer scheme, too, and printed in the same way. -/
  parse_git (u : Url) :
    ∃ v : Url, parse (ascii "git+" ++ asStr u) = some v ∧ asStr v = ascii "git+" ++ asStr u
  /-- The path of a URL is the path of another one, if it is absolute or empty. -/
  parse_path (u : Url) (h : IsHierarchical (path u)) :
    ∃ v : Url, parse (withAuthority (ascii "path") (path u)) = some v ∧ path v = path u ∧
      queryPairs v = []
  /-- Behind an authority the path is absolute or empty, and has no slashes that were not
      there. The schemes here have no rules of their own. -/
  path_of_parse {s x : Bytes} {u : Url}
    (hs : s ∈ [ascii "path", ascii "github", ascii "gitlab", ascii "sourcehut"])
    (h : parse (withAuthority s x) = some u) :
    IsHierarchical (path u) ∧ (path u).count 47 ≤ x.count 47
  scheme_appendPair (k v : Bytes) (u : Url) : scheme (appendPair k v u) = scheme u
  path_appendPair (k v : Bytes) (u : Url) : path (appendPair k v u) = path u
  queryPairs_appendPair (k v : Bytes) (u : Url) :
    queryPairs (appendPair k v u) = queryPairs u ++ [(k, v)]
  /-- Another host changes neither the scheme nor the path. -/
  setHost_eq {host : Bytes} {u v : Url} (h : setHost host u = some v) :
    scheme v = scheme u ∧ path v = path u

-- ====================
-- Simple URLs
-- ====================

/-- A scheme starts with a letter. -/
def IsScheme (s : Bytes) : Prop :=
  s.head?.any (fun c => 97 ≤ c && c ≤ 122) = true ∧ s.all isSchemeChar = true

instance (s : Bytes) : Decidable (IsScheme s) := instDecidableAnd

/-- A scheme, an authority and a path, and a query. -/
structure SimpleUrl where
  scheme : Bytes
  body : Bytes
  query : List (Bytes × Bytes)
  valid : IsScheme scheme ∧ 63 ∉ body
  deriving DecidableEq

namespace SimpleUrl

/-- The URL with these parts. -/
def ofParts (scheme body : Bytes) (query : List (Bytes × Bytes)) : Option SimpleUrl :=
  if h : IsScheme scheme ∧ 63 ∉ body then some ⟨scheme, body, query, h⟩ else none

/-- What stands before and behind the first question mark. -/
def splitQuery (s : Bytes) : Bytes × List (Bytes × Bytes) :=
  match splitOnce 63 s with
  | some (body, query) => (body, queryDecode query)
  | none => (s, [])

def parse (s : Bytes) : Option SimpleUrl := do
  let (scheme, rest) ← splitOnce 58 s
  ofParts scheme (splitQuery rest).1 (splitQuery rest).2

def printQuery (query : List (Bytes × Bytes)) : Bytes :=
  if query = [] then [] else 63 :: queryEncode query

def asStr (u : SimpleUrl) : Bytes := u.scheme ++ 58 :: (u.body ++ printQuery u.query)

/-- The path behind the authority, if there is one. -/
def pathOf : Bytes → Bytes
  | 47 :: 47 :: rest => rest.dropWhile (· ≠ 47)
  | body => body

/-- Puts another host into the authority. -/
def setHost (host : Bytes) (u : SimpleUrl) : Option SimpleUrl :=
  if IsHierarchical (pathOf u.body) then
    ofParts u.scheme (47 :: 47 :: (host.takeWhile (· ≠ 47) ++ pathOf u.body)) u.query
  else none

instance : UrlCrate SimpleUrl where
  parse := parse
  asStr := asStr
  scheme := scheme
  path u := pathOf u.body
  queryPairs := query
  appendPair k v u := { u with query := u.query ++ [(k, v)] }
  setHost := setHost

-- ====================
-- The laws of simple URLs
-- ====================

theorem ofParts_eq_some_iff {s b : Bytes} {q : List (Bytes × Bytes)} {u : SimpleUrl} :
    ofParts s b q = some u ↔ u.scheme = s ∧ u.body = b ∧ u.query = q := by
  unfold ofParts
  constructor
  · intro h
    split_ifs at h
    cases h
    exact ⟨rfl, rfl, rfl⟩
  · rintro ⟨rfl, rfl, rfl⟩
    exact dif_pos u.valid

theorem colon_not_mem {s : Bytes} (h : s.all isSchemeChar = true) : 58 ∉ s := by
  intro hmem
  exact absurd (List.all_eq_true.mp h 58 hmem) (by decide)

theorem splitQuery_print {b : Bytes} (h : 63 ∉ b) (q : List (Bytes × Bytes)) :
    splitQuery (b ++ printQuery q) = (b, q) := by
  unfold printQuery splitQuery
  by_cases hq : q = []
  · have hnone : splitOnce 63 b = none := splitOnce_eq_none_iff.mpr h
    rw [if_pos hq, List.append_nil, hnone, hq]
  · have hsome : splitOnce 63 (b ++ 63 :: queryEncode q) = some (b, queryEncode q) :=
      splitOnce_eq_some_iff.mpr ⟨rfl, h⟩
    rw [if_neg hq, hsome]
    show (b, queryDecode (queryEncode q)) = (b, q)
    rw [queryDecode_queryEncode]

/-- Parsing what was printed with any scheme. -/
theorem parse_eq {s b : Bytes} (hs : s.all isSchemeChar = true) (hb : 63 ∉ b)
    (q : List (Bytes × Bytes)) : parse (s ++ 58 :: (b ++ printQuery q)) = ofParts s b q := by
  have hsplit : splitOnce 58 (s ++ 58 :: (b ++ printQuery q)) = some (s, b ++ printQuery q) :=
    splitOnce_eq_some_iff.mpr ⟨rfl, colon_not_mem hs⟩
  rw [parse, hsplit]
  show ofParts s (splitQuery (b ++ printQuery q)).1 (splitQuery (b ++ printQuery q)).2 = _
  rw [splitQuery_print hb]

theorem scheme_of_parse {s rest : Bytes} {u : SimpleUrl} (hs : s.all isSchemeChar = true)
    (h : parse (s ++ 58 :: rest) = some u) :
    u.scheme = s ∧ u.body = (splitQuery rest).1 ∧ u.query = (splitQuery rest).2 := by
  have hsplit : splitOnce 58 (s ++ 58 :: rest) = some (s, rest) :=
    splitOnce_eq_some_iff.mpr ⟨rfl, colon_not_mem hs⟩
  rw [parse, hsplit] at h
  exact ofParts_eq_some_iff.mp h

theorem isHierarchical_dropWhile (x : Bytes) : IsHierarchical (x.dropWhile (· ≠ 47)) := by
  induction x with
  | nil => exact .inl rfl
  | cons c x ih =>
    rw [List.dropWhile_cons]
    split
    case isTrue => exact ih
    case isFalse hc =>
      have hc : c = 47 := by simpa using hc
      exact .inr (congrArg some hc)

/-- Up to the first slash nothing is part of an absolute path. -/
theorem dropWhile_append {host p : Bytes} (hhost : 47 ∉ host) (hp : IsHierarchical p) :
    (host ++ p).dropWhile (· ≠ 47) = p := by
  have hall : ∀ c ∈ host, decide (c ≠ 47) = true := fun c hc => decide_eq_true (by
    rintro rfl
    exact hhost hc)
  rw [List.dropWhile_append_of_pos hall]
  rcases hp with rfl | hp
  · rfl
  · cases p with
    | nil => rfl
    | cons c p =>
      obtain rfl : c = 47 := Option.some.inj hp
      rfl

theorem splitQuery_cons {c : UInt8} (hc : c ≠ 63) (x : Bytes) :
    (splitQuery (c :: x)).1 = c :: (splitQuery x).1 := by
  rw [splitQuery, splitQuery, splitOnce, if_neg hc]
  cases splitOnce 63 x <;> rfl

theorem splitQuery_sublist (x : Bytes) : (splitQuery x).1.Sublist x := by
  unfold splitQuery
  split
  case h_1 body query hsplit =>
    rw [(splitOnce_eq_some_iff.mp hsplit).1]
    exact List.sublist_append_left body _
  case h_2 => exact .refl x

theorem path_no_query (u : SimpleUrl) : 63 ∉ pathOf u.body := by
  have hbody := u.valid.2
  unfold pathOf
  split
  case h_1 rest hrest =>
    intro hmem
    rw [hrest] at hbody
    exact hbody (.tail _ (.tail _ ((List.dropWhile_sublist _).subset hmem)))
  case h_2 => exact hbody

instance : LawfulUrlCrate SimpleUrl where
  parse_asStr u :=
    (parse_eq u.valid.1.2 u.valid.2 u.query).trans (ofParts_eq_some_iff.mpr ⟨rfl, rfl, rfl⟩)
  asStr_eq u := ⟨_, rfl⟩
  scheme_chars u := u.valid.1.2
  scheme_of_parse hs h := (scheme_of_parse hs h).1
  parse_git u := by
    have hs : IsScheme (ascii "git+" ++ u.scheme) := ⟨rfl, by
      rw [List.all_append, u.valid.1.2]
      decide⟩
    refine ⟨⟨_, u.body, u.query, hs, u.valid.2⟩, ?_, ?_⟩
    · show parse (ascii "git+" ++ (u.scheme ++ 58 :: (u.body ++ printQuery u.query))) = _
      rw [← List.append_assoc, parse_eq hs.2 u.valid.2]
      exact ofParts_eq_some_iff.mpr ⟨rfl, rfl, rfl⟩
    · exact List.append_assoc _ _ _
  parse_path u h := by
    have hbody : 63 ∉ 47 :: 47 :: pathOf u.body := by
      simpa using path_no_query u
    refine ⟨⟨ascii "path", 47 :: 47 :: pathOf u.body, [], by decide, hbody⟩, ?_, ?_, rfl⟩
    · have hparse := @parse_eq (ascii "path") (47 :: 47 :: pathOf u.body) (by decide) hbody []
      rw [show printQuery [] = [] from rfl, List.append_nil] at hparse
      exact hparse.trans (ofParts_eq_some_iff.mpr ⟨rfl, rfl, rfl⟩)
    · exact dropWhile_append List.not_mem_nil h
  path_of_parse {s x u} hs h := by
    have hchars : ∀ s ∈ [ascii "path", ascii "github", ascii "gitlab", ascii "sourcehut"],
        s.all isSchemeChar = true := by decide
    obtain ⟨-, hbody, -⟩ := scheme_of_parse (hchars s hs) h
    rw [splitQuery_cons (by decide), splitQuery_cons (by decide)] at hbody
    show IsHierarchical (pathOf u.body) ∧ (pathOf u.body).count 47 ≤ x.count 47
    rw [hbody]
    exact ⟨isHierarchical_dropWhile _,
      ((List.dropWhile_sublist _).trans (splitQuery_sublist x)).count_le 47⟩
  scheme_appendPair _ _ _ := rfl
  path_appendPair _ _ _ := rfl
  queryPairs_appendPair _ _ _ := rfl
  setHost_eq {host u v} h := by
    have h : setHost host u = some v := h
    rw [setHost] at h
    split_ifs at h with hpath
    obtain ⟨hs, hbody, -⟩ := ofParts_eq_some_iff.mp h
    refine ⟨hs, ?_⟩
    show pathOf v.body = pathOf u.body
    rw [hbody]
    refine dropWhile_append (fun hmem => ?_) hpath
    have hne := List.mem_takeWhile_imp hmem
    exact absurd hne (by decide)

end SimpleUrl

end Snix
