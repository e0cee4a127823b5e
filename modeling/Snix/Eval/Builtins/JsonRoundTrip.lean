import Snix.Eval.Value.Json
import Snix.Eval.Value.Same

/-!
# JSON round trips

What a value is written as is read back as the same data, as long as it contains nothing but null,
booleans, integers, lists, attribute sets and UTF-8. The context of the text is that of all
strings in the value.

## Main definitions

- `Plain` — the values that are written as what they are
- `Document` — the documents that they are written as
- `Travels` — a value, what it is written as, and what is read back

## Main results

- `Plain.exists_travels` — every such value is read back
- `fromJson_toJson` — the round trip of the builtins
-/

namespace Snix.Eval

/-- A value of null, booleans, integers, UTF-8, lists and attribute sets, nested at most so deep.
    No attribute set is coerced to a string or stands for its output path. -/
inductive Plain (vm : Vm) : ℕ → Value → Prop
  | null {n : ℕ} {v : Value} (h : v.force vm = .ok .null) : Plain vm n v
  | bool {n : ℕ} {v : Value} {b : Bool} (h : v.force vm = .ok (.bool b)) : Plain vm n v
  | integer {n : ℕ} {v : Value} {i : Int} (h : v.force vm = .ok (.integer i))
    (hrange : -2 ^ 63 ≤ i ∧ i < 2 ^ 63) : Plain vm n v
  | string {n : ℕ} {v : Value} {s : NixString} (h : v.force vm = .ok (.string s))
    (hutf8 : utf8Valid s.contents = true) : Plain vm n v
  | list {n : ℕ} {v : Value} {l : List Value} (h : v.force vm = .ok (.list l))
    (hplain : ∀ w ∈ l, Plain vm n w) : Plain vm (n + 1) v
  | attrs {n : ℕ} {v : Value} {a : AttrsRep Value} (h : v.force vm = .ok (.attrs a))
    (hvalid : a.Valid) (hstring : a.select TO_STRING.contents = none)
    (hpath : a.select OUT_PATH.contents = none)
    (hnames : ∀ e ∈ a.intoIterSorted, utf8Valid e.1.contents = true)
    (hplain : ∀ e ∈ a.intoIterSorted, Plain vm n e.2) : Plain vm (n + 1) v

/-- A document of null, booleans, integers of at most 64 bits, UTF-8, arrays and objects, nested at
    most so deep. -/
inductive Document : ℕ → Json → Prop
  | null {n : ℕ} : Document n .null
  | bool {n : ℕ} (b : Bool) : Document n (.bool b)
  | integer {n : ℕ} {i : Int} (hrange : -2 ^ 63 ≤ i ∧ i < 2 ^ 63) : Document n (.integer i)
  | string {n : ℕ} {s : Bytes} (hutf8 : utf8Valid s = true) : Document n (.string s)
  | array {n : ℕ} {l : List Json} (h : ∀ j ∈ l, Document n j) : Document (n + 1) (.array l)
  | object {n : ℕ} {m : List (Bytes × Json)} (hsorted : m.Pairwise (entryLt compare))
    (hnames : ∀ e ∈ m, utf8Valid e.1 = true) (h : ∀ e ∈ m, Document n e.2) :
    Document (n + 1) (.object m)

/-- An element of the context of the string. -/
def ContextHas (e : NixContextElement) (x : Value) : Prop :=
  ∃ s, x = .string s ∧ e ∈ s.context

/-- A value, the document it is written as, the context that is written with it, and the value that
    the document is read as. -/
structure Travels (vm : Vm) (n : ℕ) (v : Value) (j : Json) (context : NixContext) (w : Value) :
    Prop where
  writes : ∃ n₀, ∀ m, n₀ ≤ m → intoContextfulJson vm m v = some (.ok (j, context))
  document : Document n j
  context_iff : ∀ e, e ∈ context ↔ Somewhere vm (ContextHas e) v
  reads : Value.deserialize j = .ok w
  same : Same vm w v

/-- A round trip of one element of a list, or of one attribute. -/
structure Trip where
  json : Json
  context : NixContext
  back : Value

variable {vm : Vm} {n m : ℕ} {v w : Value} {l : List Value} {a : AttrsRep Value}
  {into : Value → Option (Except Fault (Json × NixContext))} {ts : List Trip}
  {es : List (NixString × Value)} {e : NixContextElement} {context : NixContext}

theorem asStr_of_valid {s : NixString} (h : utf8Valid s.contents = true) :
    s.asStr = .ok ⟨s.contents, h⟩ := by
  rw [NixString.asStr, Utf8.ofBytes?, dif_pos h]

-- ====================
-- Writing
-- ====================

/-- The contexts of all trips. -/
def contextOf (ts : List Trip) (context : NixContext) : NixContext :=
  ts.foldl (fun context t => context.extend t.context) context

theorem mem_contextOf : e ∈ contextOf ts context ↔ e ∈ context ∨ ∃ t ∈ ts, e ∈ t.context := by
  induction ts generalizing context with
  | nil => simp [contextOf]
  | cons t ts ih =>
    show e ∈ contextOf ts (context.extend t.context) ↔ _
    rw [ih, mem_extend, or_assoc, List.exists_mem_cons_iff]

theorem jsonItems_eq (h : List.Forall₂ (fun w t => into w = some (.ok (t.json, t.context))) l ts)
    (out : List Json) (context : NixContext) :
    jsonItems into l out context =
      some (.ok (.array (out ++ ts.map Trip.json), contextOf ts context)) := by
  induction h generalizing out context with
  | nil => rw [jsonItems, List.map_nil, List.append_nil]; rfl
  | cons hw _ ih =>
    rw [jsonItems, hw]
    show jsonItems into _ _ _ = _
    rw [ih, List.append_assoc]
    rfl

/-- Something of every trip, with the name of the attribute. -/
def withNames {β : Type} (f : Trip → β) (es : List (NixString × Value)) (ts : List Trip) :
    List (Bytes × β) :=
  List.zipWith (fun e t => (e.1.contents, f t)) es ts

theorem map_fst_withNames {β : Type} (f : Trip → β) (hlen : es.length = ts.length) :
    (withNames f es ts).map Prod.fst = es.map fun e => e.1.contents := by
  induction es generalizing ts with
  | nil => rfl
  | cons e es ih =>
    cases ts with
    | nil => cases hlen
    | cons t ts => exact congrArg (List.cons e.1.contents) (ih (Nat.succ.inj hlen))

theorem map_snd_withNames {β : Type} (f : Trip → β) (hlen : es.length = ts.length) :
    (withNames f es ts).map Prod.snd = ts.map f := by
  induction es generalizing ts with
  | nil =>
    obtain rfl := List.length_eq_zero_iff.mp hlen.symm
    rfl
  | cons e es ih =>
    cases ts with
    | nil => cases hlen
    | cons t ts => exact congrArg (List.cons (f t)) (ih (Nat.succ.inj hlen))

theorem pairwise_withNames {β : Type} (f : Trip → β) (hlen : es.length = ts.length)
    (hsorted : (es.map fun e => e.1.contents).Pairwise fun k k' => compare k k' = .lt) :
    (withNames f es ts).Pairwise (entryLt compare) := by
  rw [← map_fst_withNames f hlen, List.pairwise_map] at hsorted
  exact hsorted

/-- Attributes in the order of their names are put at the end, one after the other. -/
theorem jsonEntries_eq
    (h : List.Forall₂ (fun e t => into e.2 = some (.ok (t.json, t.context))) es ts)
    (hnames : ∀ e ∈ es, utf8Valid e.1.contents = true) (out : List (Bytes × Json))
    (context : NixContext)
    (hsorted : (out ++ withNames Trip.json es ts).Pairwise (entryLt compare)) :
    jsonEntries into es out context =
      some (.ok (.object (out ++ withNames Trip.json es ts), contextOf ts context)) := by
  induction h generalizing out context with
  | nil => rw [jsonEntries, withNames, List.zipWith_nil_left, List.append_nil]; rfl
  | @cons e t es ts hw _ ih =>
    have hcons : withNames Trip.json (e :: es) (t :: ts) =
        (e.1.contents, t.json) :: withNames Trip.json es ts := rfl
    have hgt : ∀ x ∈ out, compare e.1.contents x.1 = .gt := by
      intro x hx
      have hlt := (List.pairwise_append.mp hsorted).2.2 x hx (e.1.contents, t.json)
        (hcons ▸ List.mem_cons_self)
      exact Std.OrientedCmp.gt_of_lt hlt
    have hput := SortedMap.insertEntry_of_gt (v := t.json) hgt
    rw [hcons, List.append_cons] at hsorted
    rw [jsonEntries, hw]
    simp only [asStr_of_valid (hnames e List.mem_cons_self), hput]
    rw [hcons, List.append_cons out _ (withNames Trip.json es ts)]
    exact ih (fun e he => hnames e (List.mem_cons_of_mem _ he)) _ _ hsorted

-- ====================
-- Reading
-- ====================

theorem deserializeItems_eq (h : ∀ t ∈ ts, Value.deserialize t.json = .ok t.back) :
    deserializeItems (ts.map Trip.json) = .ok (ts.map Trip.back) := by
  induction ts with
  | nil => rfl
  | cons t ts ih =>
    rw [List.map_cons, deserializeItems, h t List.mem_cons_self,
      ih fun t ht => h t (List.mem_cons_of_mem _ ht)]
    rfl

/-- The keys and values of an object, as they are read. -/
def pairsOf (m : List (Bytes × Value)) : List (Value × Value) :=
  m.map fun e => (.string (.plain e.1), e.2)

theorem deserializeEntries_eq (h : ∀ t ∈ ts, Value.deserialize t.json = .ok t.back) :
    deserializeEntries (withNames Trip.json es ts) =
      .ok (stackOf (pairsOf (withNames Trip.back es ts))) := by
  induction es generalizing ts with
  | nil => rfl
  | cons e es ih =>
    cases ts with
    | nil => rfl
    | cons t ts =>
      have hcons : withNames Trip.json (e :: es) (t :: ts) =
          (e.1.contents, t.json) :: withNames Trip.json es ts := rfl
      rw [hcons, deserializeEntries, h t List.mem_cons_self,
        ih fun t ht => h t (List.mem_cons_of_mem _ ht)]
      rfl

theorem named_pairsOf (m : List (Bytes × Value)) :
    (named (pairsOf m)).map HashMap.borrowed = m := by
  induction m with
  | nil => rfl
  | cons e m ih => exact congrArg (List.cons e) ih

theorem constructible_pairsOf {m : List (Bytes × Value)} (h : m.Pairwise (entryLt compare)) :
    Constructible (pairsOf m) := by
  constructor
  · intro p hp
    obtain ⟨e, -, rfl⟩ := List.mem_map.mp hp
    exact .inr ⟨_, rfl⟩
  · rw [← named_pairsOf m, List.pairwise_map] at h
    refine h.imp fun {x y} hlt heq => ?_
    have heq' : compare (borrow x.1 : Bytes) (borrow y.1) = .eq := heq ▸ Std.ReflCmp.compare_self
    exact absurd (hlt.symm.trans heq') (by decide)

/-- What sorted names and values are read as. -/
theorem exists_visitMap {m : List (Bytes × Value)} (h : m.Pairwise (entryLt compare)) :
    ∃ a : AttrsRep Value, visitMap (stackOf (pairsOf m)) = .ok (.attrs a) ∧ a.Valid ∧
      a.intoIterSorted.map HashMap.borrowed = m := by
  obtain ⟨a, ha⟩ := exists_construct_eq_ok (constructible_pairsOf h)
  obtain ⟨-, hvalid, hmap⟩ := construct_eq_ok ha
  refine ⟨a, ?_, hvalid, ?_⟩
  · rw [visitMap, length_stackOf, Nat.mul_div_cancel _ Nat.zero_lt_two, ha]
  · rw [(AttrsRep.agrees_toMap hvalid).intoIterSorted, hmap, HashMap.toSortedMap, named_pairsOf]
    exact SortedMap.entries_ofList h

/-- The names of an attribute set are in order. -/
theorem AttrsRep.pairwise_names (h : a.Valid) :
    (a.intoIterSorted.map fun e => e.1.contents).Pairwise fun k k' => compare k k' = .lt := by
  have hsorted := a.toMap.sorted
  rw [← (AttrsRep.agrees_toMap h).intoIterSorted, List.pairwise_map] at hsorted
  rw [List.pairwise_map]
  exact hsorted

-- ====================
-- Round trips
-- ====================

theorem somewhere_list_iff {P : Value → Prop} (h : v.force vm = .ok (.list l))
    (hP : ¬P (.list l)) : Somewhere vm P v ↔ ∃ w ∈ l, Somewhere vm P w := by
  constructor
  · intro hin
    cases hin with
    | here hx hPx =>
      cases h.symm.trans hx
      exact absurd hPx hP
    | list hl hw hin =>
      cases h.symm.trans hl
      exact ⟨_, hw, hin⟩
    | attrs ha _ _ => cases h.symm.trans ha
  · rintro ⟨w, hw, hin⟩
    exact .list h hw hin

theorem somewhere_attrs_iff {P : Value → Prop} (h : v.force vm = .ok (.attrs a))
    (hP : ¬P (.attrs a)) : Somewhere vm P v ↔ ∃ e ∈ a.intoIterSorted, Somewhere vm P e.2 := by
  constructor
  · intro hin
    cases hin with
    | here hx hPx =>
      cases h.symm.trans hx
      exact absurd hPx hP
    | list hl _ _ => cases h.symm.trans hl
    | attrs ha he hin =>
      cases h.symm.trans ha
      exact ⟨_, he, hin⟩
  · rintro ⟨e, he, hin⟩
    exact .attrs h he hin

/-- A value that contains no others. -/
theorem somewhere_iff_of_scalar {P : Value → Prop} {x : Value} (h : v.force vm = .ok x)
    (hlist : ∀ l, x ≠ .list l) (hattrs : ∀ a, x ≠ .attrs a) : Somewhere vm P v ↔ P x := by
  constructor
  · intro hin
    cases hin with
    | here hx hPx =>
      cases h.symm.trans hx
      exact hPx
    | list hl _ _ => exact absurd (Except.ok.inj (h.symm.trans hl)) (hlist _)
    | attrs ha _ _ => exact absurd (Except.ok.inj (h.symm.trans ha)) (hattrs _)
  · exact .here h

/-- A value that contains no others is written as soon as it is forced. -/
theorem travels_of_scalar {x : Value} {j : Json} (h : v.force vm = .ok x)
    (hlist : ∀ l, x ≠ .list l) (hattrs : ∀ a, x ≠ .attrs a)
    (hwrites : ∀ m, intoContextfulJson vm (m + 1) v = some (.ok (j, context)))
    (hcontext : ∀ e, e ∈ context ↔ ContextHas e x) (hdoc : Document n j)
    (hreads : Value.deserialize j = .ok w) (hsame : Same vm w v) :
    Travels vm n v j context w where
  writes := by
    refine ⟨1, fun m hm => ?_⟩
    obtain ⟨m, rfl⟩ := Nat.exists_eq_add_of_le' hm
    exact hwrites m
  document := hdoc
  context_iff e := (hcontext e).trans (somewhere_iff_of_scalar h hlist hattrs).symm
  reads := hreads
  same := hsame

theorem not_contextHas {x : Value} (h : ∀ s, x ≠ .string s) (e : NixContextElement) :
    e ∈ ([] : NixContext) ↔ ContextHas e x := by
  refine iff_of_false List.not_mem_nil ?_
  rintro ⟨s, hs, -⟩
  exact h s hs

theorem travels_list (h : v.force vm = .ok (.list l))
    (hts : List.Forall₂ (fun w t => Travels vm n w t.json t.context t.back) l ts) :
    Travels vm (n + 1) v (.array (ts.map Trip.json)) (contextOf ts []) (.list (ts.map Trip.back)) where
  writes := by
    obtain ⟨n₀, hn₀⟩ := exists_forall₂_le (hts.imp fun w t ht => ht.writes)
    refine ⟨n₀ + 1, fun m hm => ?_⟩
    obtain ⟨m, rfl⟩ := Nat.exists_eq_add_of_le' ((Nat.le_add_left 1 n₀).trans hm)
    simp only [intoContextfulJson, h]
    exact jsonItems_eq (hn₀ m (by omega)) [] []
  document := by
    refine .array fun j hj => ?_
    obtain ⟨t, ht, rfl⟩ := List.mem_map.mp hj
    obtain ⟨w, -, hw⟩ := (mem_forall₂ hts).1 t ht
    exact hw.document
  context_iff e := by
    rw [mem_contextOf, somewhere_list_iff h (by rintro ⟨s, hs, -⟩; cases hs)]
    constructor
    · rintro (he | ⟨t, ht, he⟩)
      · exact absurd he List.not_mem_nil
      · obtain ⟨w, hw, htravels⟩ := (mem_forall₂ hts).1 t ht
        exact ⟨w, hw, (htravels.context_iff e).mp he⟩
    · rintro ⟨w, hw, hin⟩
      obtain ⟨t, ht, htravels⟩ := (mem_forall₂ hts).2 w hw
      exact .inr ⟨t, ht, (htravels.context_iff e).mpr hin⟩
  reads := by
    rw [Value.deserialize, deserializeItems_eq]
    · rfl
    · intro t ht
      obtain ⟨w, -, hw⟩ := (mem_forall₂ hts).1 t ht
      exact hw.reads
  same := by
    have hsame : List.Forall₂ (fun x w => Same vm x w) (ts.map Trip.back) l := by
      rw [List.forall₂_map_left_iff]
      exact (hts.imp fun w t ht => ht.same).flip
    obtain ⟨hlen, hzip⟩ := List.forall₂_iff_zip.mp hsame
    exact .list rfl h hlen fun p hp => hzip hp

theorem forall₂_withNames {R : Value → Value → Prop}
    (h : List.Forall₂ (fun e t => R t.back e.2) es ts) :
    List.Forall₂ (fun x e => R x.2 e.2) (withNames Trip.back es ts) es := by
  induction h with
  | nil => exact .nil
  | cons hR _ ih => exact .cons hR ih

theorem travels_attrs (h : v.force vm = .ok (.attrs a)) (hvalid : a.Valid)
    (hstring : a.select TO_STRING.contents = none) (hpath : a.select OUT_PATH.contents = none)
    (hnames : ∀ e ∈ a.intoIterSorted, utf8Valid e.1.contents = true)
    (hts : List.Forall₂ (fun e t => Travels vm n e.2 t.json t.context t.back) a.intoIterSorted ts) :
    ∃ b : AttrsRep Value, Travels vm (n + 1) v (.object (withNames Trip.json a.intoIterSorted ts))
      (contextOf ts []) (.attrs b) := by
  have hlen := hts.length_eq
  have hsorted := AttrsRep.pairwise_names hvalid
  obtain ⟨b, hvisit, hvalid', hentries⟩ := exists_visitMap (pairwise_withNames Trip.back hlen hsorted)
  refine ⟨b, ?_, ?_, fun e => ?_, ?_, ?_⟩
  · obtain ⟨n₀, hn₀⟩ := exists_forall₂_le (hts.imp fun e t ht => ht.writes)
    refine ⟨n₀ + 1, fun m hm => ?_⟩
    obtain ⟨m, rfl⟩ := Nat.exists_eq_add_of_le' ((Nat.le_add_left 1 n₀).trans hm)
    simp only [intoContextfulJson, h, jsonAttrs, hstring, hpath, Option.isSome_none,
      Bool.false_eq_true, if_false]
    exact jsonEntries_eq (hn₀ m (by omega)) hnames [] [] (pairwise_withNames Trip.json hlen hsorted)
  · refine .object (pairwise_withNames Trip.json hlen hsorted) ?_ ?_
    · intro x hx
      have hmem : x.1 ∈ (withNames Trip.json a.intoIterSorted ts).map Prod.fst := List.mem_map_of_mem hx
      rw [map_fst_withNames _ hlen] at hmem
      obtain ⟨e, he, heq⟩ := List.mem_map.mp hmem
      exact heq ▸ hnames e he
    · intro x hx
      have hmem : x.2 ∈ (withNames Trip.json a.intoIterSorted ts).map Prod.snd := List.mem_map_of_mem hx
      rw [map_snd_withNames _ hlen] at hmem
      obtain ⟨t, ht, heq⟩ := List.mem_map.mp hmem
      obtain ⟨e, -, he⟩ := (mem_forall₂ hts).1 t ht
      exact heq ▸ he.document
  · rw [mem_contextOf, somewhere_attrs_iff h (by rintro ⟨s, hs, -⟩; cases hs)]
    constructor
    · rintro (he | ⟨t, ht, he⟩)
      · exact absurd he List.not_mem_nil
      · obtain ⟨w, hw, htravels⟩ := (mem_forall₂ hts).1 t ht
        exact ⟨w, hw, (htravels.context_iff e).mp he⟩
    · rintro ⟨w, hw, hin⟩
      obtain ⟨t, ht, htravels⟩ := (mem_forall₂ hts).2 w hw
      exact .inr ⟨t, ht, (htravels.context_iff e).mpr hin⟩
  · rw [Value.deserialize, deserializeEntries_eq]
    · exact hvisit
    · intro t ht
      obtain ⟨e, -, he⟩ := (mem_forall₂ hts).1 t ht
      exact he.reads
  · have hsame := forall₂_withNames (R := Same vm) (hts.imp fun e t ht => ht.same)
    rw [← hentries, List.forall₂_map_left_iff] at hsame
    obtain ⟨-, hzip⟩ := List.forall₂_iff_zip.mp hsame
    refine .attrs rfl h hvalid' hvalid ?_ fun p hp => hzip hp
    have hfst := congrArg (List.map Prod.fst) hentries
    rw [map_fst_withNames _ hlen, List.map_map] at hfst
    exact hfst

/-- Every such value is written, and is read back as the same data. By induction on how it is
    nested. -/
theorem Plain.exists_travels (h : Plain vm n v) : ∃ j context w, Travels vm n v j context w := by
  induction h with
  | @null n v h =>
    refine ⟨.null, [], .null, travels_of_scalar h (by simp) (by simp) (fun m => ?_)
      (not_contextHas (by simp)) .null rfl (.null rfl h)⟩
    simp only [intoContextfulJson, h]
  | @bool n v b h =>
    refine ⟨.bool b, [], .bool b, travels_of_scalar h (by simp) (by simp) (fun m => ?_)
      (not_contextHas (by simp)) (.bool b) rfl (.bool rfl h)⟩
    simp only [intoContextfulJson, h]
  | @integer n v i h hrange =>
    refine ⟨.integer i, [], .integer i, travels_of_scalar h (by simp) (by simp) (fun m => ?_)
      (not_contextHas (by simp)) (.integer hrange) ?_ (.integer rfl h)⟩
    · simp only [intoContextfulJson, h]
    · rw [Value.deserialize, if_pos hrange]
  | @string n v s h hutf8 =>
    refine ⟨.string s.contents, NixContext.extend [] s.context, .string (.plain s.contents),
      travels_of_scalar h (by simp) (by simp) (fun m => ?_) (fun e => ?_) (.string hutf8)
        (by rw [Value.deserialize]) (.string rfl h rfl)⟩
    · simp only [intoContextfulJson, h, asStr_of_valid hutf8]
    · rw [mem_extend]
      constructor
      · rintro (he | he)
        · exact absurd he List.not_mem_nil
        · exact ⟨s, rfl, he⟩
      · rintro ⟨s', hs, he⟩
        cases hs
        exact .inr he
  | @list n v l h _ ih =>
    have hall : ∀ w ∈ l, ∃ t : Trip, Travels vm n w t.json t.context t.back := by
      intro w hw
      obtain ⟨j, context, x, hx⟩ := ih w hw
      exact ⟨⟨j, context, x⟩, hx⟩
    obtain ⟨ts, hts⟩ := exists_forall₂ hall
    exact ⟨_, _, _, travels_list h hts⟩
  | @attrs n v a h hvalid hstring hpath hnames _ ih =>
    have hall : ∀ e ∈ a.intoIterSorted, ∃ t : Trip, Travels vm n e.2 t.json t.context t.back := by
      intro e he
      obtain ⟨j, context, x, hx⟩ := ih e he
      exact ⟨⟨j, context, x⟩, hx⟩
    obtain ⟨ts, hts⟩ := exists_forall₂ hall
    obtain ⟨b, hb⟩ := travels_attrs h hvalid hstring hpath hnames hts
    exact ⟨_, _, _, hb⟩

-- ====================
-- The builtins
-- ====================

/-- The document is printed as a text that is read as this document. -/
def SerdeJson.RoundTrips (serde : SerdeJson) (j : Json) : Prop :=
  ∃ text, serde.toString j = .ok text ∧ serde.fromSlice text = .ok j

/-- Every such value is written as a text with the context of all strings in the value, and
    without a context the text is read back as the same data. These are equal to the value, if no
    attribute set in it calls itself a derivation. -/
theorem fromJson_toJson {serde : SerdeJson} {limit : ℕ} (h : Plain vm limit v)
    (hserde : ∀ j m context, Document limit j →
      intoContextfulJson vm m v = some (.ok (j, context)) → serde.RoundTrips j) :
    ∃ m s, builtinToJson vm serde m v = some (.ok (.string s)) ∧
      (∀ e, e ∈ s.context ↔ Somewhere vm (ContextHas e) v) ∧
      ((∀ e, ¬Somewhere vm (ContextHas e) v) →
        ∃ w, builtinFromJson serde (.string s) = .ok w ∧ Same vm w v ∧
          (¬Somewhere vm (CallsItselfDerivation vm) v →
            ∀ ptrs ptrEq, ∃ m', nixEq vm ptrs m' w v ptrEq = some (.ok (.bool true)))) := by
  obtain ⟨j, context, w, htravels⟩ := h.exists_travels
  obtain ⟨m, hm⟩ := htravels.writes
  have hwritten := hm m (Nat.le_refl m)
  obtain ⟨text, hprint, hread⟩ := hserde j m context htravels.document hwritten
  refine ⟨m, ⟨text, context⟩, ?_, htravels.context_iff, fun hnone => ⟨w, ?_, htravels.same, ?_⟩⟩
  · rw [builtinToJson, hwritten]
    simp only [hprint]
  · have hcontext : context = [] := by
      rw [List.eq_nil_iff_forall_not_mem]
      exact fun e he => hnone e ((htravels.context_iff e).mp he)
    have hstr : (Value.string ⟨text, context⟩).toStr = .ok ⟨text, context⟩ := by
      rw [hcontext]
      rfl
    rw [builtinFromJson, hstr]
    simp only [hread, htravels.reads]
  · exact fun hnot ptrs ptrEq => htravels.same.exists_nixEq hnot ptrs ptrEq

/-- Nothing but the list of null can be printed and read. -/
def nullListJson : SerdeJson where
  toString
    | .array [.null] => .ok [91, 110, 117, 108, 108, 93]
    | _ => .error "not printed"
  fromSlice text :=
    if text = [91, 110, 117, 108, 108, 93] then .ok (.array [.null]) else .error "not read"

/-- `[ null ]`. -/
theorem fromJson_toJson_null :
    ∃ m s, builtinToJson idleVm nullListJson m (.list [.null]) = some (.ok (.string s)) ∧
      (∀ e, e ∈ s.context ↔ Somewhere idleVm (ContextHas e) (.list [.null])) ∧
      ((∀ e, ¬Somewhere idleVm (ContextHas e) (.list [.null])) →
        ∃ w, builtinFromJson nullListJson (.string s) = .ok w ∧ Same idleVm w (.list [.null]) ∧
          (¬Somewhere idleVm (CallsItselfDerivation idleVm) (.list [.null]) →
            ∀ ptrs ptrEq, ∃ m', nixEq idleVm ptrs m' w (.list [.null]) ptrEq =
              some (.ok (.bool true)))) := by
  have hplain : Plain idleVm 127 (.list [.null]) := by
    refine .list rfl fun w hw => ?_
    rw [List.mem_singleton.mp hw]
    exact .null rfl
  refine fromJson_toJson hplain fun j m context _ hrun => ?_
  obtain _ | _ | m := m <;> cases hrun
  exact ⟨_, rfl, rfl⟩

/-- `{ "\xff" = null; }`, whose name is not UTF-8. -/
def unprintable : Value := .attrs (.map [(.plain [255], .null)])

/-- `{ type = "derivation"; }`. -/
def derivationWithoutPath : Value :=
  .attrs (.map [(TYPE, .string (.plain [100, 101, 114, 105, 118, 97, 116, 105, 111, 110]))])

/-- An attribute set with a name that is not UTF-8 is not written, and one that calls itself a
    derivation and has no output path is not even equal to itself. -/
theorem toJson_unprintable :
    (¬∃ serde m s, builtinToJson idleVm serde m unprintable = some (.ok (.string s))) ∧
      ¬∃ m, nixEq idleVm distinct m derivationWithoutPath derivationWithoutPath .forbidAll =
        some (.ok (.bool true)) := by
  constructor
  · rintro ⟨serde, m, s, h⟩
    obtain _ | _ | m := m <;> cases h
  · rintro ⟨m, h⟩
    obtain _ | m := m <;> cases h

end Snix.Eval
