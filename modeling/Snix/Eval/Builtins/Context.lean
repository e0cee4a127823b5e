import Snix.Eval.Value.Coerce

/-!
# String contexts

The context of a string is shown as an attribute set, with one attribute for each path, and
a context is put together from such a set. On the way back the paths and the output names
are displayed as strings of the language, with quotes around them.

## Main definitions

- `intoGroupingMapBy` — the elements of a list, grouped
- `builtinGetContext`, `builtinAppendContext` — the builtins
- `NixContextElement.displayed` — what an element becomes on the way
- `AppendUndoesGet` — the context of one string is appended to another one
- `Survives` — the contexts for which that is right

## Main results

- `appendUndoesGet_iff` — when the context that was shown is the context that is appended
-/

namespace Snix.Eval

-- ====================
-- Display
-- ====================

/-- How a character is escaped, with the character after it. -/
def nixEscapeChar (ch : UInt8) (next : Option UInt8) : Option Bytes :=
  if ch = 92 then some [92, 92]
  else if ch = 34 then some [92, 34]
  else if ch = 10 then some [92, 110]
  else if ch = 9 then some [92, 116]
  else if ch = 13 then some [92, 114]
  -- a dollar sign before a brace
  else if ch = 36 ∧ next = some 123 then some [92, 36]
  else none

/-- What is escaped is ASCII, so bytes do for characters. -/
def nixEscapeString : Bytes → Bytes
  | [] => []
  | ch :: rest => (nixEscapeChar ch rest.head?).getD [ch] ++ nixEscapeString rest

/-- A string in quotes. -/
def display (s : Bytes) : Bytes := [34] ++ nixEscapeString (toStringLossy s) ++ [34]

-- ====================
-- Groups
-- ====================

section Groups

variable {α κ : Type} [DecidableEq κ]

/-- An element is put into the group of its key. -/
def pushGroup (key : α → κ) (a : α) : List (κ × List α) → List (κ × List α)
  | [] => [(key a, [a])]
  | g :: gs => if g.1 = key a then (g.1, g.2 ++ [a]) :: gs else g :: pushGroup key a gs

/-- The elements that have a key in common, for each key. -/
def intoGroupingMapBy (key : α → κ) (l : List α) : List (κ × List α) :=
  l.foldl (fun gs a => pushGroup key a gs) []

/-- The groups of the elements of a list. -/
structure Grouped (key : α → κ) (l : List α) (gs : List (κ × List α)) : Prop where
  distinct : (gs.map Prod.fst).Nodup
  keyed : ∀ g ∈ gs, ∀ a ∈ g.2, key a = g.1
  mem_iff : ∀ a, a ∈ l ↔ ∃ g ∈ gs, a ∈ g.2

variable {key : α → κ} {a b : α} {l : List α} {g : κ × List α} {gs : List (κ × List α)}

theorem keys_pushGroup : (pushGroup key a gs).map Prod.fst =
    if key a ∈ gs.map Prod.fst then gs.map Prod.fst else gs.map Prod.fst ++ [key a] := by
  induction gs with
  | nil => rfl
  | cons g gs ih =>
    rw [pushGroup, List.map_cons]
    by_cases hg : g.1 = key a
    · rw [if_pos hg, hg, if_pos List.mem_cons_self, List.map_cons]
    · rw [if_neg hg, List.map_cons, ih]
      by_cases hmem : key a ∈ gs.map Prod.fst
      · rw [if_pos hmem, if_pos (List.mem_cons_of_mem _ hmem)]
      · have hnot : key a ∉ g.1 :: gs.map Prod.fst := List.not_mem_cons_of_ne_of_not_mem (Ne.symm hg) hmem
        rw [if_neg hmem, if_neg hnot]
        rfl

theorem keyed_pushGroup (h : ∀ g ∈ gs, ∀ b ∈ g.2, key b = g.1) :
    ∀ g ∈ pushGroup key a gs, ∀ b ∈ g.2, key b = g.1 := by
  induction gs with
  | nil =>
    intro g hg b hb
    rw [List.mem_singleton.mp hg] at hb ⊢
    rw [List.mem_singleton.mp hb]
  | cons x gs ih =>
    have hrest := ih fun g hg => h g (List.mem_cons_of_mem _ hg)
    have hx := h x List.mem_cons_self
    intro g hg b hb
    rw [pushGroup] at hg
    split_ifs at hg with hkey
    · obtain rfl | hg := List.mem_cons.mp hg
      · obtain hb | hb := List.mem_append.mp hb
        · exact hx b hb
        · rw [List.mem_singleton.mp hb]
          exact hkey.symm
      · exact h g (List.mem_cons_of_mem _ hg) b hb
    · obtain rfl | hg := List.mem_cons.mp hg
      · exact hx b hb
      · exact hrest g hg b hb

theorem mem_pushGroup_iff :
    (∃ g ∈ pushGroup key a gs, b ∈ g.2) ↔ b = a ∨ ∃ g ∈ gs, b ∈ g.2 := by
  induction gs with
  | nil => simp [pushGroup]
  | cons x gs ih =>
    rw [pushGroup]
    split_ifs
    · simp only [List.mem_cons, exists_eq_or_imp, List.mem_append, List.not_mem_nil, or_false]
      rw [or_comm (a := b ∈ x.2), or_assoc]
    · simp only [List.mem_cons, exists_eq_or_imp, ih]
      rw [or_left_comm]

theorem Grouped.push (h : Grouped key l gs) (a : α) :
    Grouped key (l ++ [a]) (pushGroup key a gs) where
  distinct := by
    rw [keys_pushGroup]
    split_ifs with hmem
    · exact h.distinct
    · rw [List.nodup_append]
      refine ⟨h.distinct, List.nodup_singleton _, fun k hk k' hk' he => hmem ?_⟩
      rw [List.mem_singleton.mp hk'] at he
      exact he ▸ hk
  keyed := keyed_pushGroup h.keyed
  mem_iff b := by
    rw [mem_pushGroup_iff, List.mem_append, List.mem_singleton, h.mem_iff b, or_comm]

theorem grouped_intoGroupingMapBy (key : α → κ) (l : List α) : Grouped key l (intoGroupingMapBy key l) := by
  have hall : ∀ (rest done : List α) (gs : List (κ × List α)), Grouped key done gs →
      Grouped key (done ++ rest) (rest.foldl (fun gs a => pushGroup key a gs) gs) := by
    intro rest
    induction rest with
    | nil =>
      intro done gs h
      rwa [List.append_nil]
    | cons a rest ih =>
      intro done gs h
      have hstep := ih (done ++ [a]) _ (h.push a)
      rwa [List.append_assoc, List.singleton_append] at hstep
  refine hall l [] [] ⟨List.nodup_nil, fun g hg => absurd hg List.not_mem_nil, fun a => ?_⟩
  simp

end Groups

-- ====================
-- The builtins
-- ====================

/-- The attributes of the set for a path. -/
def PATH : NixString := .plain [112, 97, 116, 104]

def ALL_OUTPUTS : NixString := .plain [97, 108, 108, 79, 117, 116, 112, 117, 116, 115]

def OUTPUTS : NixString := .plain [111, 117, 116, 112, 117, 116, 115]

namespace NixContextElement

/-- The path that an element is shown under. -/
def key : NixContextElement → Bytes
  | .plain spath => spath
  | .single _ drv => drv
  | .derivation drvPath => drvPath

def isPlain : NixContextElement → Bool
  | .plain _ => true
  | _ => false

def isDerivation : NixContextElement → Bool
  | .derivation _ => true
  | _ => false

def outputName : NixContextElement → Option NixString
  | .single name _ => some (.plain name)
  | _ => none

/-- An element after its path and its output name were displayed. -/
def displayed : NixContextElement → NixContextElement
  | .plain spath => .plain (display spath)
  | .single name drv => .single (display name) (display drv)
  | .derivation drvPath => .derivation (display drvPath)

end NixContextElement

/-- The attributes that are set. The outputs are sorted. -/
def contextAttrs (isPath allOutputs : Bool) (outputs : List NixString) : AttrsRep Value :=
  .fromIter
    ((if isPath then [(PATH, .bool true)] else []) ++
      (if allOutputs then [(ALL_OUTPUTS, .bool true)] else []) ++
      (if outputs.isEmpty then []
        else [(OUTPUTS, .list ((sortByKey compare NixString.contents outputs).map .string))]))

/-- The attribute set for a group of elements. -/
def groupAttrs (group : List NixContextElement) : AttrsRep Value :=
  contextAttrs (group.any NixContextElement.isPlain) (group.any NixContextElement.isDerivation)
    (group.filterMap NixContextElement.outputName)

def builtinGetContext (e : Value) : Except ErrorKind Value :=
  if e.isCatchable then .ok e
  else do
    let s ← e.toContextfulStr
    .ok (.attrs (.fromIter ((intoGroupingMapBy NixContextElement.key s.context).map fun g =>
      (.plain g.1, .attrs (groupAttrs g.2)))))

/-- An element that an attribute asks for, if it is there and true. -/
def insertIf (attr : Option Value) (e : NixContextElement) (ctxElements : NixContext) :
    Except ErrorKind NixContext :=
  match attr with
  | none => .ok ctxElements
  | some v => do
    let b ← v.asBool
    .ok (if b then ctxElements.append e else ctxElements)

def insertOutput (drv : Bytes) (ctxElements : NixContext) (output : Value) :
    Except ErrorKind NixContext := do
  let output ← output.toStr
  .ok (ctxElements.append (.single (display output.contents) drv))

/-- The elements for the outputs, if there are any. -/
def insertOutputs (attr : Option Value) (drv : Bytes) (ctxElements : NixContext) :
    Except ErrorKind NixContext :=
  match attr with
  | none => .ok ctxElements
  | some v => do
    let outputs ← v.toList
    outputs.foldlM (insertOutput drv) ctxElements

/-- The elements that an attribute of the added context stands for. -/
def insertElements (ctxElements : NixContext) (entry : NixString × Value) :
    Except ErrorKind NixContext := do
  let element ← entry.2.toAttrs
  let contextKey := display entry.1.contents
  let ctxElements ← insertIf (element.select PATH.contents) (.plain contextKey) ctxElements
  let ctxElements ←
    insertIf (element.select ALL_OUTPUTS.contents) (.derivation contextKey) ctxElements
  insertOutputs (element.select OUTPUTS.contents) contextKey ctxElements

/-- The elements are added to a context that is there already. -/
def extendContext (origin : NixString) (ctxElements : NixContext) : NixString :=
  if origin.hasContext then { origin with context := origin.context.extend ctxElements } else origin

/-- None if the coercion of the string takes more than the given number of rounds. -/
def builtinAppendContext (vm : Vm) (n : ℕ) (origin addedContext : Value) :
    Option (Except Fault Value) :=
  (coerceToString vm n ⟨true, true⟩ origin).map fun r => do
    let coerced ← r
    let appended : Except ErrorKind Value := do
      let origin ← coerced.toContextfulStr
      let addedContext ← addedContext.toAttrs
      let ctxElements ← addedContext.entries.foldlM insertElements []
      .ok (.string (extendContext origin ctxElements))
    appended.mapError .error

-- ====================
-- The set for a group
-- ====================

variable {vm : Vm} {n : ℕ} {group ctx : NixContext} {e : NixContextElement} {k : NixString}
  {s t : NixString} {outputs : List NixString}

theorem mem_append {ctx : NixContext} {e x : NixContextElement} :
    e ∈ ctx.append x ↔ e = x ∨ e ∈ ctx := by
  have h := @mem_extend ctx [x] e
  rwa [List.mem_singleton, or_comm] at h

theorem select_contextAttrs (isPath allOutputs : Bool) (outputs : List NixString) :
    (contextAttrs isPath allOutputs outputs).select PATH.contents =
        (if isPath then some (.bool true) else none) ∧
      (contextAttrs isPath allOutputs outputs).select ALL_OUTPUTS.contents =
        (if allOutputs then some (.bool true) else none) ∧
      (contextAttrs isPath allOutputs outputs).select OUTPUTS.contents =
        if outputs = [] then none
        else some (.list ((sortByKey compare NixString.contents outputs).map .string)) := by
  cases outputs with
  | nil => cases isPath <;> cases allOutputs <;> exact ⟨rfl, rfl, rfl⟩
  | cons o outputs => cases isPath <;> cases allOutputs <;> exact ⟨rfl, rfl, rfl⟩

theorem mem_insertIf {attr : Option Value} {b : Bool} (x : NixContextElement)
    (h : attr = if b then some (.bool true) else none) :
    ∃ ctx', insertIf attr x ctx = .ok ctx' ∧ ∀ e, e ∈ ctx' ↔ (b = true ∧ e = x) ∨ e ∈ ctx := by
  cases b with
  | false => exact ⟨ctx, by rw [h]; rfl, fun e => by simp⟩
  | true => exact ⟨ctx.append x, by rw [h]; rfl, fun e => by simp [mem_append]⟩

/-- The outputs are added one after the other. -/
theorem mem_foldlM_insertOutput (drv : Bytes) (hplain : ∀ o ∈ outputs, o.context = []) :
    ∃ ctx', (outputs.map Value.string).foldlM (insertOutput drv) ctx = .ok ctx' ∧
      ∀ e, e ∈ ctx' ↔ (∃ o ∈ outputs, e = .single (display o.contents) drv) ∨ e ∈ ctx := by
  induction outputs generalizing ctx with
  | nil => exact ⟨ctx, rfl, fun e => by simp⟩
  | cons o outputs ih =>
    obtain ⟨ctx', hctx', hmem⟩ := @ih (ctx.append (.single (display o.contents) drv))
      fun o ho => hplain o (List.mem_cons_of_mem _ ho)
    have hstep : insertOutput drv ctx (.string o) =
        .ok (ctx.append (.single (display o.contents) drv)) := by
      rw [insertOutput, Value.toStr, NixString.hasContext, hplain o List.mem_cons_self]
      rfl
    refine ⟨ctx', ?_, fun e => ?_⟩
    · rw [List.map_cons, List.foldlM_cons, hstep]
      exact hctx'
    · rw [hmem, mem_append, List.exists_mem_cons_iff, ← or_assoc]
      apply or_congr_left
      exact or_comm

theorem mem_insertOutputs {attr : Option Value} (drv : Bytes) (hplain : ∀ o ∈ outputs, o.context = [])
    (h : attr = if outputs = [] then none
      else some (.list ((sortByKey compare NixString.contents outputs).map .string))) :
    ∃ ctx', insertOutputs attr drv ctx = .ok ctx' ∧
      ∀ e, e ∈ ctx' ↔ (∃ o ∈ outputs, e = .single (display o.contents) drv) ∨ e ∈ ctx := by
  have hperm : (sortByKey compare NixString.contents outputs).Perm outputs :=
    List.perm_insertionSort _ _
  by_cases hnil : outputs = []
  · refine ⟨ctx, ?_, fun e => by simp [hnil]⟩
    rw [h, if_pos hnil]
    rfl
  · obtain ⟨ctx', hctx', hmem⟩ := @mem_foldlM_insertOutput ctx _ drv fun o ho =>
      hplain o (hperm.mem_iff.mp ho)
    refine ⟨ctx', ?_, fun e => ?_⟩
    · rw [h, if_neg hnil]
      exact hctx'
    · simp only [hmem, hperm.mem_iff]

/-- The elements of a group, by their kinds. -/
theorem exists_displayed_iff (hk : ∀ g ∈ group, g.key = k.contents) :
    (∃ g ∈ group, e = g.displayed) ↔
      (group.any NixContextElement.isPlain = true ∧ e = .plain (display k.contents)) ∨
      (group.any NixContextElement.isDerivation = true ∧ e = .derivation (display k.contents)) ∨
      ∃ o ∈ group.filterMap NixContextElement.outputName,
        e = .single (display o.contents) (display k.contents) := by
  constructor
  · rintro ⟨g, hg, rfl⟩
    rw [← hk g hg]
    cases g with
    | plain spath => exact .inl ⟨List.any_eq_true.mpr ⟨_, hg, rfl⟩, rfl⟩
    | derivation drvPath => exact .inr (.inl ⟨List.any_eq_true.mpr ⟨_, hg, rfl⟩, rfl⟩)
    | single name drv =>
      exact .inr (.inr ⟨.plain name, List.mem_filterMap.mpr ⟨_, hg, rfl⟩, rfl⟩)
  · rintro (⟨hany, rfl⟩ | ⟨hany, rfl⟩ | ⟨o, ho, rfl⟩)
    · obtain ⟨g, hg, hplain⟩ := List.any_eq_true.mp hany
      refine ⟨g, hg, ?_⟩
      rw [← hk g hg]
      cases g with
      | plain spath => rfl
      | derivation drvPath => cases hplain
      | single name drv => cases hplain
    · obtain ⟨g, hg, hdrv⟩ := List.any_eq_true.mp hany
      refine ⟨g, hg, ?_⟩
      rw [← hk g hg]
      cases g with
      | plain spath => cases hdrv
      | derivation drvPath => rfl
      | single name drv => cases hdrv
    · obtain ⟨g, hg, hname⟩ := List.mem_filterMap.mp ho
      refine ⟨g, hg, ?_⟩
      rw [← hk g hg]
      cases g with
      | plain spath => cases hname
      | derivation drvPath => cases hname
      | single name drv =>
        cases hname
        rfl

theorem or_reversed {p q r o : Prop} : r ∨ q ∨ p ∨ o ↔ (p ∨ q ∨ r) ∨ o := by
  tauto

/-- What a group's set stands for: the elements of the group, displayed. -/
theorem insertElements_groupAttrs (hk : ∀ g ∈ group, g.key = k.contents) :
    ∃ ctx', insertElements ctx (k, .attrs (groupAttrs group)) = .ok ctx' ∧
      ∀ e, e ∈ ctx' ↔ (∃ g ∈ group, e = g.displayed) ∨ e ∈ ctx := by
  obtain ⟨hpath, hall, houtputs⟩ := select_contextAttrs (group.any NixContextElement.isPlain)
    (group.any NixContextElement.isDerivation) (group.filterMap NixContextElement.outputName)
  obtain ⟨ctx₁, h₁, hmem₁⟩ := @mem_insertIf ctx _ _ (.plain (display k.contents)) hpath
  obtain ⟨ctx₂, h₂, hmem₂⟩ := @mem_insertIf ctx₁ _ _ (.derivation (display k.contents)) hall
  have hplain : ∀ o ∈ group.filterMap NixContextElement.outputName, o.context = [] := by
    intro o ho
    obtain ⟨g, -, hname⟩ := List.mem_filterMap.mp ho
    cases g with
    | plain spath => cases hname
    | derivation drvPath => cases hname
    | single name drv =>
      cases hname
      rfl
  obtain ⟨ctx₃, h₃, hmem₃⟩ := @mem_insertOutputs ctx₂ _ _ (display k.contents) hplain houtputs
  refine ⟨ctx₃, ?_, fun e => ?_⟩
  · calc insertElements ctx (k, .attrs (groupAttrs group))
      _ = (insertIf ((groupAttrs group).select PATH.contents) (.plain (display k.contents)) ctx).bind
          fun ctx => (insertIf ((groupAttrs group).select ALL_OUTPUTS.contents)
            (.derivation (display k.contents)) ctx).bind
          fun ctx => insertOutputs ((groupAttrs group).select OUTPUTS.contents)
            (display k.contents) ctx := rfl
      _ = .ok ctx₃ := by
        rw [groupAttrs, h₁]
        refine Eq.trans ?_ h₃
        exact congrArg (fun r => Except.bind r _) h₂
  · rw [hmem₃, hmem₂, hmem₁, exists_displayed_iff hk]
    exact or_reversed

/-- The sets are read one after the other. -/
theorem mem_foldlM_insertElements {entries : List (NixString × List NixContextElement)}
    (h : ∀ g ∈ entries, ∀ x ∈ g.2, x.key = g.1.contents) :
    ∃ ctx', (entries.map fun g => (g.1, Value.attrs (groupAttrs g.2))).foldlM insertElements ctx =
        .ok ctx' ∧
      ∀ e, e ∈ ctx' ↔ (∃ g ∈ entries, ∃ x ∈ g.2, e = x.displayed) ∨ e ∈ ctx := by
  induction entries generalizing ctx with
  | nil => exact ⟨ctx, rfl, fun e => by simp⟩
  | cons g entries ih =>
    obtain ⟨ctx₁, h₁, hmem₁⟩ := @insertElements_groupAttrs g.2 ctx g.1 (h g List.mem_cons_self)
    obtain ⟨ctx₂, h₂, hmem₂⟩ := @ih ctx₁ fun g hg => h g (List.mem_cons_of_mem _ hg)
    refine ⟨ctx₂, ?_, fun e => ?_⟩
    · rw [List.map_cons, List.foldlM_cons, h₁]
      exact h₂
    · rw [hmem₂, hmem₁, List.exists_mem_cons_iff, ← or_assoc]
      apply or_congr_left
      exact or_comm

-- ====================
-- There and back
-- ====================

/-- The entries of the set that a context is shown as. -/
theorem entries_shown (context : NixContext) :
    (AttrsRep.fromIter ((intoGroupingMapBy NixContextElement.key context).map fun g =>
      (NixString.plain g.1, Value.attrs (groupAttrs g.2)))).entries =
      ((intoGroupingMapBy NixContextElement.key context).map fun g => (NixString.plain g.1, g.2)).map
        fun g => (g.1, Value.attrs (groupAttrs g.2)) := by
  have hkeys := (grouped_intoGroupingMapBy NixContextElement.key context).distinct
  rw [List.Nodup, List.pairwise_map] at hkeys
  have hdistinct : HashMap.Distinct ([] ++
      (intoGroupingMapBy NixContextElement.key context).map fun g =>
        (NixString.plain g.1, Value.attrs (groupAttrs g.2))) := by
    rw [List.nil_append]
    exact List.pairwise_map.mpr hkeys
  rw [AttrsRep.fromIter, AttrsRep.entries, HashMap.extend_of_distinct hdistinct, List.map_map]
  rfl

theorem coerceToString_string (s : NixString) :
    coerceToString vm (n + 2) ⟨true, true⟩ (.string s) =
      some (.ok (.string ⟨s.contents, NixContext.extend [] s.context⟩)) := by
  have hstep : coerceStep vm ⟨true, true⟩ ⟨[], none, [], []⟩ (.string s) =
      .again ⟨[], none, NixContext.extend [] s.context, s.contents⟩ := rfl
  exact (coerceLoop_step rfl hstep).trans (coerceLoop_nil rfl n)

/-- The context of one string is shown and appended to another one: the result is the union. -/
def AppendUndoesGet (vm : Vm) (n : ℕ) (s t : NixString) : Prop :=
  ∃ shown r, builtinGetContext (.string s) = .ok shown ∧
    builtinAppendContext vm n (.string t) shown = some (.ok (.string r)) ∧
    r.contents = t.contents ∧ ∀ e, e ∈ r.context ↔ e ∈ s.context ∨ e ∈ t.context

/-- What is shown may be displayed: elements that are lost are there already, and so are those
    that appear. -/
def Survives (s t : NixString) : Prop :=
  s.context = [] ∨ t.context ≠ [] ∧
    (∀ e ∈ s.context, e ∈ t.context ∨ ∃ e' ∈ s.context, e = e'.displayed) ∧
    ∀ e ∈ s.context, e.displayed ∈ s.context ∨ e.displayed ∈ t.context

/-- What appending the context that was shown gives. -/
theorem exists_appended (vm : Vm) (n : ℕ) (s t : NixString) :
    ∃ shown r, builtinGetContext (.string s) = .ok shown ∧
      builtinAppendContext vm (n + 2) (.string t) shown = some (.ok (.string r)) ∧
      r.contents = t.contents ∧
      ∀ e, e ∈ r.context ↔
        (t.context ≠ [] ∧ ∃ x ∈ s.context, e = x.displayed) ∨ e ∈ t.context := by
  have hgrouped := grouped_intoGroupingMapBy NixContextElement.key s.context
  obtain ⟨ctx, hctx, hmem⟩ := @mem_foldlM_insertElements []
    ((intoGroupingMapBy NixContextElement.key s.context).map fun g => (NixString.plain g.1, g.2))
    (by
      intro g hg x hx
      obtain ⟨g', hg', rfl⟩ := List.mem_map.mp hg
      exact hgrouped.keyed g' hg' x hx)
  rw [← entries_shown] at hctx
  -- the string after the coercion
  let origin : NixString := ⟨t.contents, NixContext.extend [] t.context⟩
  have horigin (e : NixContextElement) : e ∈ origin.context ↔ e ∈ t.context := by
    rw [mem_extend, or_iff_right List.not_mem_nil]
  have hdisplayed (e : NixContextElement) : e ∈ ctx ↔ ∃ x ∈ s.context, e = x.displayed := by
    rw [hmem, or_iff_left List.not_mem_nil]
    constructor
    · rintro ⟨g, hg, x, hx, rfl⟩
      obtain ⟨g', hg', rfl⟩ := List.mem_map.mp hg
      exact ⟨x, (hgrouped.mem_iff x).mpr ⟨g', hg', hx⟩, rfl⟩
    · rintro ⟨x, hx, rfl⟩
      obtain ⟨g, hg, hxg⟩ := (hgrouped.mem_iff x).mp hx
      exact ⟨_, List.mem_map_of_mem hg, x, hxg, rfl⟩
  refine ⟨_, extendContext origin ctx, rfl, ?_, ?_, fun e => ?_⟩
  · rw [builtinAppendContext, coerceToString_string, Option.map_some]
    apply congrArg some
    have hset := congrArg (fun r : Except ErrorKind NixContext =>
      (r.bind fun ctx => Except.ok (Value.string (extendContext origin ctx))).mapError Fault.error) hctx
    exact hset
  · unfold extendContext
    split_ifs <;> rfl
  · have hhas : origin.hasContext = true ↔ t.context ≠ [] := by
      rw [NixString.hasContext, Bool.not_eq_true', List.isEmpty_eq_false_iff]
      constructor
      · intro hne ht
        obtain ⟨x, hx⟩ := List.exists_mem_of_ne_nil _ hne
        exact absurd ((horigin x).mp hx) (ht ▸ List.not_mem_nil)
      · intro ht
        obtain ⟨x, hx⟩ := List.exists_mem_of_ne_nil _ ht
        exact List.ne_nil_of_mem ((horigin x).mpr hx)
    unfold extendContext
    by_cases ht : t.context = []
    · rw [if_neg fun h => hhas.mp h ht, horigin, ht]
      simp
    · rw [if_pos (hhas.mpr ht), mem_extend, horigin, hdisplayed, or_comm, and_iff_right ht]

theorem appendUndoesGet_iff_union (vm : Vm) (n : ℕ) (s t : NixString) :
    AppendUndoesGet vm (n + 2) s t ↔
      ∀ e, (t.context ≠ [] ∧ ∃ x ∈ s.context, e = x.displayed) ∨ e ∈ t.context ↔
        e ∈ s.context ∨ e ∈ t.context := by
  obtain ⟨shown, r, hshown, hr, hcontents, hmem⟩ := exists_appended vm n s t
  constructor
  · rintro ⟨shown', r', hshown', hr', -, hmem'⟩ e
    obtain rfl := Except.ok.inj (hshown.symm.trans hshown')
    have heq := Option.some.inj (hr.symm.trans hr')
    cases heq
    exact (hmem e).symm.trans (hmem' e)
  · exact fun h => ⟨shown, r, hshown, hr, hcontents, fun e => (hmem e).trans (h e)⟩

/-- The context of a string survives being shown and appended if and only if what is lost and what
    appears on the way is there already. -/
theorem appendUndoesGet_iff (vm : Vm) (n : ℕ) (s t : NixString) :
    AppendUndoesGet vm (n + 2) s t ↔ Survives s t := by
  rw [appendUndoesGet_iff_union]
  constructor
  · intro h
    by_cases hs : s.context = []
    · exact .inl hs
    · have ht : t.context ≠ [] := by
        intro ht
        obtain ⟨e, he⟩ := List.exists_mem_of_ne_nil _ hs
        obtain ⟨hne, -⟩ | he := (h e).mpr (.inl he)
        · exact hne ht
        · rw [ht] at he
          cases he
      refine .inr ⟨ht, fun e he => ?_, fun e he => ?_⟩
      · obtain ⟨-, hd⟩ | ht := (h e).mpr (.inl he)
        · exact .inr hd
        · exact .inl ht
      · exact (h _).mp (.inl ⟨ht, e, he, rfl⟩)
  · rintro (hs | ⟨ht, hlost, hnew⟩) e
    · rw [hs]
      simp
    · constructor
      · rintro (⟨-, x, hx, rfl⟩ | he)
        · exact hnew x hx
        · exact .inr he
      · rintro (he | he)
        · obtain he | he := hlost e he
          · exact .inr he
          · exact .inl ⟨ht, he⟩
        · exact .inr he

/-- The context is lost where the other string has none. A string's own context is not the same
    after it was displayed. -/
theorem appendContext_loses :
    ¬AppendUndoesGet ⟨fun _ => .ok .null, .ok, fun f _ => .ok f, fun _ => []⟩ 2
        ⟨ascii "a", [.plain (ascii "/nix/store/x")]⟩ ⟨ascii "b", []⟩ ∧
      ¬AppendUndoesGet ⟨fun _ => .ok .null, .ok, fun f _ => .ok f, fun _ => []⟩ 2
        ⟨ascii "a", [.plain (ascii "/nix/store/x")]⟩ ⟨ascii "a", [.plain (ascii "/nix/store/x")]⟩ := by
  rw [appendUndoesGet_iff_union _ 0, appendUndoesGet_iff_union _ 0]
  constructor
  · intro h
    obtain ⟨hne, -⟩ | he := (h (.plain (ascii "/nix/store/x"))).mpr (.inl List.mem_cons_self)
    · exact hne rfl
    · cases he
  · intro h
    have hquoted := (h (.plain (display (ascii "/nix/store/x")))).mp
      (.inl ⟨List.cons_ne_nil _ _, _, List.mem_cons_self, rfl⟩)
    revert hquoted
    decide +kernel

end Snix.Eval
